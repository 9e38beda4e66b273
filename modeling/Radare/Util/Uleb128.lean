import Radare.Framework.Leb128

namespace Radare

/-- The loop of `r_uleb128`, with the room up to `data_end` first. A read behind the bytes and a
shift of the 32-bit value by its width or more are undefined. -/
def rUleb128Loop : Nat → Nat → Ut64 → List Ut8 → Option (Ut64 × List Ut8)
  | 0, _, sum, data => some (sum, data)
  | _ + 1, _, _, [] => none
  | room + 1, s, sum, c :: data =>
    if 32 ≤ s then none
    else
      let sum := sum ||| (((c &&& 0x7f).setWidth 32) <<< s).setWidth 64
      if c &&& 0x80 = 0 then some (sum, data) else rUleb128Loop room (s + 7) sum data

/-- `r_uleb128 (data, ST32_MAX, &v)`: the value and the bytes behind it. -/
def rUleb128 (data : List Ut8) : Option (Ut64 × List Ut8) :=
  match data with
  | [] => none
  | b :: rest => if b ≠ 0 then rUleb128Loop 0xffff 0 0 data else some (0, rest)

/-- The loop of `r_leb128` with the last byte read: the shift, the sum, that byte and the bytes left. -/
def rLeb128Loop : Nat → Ut64 → Ut8 → List Ut8 → Option (Nat × Ut64 × Ut8 × List Ut8)
  | _, _, _, [] => none
  | s, sum, c, b :: data =>
    if b = 0 then some (s, sum, c, b :: data)
    else if 64 ≤ s then none
    else
      let sum := sum ||| ((b &&& 0x7f).setWidth 64) <<< s
      if b &&& 0x80 = 0 then some (s + 7, sum, b, data) else rLeb128Loop (s + 7) sum b data

/-- What `r_leb128` does behind the loop. -/
def extendSign (s : Nat) (sum : Ut64) (c : Ut8) : Ut64 :=
  if s < 64 ∧ c &&& 0x40 ≠ 0 then sum ||| -(1#64 <<< s) else sum

/-- `r_leb128`: the value and the bytes behind it. -/
def rLeb128 (data : List Ut8) : Option (Ut64 × List Ut8) :=
  (rLeb128Loop 0 0 0 data).map (fun (s, sum, c, data) => (extendSign s sum c, data))

open Framework.Leb128

/-- The bits of a group, decided over the bytes. -/
theorem group_bits : ∀ c : Ut8, (c &&& 0x7f).toNat = c.toNat % 128 ∧ (c &&& 0x80 = 0 ↔ c.toNat < 128) ∧
    (c &&& 0x40 ≠ 0 ↔ ¬c.toNat % 128 < 64) := by
  decide

theorem low_bits (c : Ut8) : (c &&& 0x7f).toNat = c.toNat % 128 := (group_bits c).1

theorem last_byte_iff (c : Ut8) : c &&& 0x80 = 0 ↔ c.toNat < 128 := (group_bits c).2.1

theorem sign_bit_iff (c : Ut8) : c &&& 0x40 ≠ 0 ↔ ¬c.toNat % 128 < 64 := (group_bits c).2.2

theorem low_bits_wide (c : Ut8) (w : Nat) (hw : 7 ≤ w) :
    ((c &&& 0x7f).setWidth w).toNat = c.toNat % 128 := by
  have hpow : 2 ^ 7 ≤ 2 ^ w := Nat.pow_le_pow_right (by omega) hw
  rw [BitVec.toNat_setWidth, low_bits, Nat.mod_eq_of_lt (by omega : c.toNat % 128 < 2 ^ w)]

theorem low_bits_shifted (c : Ut8) (s : Nat) :
    ((c &&& 0x7f).setWidth 64) <<< s = BitVec.ofInt 64 (((c.toNat % 128 : Nat) : Int) * 2 ^ s) := by
  rw [← shiftLeft_eq_ofInt]
  congr 1
  apply BitVec.eq_of_toNat_eq
  rw [low_bits_wide c 64 (by omega), BitVec.toNat_ofNat,
    Nat.mod_eq_of_lt (by omega : c.toNat % 128 < 2 ^ 64)]

theorem uleb_step (sum : Ut64) (c : Ut8) (s : Nat) (hsum : sum.toNat < 2 ^ s)
    (hfit : sum.toNat + 2 ^ s * (c.toNat % 128) < 4294967296) :
    (sum ||| (((c &&& 0x7f).setWidth 32) <<< s).setWidth 64).toNat =
      sum.toNat + 2 ^ s * (c.toNat % 128) := by
  have hx : (((c &&& 0x7f).setWidth 32) <<< s).setWidth 64 = ((c &&& 0x7f).setWidth 64) <<< s := by
    apply BitVec.eq_of_toNat_eq
    rw [BitVec.toNat_setWidth, BitVec.toNat_shiftLeft, BitVec.toNat_shiftLeft,
      low_bits_wide c 32 (by omega), low_bits_wide c 64 (by omega), Nat.shiftLeft_eq,
      Nat.mul_comm _ (2 ^ s)]
    omega
  rw [hx, or_shiftLeft sum _ s hsum, BitVec.toNat_add, BitVec.toNat_shiftLeft,
    low_bits_wide c 64 (by omega), Nat.shiftLeft_eq, Nat.mul_comm _ (2 ^ s)]
  omega

/-- Five bytes whose value fits 32 bits are read as the value they encode. -/
theorem rUleb128Loop_eq (bs rest : List Ut8) (room s : Nat) (sum : Ut64) (h : IsLeb bs)
    (hroom : bs.length ≤ room) (hs : s + 7 * bs.length ≤ 35) (hsum : sum.toNat < 2 ^ s)
    (hfit : sum.toNat + 2 ^ s * ulebValue bs < 4294967296) :
    rUleb128Loop room s sum (bs ++ rest) =
      some (BitVec.ofNat 64 (sum.toNat + 2 ^ s * ulebValue bs), rest) := by
  induction bs generalizing room s sum with
  | nil => exact absurd rfl h.ne_nil
  | cons c bs ih =>
    simp only [List.length_cons] at hroom hs
    obtain ⟨room, rfl⟩ := Nat.exists_eq_add_of_le' (by omega : 1 ≤ room)
    rw [ulebValue, Nat.mul_add] at hfit ⊢
    have hstep := uleb_step sum c s hsum (by omega)
    rw [List.cons_append, rUleb128Loop, if_neg (by omega)]
    simp only [last_byte_iff]
    by_cases hlast : c.toNat < 128
    · rw [if_pos hlast, h.eq_singleton hlast]
      simp only [ulebValue, Nat.mul_zero, Nat.add_zero, List.nil_append]
      rw [← hstep, BitVec.ofNat_toNat, BitVec.setWidth_eq]
    · have hpow : 2 ^ (s + 7) = 2 ^ s * 128 := by ring
      have hcons : IsLeb bs := by
        cases bs with
        | nil => exact absurd h hlast
        | cons d bs => exact h.2
      have hlt : 2 ^ s * (c.toNat % 128) + 2 ^ s ≤ 2 ^ s * 128 := by
        have hc : c.toNat % 128 + 1 ≤ 128 := by omega
        calc 2 ^ s * (c.toNat % 128) + 2 ^ s = 2 ^ s * (c.toNat % 128 + 1) := by ring
          _ ≤ 2 ^ s * 128 := Nat.mul_le_mul_left _ hc
      have hval : sum.toNat + 2 ^ s * (c.toNat % 128) + 2 ^ (s + 7) * ulebValue bs =
          sum.toNat + (2 ^ s * (c.toNat % 128) + 2 ^ s * (128 * ulebValue bs)) := by
        rw [hpow]
        ring
      rw [if_neg hlast, ih room (s + 7) _ hcons (by omega) (by omega) (by omega) (by omega), hstep, hval]

theorem rUleb128_eq (bs rest : List Ut8) (h : IsLeb bs) (hlen : bs.length ≤ 5)
    (hfit : ulebValue bs < 4294967296) :
    rUleb128 (bs ++ rest) = some (BitVec.ofNat 64 (ulebValue bs), rest) := by
  cases bs with
  | nil => exact absurd rfl h.ne_nil
  | cons c bs =>
    rw [List.cons_append, rUleb128]
    by_cases hc : c = 0
    · rw [h.eq_singleton (by simp [hc]), hc]
      simp [ulebValue]
    · have hloop := rUleb128Loop_eq (c :: bs) rest 65535 0 0 h (by omega) (by omega) (by decide)
        (by simpa using hfit)
      rw [if_pos hc, ← List.cons_append, hloop]
      simp

theorem sleb_step (sum : Ut64) (c : Ut8) (s : Nat) (hsum : sum.toNat < 2 ^ s) :
    sum ||| ((c &&& 0x7f).setWidth 64) <<< s =
        sum + BitVec.ofInt 64 (((c.toNat % 128 : Nat) : Int) * 2 ^ s) ∧
      (sum ||| ((c &&& 0x7f).setWidth 64) <<< s).toNat < 2 ^ (s + 7) := by
  have hor := or_shiftLeft sum ((c &&& 0x7f).setWidth 64) s hsum
  constructor
  · rw [hor, low_bits_shifted]
  · have hc : c.toNat % 128 + 1 ≤ 128 := by omega
    rw [hor, BitVec.toNat_add, BitVec.toNat_shiftLeft, low_bits_wide c 64 (by omega), Nat.shiftLeft_eq]
    calc (sum.toNat + c.toNat % 128 * 2 ^ s % 2 ^ 64) % 2 ^ 64
        ≤ sum.toNat + c.toNat % 128 * 2 ^ s % 2 ^ 64 := Nat.mod_le _ _
      _ ≤ sum.toNat + c.toNat % 128 * 2 ^ s := Nat.add_le_add_left (Nat.mod_le _ _) _
      _ < 2 ^ s + c.toNat % 128 * 2 ^ s := Nat.add_lt_add_right hsum _
      _ = (c.toNat % 128 + 1) * 2 ^ s := by ring
      _ ≤ 128 * 2 ^ s := Nat.mul_le_mul_right _ hc
      _ = 2 ^ (s + 7) := by ring

theorem extendSign_eq (s : Nat) (sum : Ut64) (c : Ut8) (hsum : sum.toNat < 2 ^ s) :
    extendSign s sum c =
      sum + if c.toNat % 128 < 64 then 0 else BitVec.ofInt 64 (-(2 ^ s)) := by
  simp only [extendSign, sign_bit_iff]
  have hneg : -(1#64 <<< s) = (BitVec.ofInt 64 (-1)) <<< s := by
    have hone : BitVec.ofInt 64 (-1) = -1#64 := by rfl
    rw [hone, BitVec.shiftLeft_eq_mul_twoPow, BitVec.shiftLeft_eq_mul_twoPow (-1#64), BitVec.neg_mul]
  have hpow : (BitVec.ofInt 64 (-1)) <<< s = BitVec.ofInt 64 (-(2 ^ s)) := by
    rw [← hneg, show (1#64) = BitVec.ofNat 64 1 by rfl, shiftLeft_eq_ofInt, BitVec.ofInt_neg]
    simp
  split_ifs with h hsign hsign
  · exact absurd hsign h.2
  · rw [hneg, or_shiftLeft sum _ s hsum, hpow]
  · simp
  · have hs : 64 ≤ s := by
      by_contra hlt
      exact h ⟨by omega, hsign⟩
    rw [← hpow, BitVec.shiftLeft_eq_zero hs, BitVec.add_zero]

/-- Ten bytes are read as the value they encode, if the last one is not zero. -/
theorem rLeb128Loop_eq (bs rest : List Ut8) (s : Nat) (sum : Ut64) (c : Ut8) (h : IsLeb bs)
    (hlast : bs.getLast? ≠ some 0) (hs : s + 7 * bs.length ≤ 70) (hsum : sum.toNat < 2 ^ s) :
    (rLeb128Loop s sum c (bs ++ rest)).map (fun (s, sum, c, data) => (extendSign s sum c, data)) =
      some (sum + BitVec.ofInt 64 (slebValue bs * 2 ^ s), rest) := by
  induction bs generalizing s sum c with
  | nil => exact absurd rfl h.ne_nil
  | cons b bs ih =>
    simp only [List.length_cons] at hs
    obtain ⟨hsum', hlt⟩ := sleb_step sum b s hsum
    cases bs with
    | nil =>
      have hb : b ≠ 0 := by simpa using hlast
      have hlow : b.toNat < 128 := h
      have hval : BitVec.ofInt 64 (slebValue [b] * 2 ^ s) =
          BitVec.ofInt 64 (((b.toNat % 128 : Nat) : Int) * 2 ^ s) +
            if b.toNat % 128 < 64 then 0 else BitVec.ofInt 64 (-(2 ^ (s + 7))) := by
        rw [slebValue]
        split_ifs with hpos
        · simp
        · rw [← BitVec.ofInt_add]
          congr 1
          push_cast
          ring
      rw [List.singleton_append, rLeb128Loop, if_neg hb, if_neg (by omega)]
      simp only [last_byte_iff]
      rw [if_pos hlow, Option.map_some, extendSign_eq _ _ _ hlt, hsum', hval, BitVec.add_assoc]
    | cons d bs =>
      have hb : b ≠ 0 := by
        intro hzero
        have hge := h.1
        rw [hzero] at hge
        exact absurd hge (by decide)
      have hval : sum + BitVec.ofInt 64 (slebValue (b :: d :: bs) * 2 ^ s) =
          sum + BitVec.ofInt 64 (((b.toNat % 128 : Nat) : Int) * 2 ^ s) +
            BitVec.ofInt 64 (slebValue (d :: bs) * 2 ^ (s + 7)) := by
        rw [slebValue, BitVec.add_assoc, ← BitVec.ofInt_add]
        congr 2
        push_cast
        ring
      rw [List.cons_append, rLeb128Loop, if_neg hb, if_neg (by omega)]
      simp only [last_byte_iff]
      rw [if_neg (by have hge := h.1; omega),
        ih (s + 7) _ b h.2 (by simpa using hlast) (by omega) hlt, hsum', hval]

theorem rLeb128_eq (bs rest : List Ut8) (h : IsLeb bs) (hlast : bs.getLast? ≠ some 0)
    (hlen : bs.length ≤ 10) :
    rLeb128 (bs ++ rest) = some (BitVec.ofInt 64 (slebValue bs), rest) := by
  rw [rLeb128, rLeb128Loop_eq bs rest 0 0 0 h hlast (by omega) (by decide)]
  simp

end Radare
