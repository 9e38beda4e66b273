import Radare.Reg.RegFile

namespace Radare.Reg

open Framework

/-- `r_reg_get_pack`; the bytes of the lane are copied to an integer of a little-endian host, which has eight. -/
def rRegGetPack (reg : RReg) (item : RRegItem) (packidx packbits : Int) : Option Ut64 :=
  let packbits := if packbits < 1 then item.packedSize else packbits
  let packbytes := packbits.tdiv 8
  if packbits.tmod 8 ≠ 0 then some 0
  else
    let arena := (reg.regset item.type).cur
    let off := bits2bytes item.offset + wrapInt (packidx * packbytes)
    if 0 ≤ arena.size - off - 1 then
      if 0 ≤ packbytes ∧ packbytes ≤ 8 then (loadBytes arena.bytes off packbytes.toNat).map (readBle false) else none
    else some 0

/-- `r_reg_set_pack`; `r_mem_copybits` takes the number of bytes for one of bits. -/
def rRegSetPack (reg : RReg) (item : RRegItem) (packidx packbits : Int) (val : Ut64) : Option (RReg × Bool) :=
  let packbits := if packbits < 1 then item.packedSize else packbits
  let packbytes := packbits.tdiv 8
  if item.size < wrapInt (packidx * packbits) then some (reg, false)
  else if packbits.tmod 8 ≠ 0 then some (reg, false)
  else
    let arena := (reg.regset item.type).cur
    if 0 ≤ arena.size - bits2bytes item.offset - bits2bytes packbytes then
      if 0 ≤ packbytes ∧ packbytes ≤ 64 then do
        let bytes ← rMemCopybits arena.bytes (bits2bytes item.offset) (leBytes 8 val.toNat) packbytes.toNat
        some (reg.setArena item.type ⟨bytes⟩, true)
      else none
    else some (reg, false)

section Bits

theorem leNat_testBit (bs : List Ut8) (k : Nat) : (leNat bs).testBit k = (bs[k / 8]?.getD 0).getLsbD (k % 8) := by
  induction bs generalizing k with
  | nil => simp [leNat]
  | cons b bs ih =>
    have hval : leNat (b :: bs) = 2 ^ 8 * leNat bs + b.toNat := Nat.add_comm _ _
    rw [hval, Nat.testBit_two_pow_mul_add _ b.isLt]
    by_cases hk : k < 8
    · rw [if_pos hk, Nat.div_eq_of_lt hk, Nat.mod_eq_of_lt hk, BitVec.testBit_toNat]
      rfl
    · obtain ⟨j, rfl⟩ := Nat.exists_eq_add_of_le' (not_lt.mp hk)
      rw [if_neg hk, Nat.add_sub_cancel, ih, Nat.add_div_right j (by decide), Nat.add_mod_right]
      rfl

/-- A byte of which the upper `t` bits are stored. -/
def packByte (t : Nat) (x s : Ut8) : Ut8 := x &&& ~~~((255 : Ut8) <<< (8 - t)) ||| s &&& ((255 : Ut8) <<< (8 - t))

theorem packByte_getLsbD {t k : Nat} (ht : t = 1 ∨ t = 2 ∨ t = 4 ∨ t = 8) (hk : k < 8) (x s : Ut8) :
    (packByte t x s).getLsbD k = if 8 - t ≤ k then s.getLsbD k else x.getLsbD k := by
  have hmask : ((255 : Ut8) <<< (8 - t)).getLsbD k = decide (8 - t ≤ k) := by
    rcases ht with rfl | rfl | rfl | rfl <;> interval_cases k <;> decide
  rw [packByte, BitVec.getLsbD_or, BitVec.getLsbD_and, BitVec.getLsbD_and, BitVec.getLsbD_not, hmask]
  by_cases h : 8 - t ≤ k
  · simp [h]
  · simp [h, hk]

end Bits

/-- The number in lane `j` of `t` bytes, from the byte `q` on. -/
def lane (bytes : List Ut8) (q t j : Nat) : Nat := leNat (window bytes (q + j * t) t)

section Lanes

variable {bytes : List Ut8} {q t : Nat} (ht : t = 1 ∨ t = 2 ∨ t = 4 ∨ t = 8) (hq : q < bytes.length)

include ht hq

/-- The copy of `t` bits is one of the upper bits of a byte. -/
theorem rMemCopybits_pack (v : Nat) : rMemCopybits bytes q (leBytes 8 v) t =
    some (overwrite bytes q [packByte t bytes[q] (BitVec.ofNat 8 v)]) := by
  have hload : loadBytes bytes q 1 = some [bytes[q]] := by rw [loadBytes_nat (by omega), window_one hq]
  have hstore : ∀ b, storeBytes bytes q [b] = some (overwrite bytes q [b]) := fun b => storeBytes_nat (by simp; omega)
  have hempty : storeBytes bytes q [] = some bytes := by
    rw [storeBytes_nat (by simp; omega), overwrite]
    simp
  have hbyte : packByte 8 bytes[q] (BitVec.ofNat 8 v) = BitVec.ofNat 8 v := by
    apply BitVec.eq_of_getLsbD_eq
    intro k hk
    rw [packByte_getLsbD (by decide) hk, if_pos (Nat.sub_self 8 ▸ Nat.zero_le k)]
  rcases Nat.lt_or_ge t 8 with hlt | hge
  · have hdiv : t / 8 = 0 := Nat.div_eq_of_lt hlt
    have hmod : t % 8 = t := Nat.mod_eq_of_lt hlt
    have hpos : t ≠ 0 := by omega
    simp only [rMemCopybits, hdiv, hmod, List.take_zero, hempty, Option.bind_eq_bind, Option.bind_some, hpos, if_false,
      Int.natCast_zero, Int.add_zero, hload]
    exact hstore _
  · obtain rfl : t = 8 := by omega
    have htake : (leBytes 8 v).take (8 / 8) = [BitVec.ofNat 8 v] := rfl
    rw [hbyte, rMemCopybits, htake, hstore]
    rfl

/-- What the lanes hold after the store: of the first one the upper `t` bits of its first byte are new. -/
theorem lane_pack (s : Ut8) (k : Nat) :
    (lane (overwrite bytes q [packByte t bytes[q] s]) q t 0).testBit k =
      if 8 - t ≤ k ∧ k < 8 then s.getLsbD k else (lane bytes q t 0).testBit k := by
  have hlen : q + [packByte t bytes[q] s].length ≤ bytes.length := by simp; omega
  rw [lane, lane, leNat_testBit, leNat_testBit, getElem?_window, getElem?_window, getElem?_overwrite hlen, Nat.zero_mul,
    Nat.add_zero, List.length_singleton]
  by_cases hk : k < 8
  · have hpos : 0 < t := by omega
    rw [Nat.div_eq_of_lt hk, Nat.mod_eq_of_lt hk, if_pos hpos, if_pos hpos, if_pos (by omega), Nat.add_zero, Nat.sub_self,
      List.getElem?_cons_zero, Option.getD_some, packByte_getLsbD ht hk, List.getElem?_eq_getElem hq, Option.getD_some]
    by_cases hle : 8 - t ≤ k
    · rw [if_pos hle, if_pos ⟨hle, hk⟩]
    · rw [if_neg hle, if_neg fun h => hle h.1]
  · have hbehind : ¬(q ≤ q + k / 8 ∧ q + k / 8 < q + 1) := by omega
    have hkept : ¬(8 - t ≤ k ∧ k < 8) := fun h => hk h.2
    rw [if_neg hbehind, if_neg hkept]

theorem lane_pack_other (b : Ut8) {j : Nat} (hj : j ≠ 0) : lane (overwrite bytes q [b]) q t j = lane bytes q t j := by
  have hstep : 1 ≤ j * t := Nat.mul_pos (Nat.pos_of_ne_zero hj) (by omega)
  rw [lane, lane, window_overwrite_apart (by simp; omega) (Or.inr (by simp; omega))]

end Lanes

theorem lane_lt {bytes : List Ut8} {q t j : Nat} (ht : t ≤ 8) : lane bytes q t j < 2 ^ (8 * t) ∧ lane bytes q t j < 2 ^ 64 := by
  have hlt := leNat_lt (window bytes (q + j * t) t)
  have hlen : (window bytes (q + j * t) t).length ≤ t := List.length_take_le _ _
  have hpow : (256 : Nat) ^ (window bytes (q + j * t) t).length ≤ 2 ^ (8 * t) := by
    rw [show (256 : Nat) = 2 ^ 8 from rfl, ← pow_mul]
    exact Nat.pow_le_pow_right (by decide) (by omega)
  exact ⟨hlt.trans_le hpow, hlt.trans_le (hpow.trans (Nat.pow_le_pow_right (by decide) (by omega)))⟩

/-- A store of `v` to lane `i` that is right: the bits that are written aside, the lane holds `v`, and those bits, which
are in the first lane, are those of `v` unless that is the one. -/
def PackFits (bytes : List Ut8) (q t i v : Nat) : Prop :=
  if i = 0 then ∀ k < 8 * t, ¬(8 - t ≤ k ∧ k < 8) → (lane bytes q t 0).testBit k = v.testBit k
  else lane bytes q t i = v % 2 ^ (8 * t) ∧ ∀ k < 8, 8 - t ≤ k → (lane bytes q t 0).testBit k = v.testBit k

/-- Two numbers of `n` bits are the same if their bits are. -/
theorem eq_mod_iff_testBit {a v n : Nat} (ha : a < 2 ^ n) : a = v % 2 ^ n ↔ ∀ k < n, a.testBit k = v.testBit k := by
  constructor
  · rintro rfl k hk
    rw [Nat.testBit_mod_two_pow, decide_eq_true hk, Bool.true_and]
  · intro h
    apply Nat.eq_of_testBit_eq
    intro k
    rw [Nat.testBit_mod_two_pow]
    by_cases hk : k < n
    · rw [h k hk, decide_eq_true hk, Bool.true_and]
    · rw [decide_eq_false hk, Bool.false_and]
      exact Nat.testBit_lt_two_pow (ha.trans_le (Nat.pow_le_pow_right (by decide) (not_lt.mp hk)))

/-- The lanes `ok` after a store to lane `i`. -/
theorem packFits_iff {bytes : List Ut8} {q t i : Nat} (ok : Nat → Prop) (ht : t = 1 ∨ t = 2 ∨ t = 4 ∨ t = 8)
    (hq : q < bytes.length) (hok : ok 0) (v : Nat) :
    (lane (overwrite bytes q [packByte t bytes[q] (BitVec.ofNat 8 v)]) q t i = v % 2 ^ (8 * t) ∧
      ∀ j, ok j → j ≠ i → lane (overwrite bytes q [packByte t bytes[q] (BitVec.ofNat 8 v)]) q t j = lane bytes q t j) ↔
      PackFits bytes q t i v := by
  have hbit : ∀ k < 8, (BitVec.ofNat 8 v).getLsbD k = v.testBit k := by
    intro k hk
    rw [BitVec.getLsbD_ofNat, decide_eq_true hk, Bool.true_and]
  have hfirst := lane_pack ht hq (BitVec.ofNat 8 v)
  have hother : ∀ {j}, j ≠ 0 → lane (overwrite bytes q [packByte t bytes[q] (BitVec.ofNat 8 v)]) q t j = lane bytes q t j :=
    fun hj => lane_pack_other ht hq _ hj
  rw [PackFits]
  by_cases hzero : i = 0
  · subst hzero
    rw [if_pos rfl, eq_mod_iff_testBit (lane_lt (by omega)).1, and_iff_left fun j _ hj => hother hj]
    refine forall₂_congr fun k _ => ?_
    rw [hfirst]
    by_cases hk : 8 - t ≤ k ∧ k < 8
    · rw [if_pos hk]
      exact iff_of_true (hbit k hk.2) fun hkept => absurd hk hkept
    · rw [if_neg hk]
      exact ⟨fun h _ => h, fun h => h hk⟩
  · rw [if_neg hzero, hother hzero]
    refine and_congr_right fun _ => ⟨fun h k hk hle => ?_, fun h j _ _ => ?_⟩
    · have hsame := congrArg (Nat.testBit · k) (h 0 hok (Ne.symm hzero))
      rw [hfirst, if_pos ⟨hle, hk⟩, hbit k hk] at hsame
      exact hsame.symm
    · by_cases hj : j = 0
      · subst hj
        apply Nat.eq_of_testBit_eq
        intro k
        rw [hfirst]
        split
        · rename_i hk
          rw [hbit k hk.2, h k hk.2 hk.1]
        · rfl
      · exact hother hj

theorem ofNat_inj_lt {a b : Nat} (ha : a < 2 ^ 64) (hb : b < 2 ^ 64) : BitVec.ofNat 64 a = BitVec.ofNat 64 b ↔ a = b := by
  rw [← BitVec.toNat_inj, ofNat_toNat_lt ha, ofNat_toNat_lt hb]

theorem wrapInt_natCast_le (n : Nat) : wrapInt n ≤ n := by
  unfold wrapInt
  omega

section Calls

variable (reg : RReg) {item : RRegItem} {t : Nat} (ht : t = 1 ∨ t = 2 ∨ t = 4 ∨ t = 8)

/-- The byte at which a register in its arena begins, and what there is from it on. -/
theorem Inside.start {item : RRegItem} {n : Nat} (h : Inside item n) : ∃ q : Nat, bits2bytes item.offset = q ∧
    ∀ m : Nat, ((8 * m : Nat) : Int) ≤ item.size → q + m ≤ n := by
  have hlow := h.low
  have hhigh := h.high
  obtain ⟨o, ho⟩ := Int.eq_ofNat_of_zero_le hlow
  refine ⟨(o + 7) / 8, by rw [ho]; exact bits2bytes_nat o, fun m hm => ?_⟩
  omega

include ht

theorem rRegGetPack_lane {q : Nat} (hq : bits2bytes item.offset = q) (hint : item.size < 2147483648) {j : Nat}
    (hj : ((8 * ((j + 1) * t) : Nat) : Int) ≤ item.size)
    (hfit : q + (j + 1) * t ≤ (reg.regset item.type).cur.bytes.length) :
    rRegGetPack reg item j (8 * t : Nat) = some (BitVec.ofNat 64 (lane (reg.regset item.type).cur.bytes q t j)) := by
  have hwidth : ¬((8 * t : Nat) : Int) < 1 := by omega
  have hdiv : ((8 * t : Nat) : Int).tdiv 8 = t := by rw [tdiv_eight, Nat.mul_div_cancel_left t (by decide)]
  have hmod : ((8 * t : Nat) : Int).tmod 8 = 0 := congrArg Nat.cast (Nat.mul_mod_right 8 t)
  have hstep : (j + 1) * t = j * t + t := Nat.succ_mul j t
  have hwrap : wrapInt (j * t : Int) = ((j * t : Nat) : Int) := by
    rw [← Nat.cast_mul]
    exact wrapInt_of_range (by omega) (by omega)
  have hsize : (reg.regset item.type).cur.size = (reg.regset item.type).cur.bytes.length := rfl
  have hload : loadBytes (reg.regset item.type).cur.bytes ((q : Int) + ((j * t : Nat) : Int)) t =
      some (window (reg.regset item.type).cur.bytes (q + j * t) t) := by
    rw [← Nat.cast_add]
    exact loadBytes_nat (by omega)
  rw [rRegGetPack]
  simp only [hwidth, if_false, hdiv, hmod, ne_eq, not_true_eq_false, hq, hwrap]
  rw [if_pos (by omega), if_pos (by omega), Int.toNat_natCast, hload]
  rfl

theorem rRegSetPack_eq {q : Nat} (hq : bits2bytes item.offset = q) (i : Nat) (v : Ut64) :
    rRegSetPack reg item i (8 * t : Nat) v =
      if item.size < wrapInt (i * (8 * t : Nat)) then some (reg, false)
      else if h : q < (reg.regset item.type).cur.bytes.length then
        some (reg.setArena item.type
          ⟨overwrite (reg.regset item.type).cur.bytes q
            [packByte t (reg.regset item.type).cur.bytes[q] (BitVec.ofNat 8 v.toNat)]⟩, true)
      else some (reg, false) := by
  have hwidth : ¬((8 * t : Nat) : Int) < 1 := by omega
  have hdiv : ((8 * t : Nat) : Int).tdiv 8 = t := by rw [tdiv_eight, Nat.mul_div_cancel_left t (by decide)]
  have hmod : ((8 * t : Nat) : Int).tmod 8 = 0 := congrArg Nat.cast (Nat.mul_mod_right 8 t)
  have hone : bits2bytes (t : Int) = 1 := by
    rcases ht with rfl | rfl | rfl | rfl <;> decide
  have hsize : (reg.regset item.type).cur.size = (reg.regset item.type).cur.bytes.length := rfl
  rw [rRegSetPack]
  simp only [hwidth, if_false, hdiv, hmod, ne_eq, not_true_eq_false, hq, hone]
  split
  · rfl
  · split
    · rename_i hfit
      have hlt : q < (reg.regset item.type).cur.bytes.length := by omega
      rw [if_pos (by omega), dif_pos hlt, Int.toNat_natCast, rMemCopybits_pack ht hlt]
      rfl
    · rename_i hfit
      rw [dif_neg (by omega)]

end Calls

/-- Lanes: after a store to a lane of the register, this lane and the others are as they should be only where `PackFits`
holds; and a lane outside is refused only where its first bit is. -/
theorem setPack_iff {reg : RReg} {item : RRegItem} (hin : Inside item (reg.regset item.type).cur.bytes.length)
    (hint : item.size < 2147483648) {b : Nat} (hb : b = 8 ∨ b = 16 ∨ b = 32 ∨ b = 64) (i : Nat) (v : Ut64) :
    ((((i + 1) * b : Nat) : Int) ≤ item.size → ∃ reg', rRegSetPack reg item i b v = some (reg', true) ∧
      ((rRegGetPack reg' item i b = some (BitVec.ofNat 64 (v.toNat % 2 ^ b)) ∧
          ∀ j : Nat, (((j + 1) * b : Nat) : Int) ≤ item.size → j ≠ i → rRegGetPack reg' item j b = rRegGetPack reg item j b) ↔
        PackFits (reg.regset item.type).cur.bytes (bits2bytes item.offset).toNat (b / 8) i v.toNat)) ∧
    (item.size < (((i + 1) * b : Nat) : Int) → ∃ reg' done, rRegSetPack reg item i b v = some (reg', done) ∧
      ((done = false ∧ reg' = reg) ↔
        item.size < wrapInt (i * b) ∨ (reg.regset item.type).cur.size ≤ bits2bytes item.offset)) := by
  obtain ⟨t, ht, rfl⟩ : ∃ t, (t = 1 ∨ t = 2 ∨ t = 4 ∨ t = 8) ∧ b = 8 * t := ⟨b / 8, by omega, by omega⟩
  obtain ⟨q, hq, hroom⟩ := hin.start
  have hset := rRegSetPack_eq reg ht hq i v
  have hsize : (reg.regset item.type).cur.size = (reg.regset item.type).cur.bytes.length := rfl
  rw [hset, hq, Int.toNat_natCast, Nat.mul_div_cancel_left t (by decide)]
  have hwidth : ∀ j : Nat, (j + 1) * (8 * t) = 8 * ((j + 1) * t) := fun j => Nat.mul_left_comm (j + 1) 8 t
  have hwrap : wrapInt (i * (8 * t : Nat)) ≤ ((i * (8 * t) : Nat) : Int) := by
    rw [← Nat.cast_mul]
    exact wrapInt_natCast_le _
  constructor
  · intro hi
    have hlt : q < (reg.regset item.type).cur.bytes.length := by
      have hfit := hroom ((i + 1) * t) (by rw [← hwidth]; exact hi)
      have hpos : 0 < (i + 1) * t := Nat.mul_pos (Nat.succ_pos i) (by omega)
      omega
    have hle : (i + 1) * (8 * t) = i * (8 * t) + 8 * t := Nat.succ_mul i (8 * t)
    rw [if_neg (by omega), dif_pos hlt]
    refine ⟨_, rfl, ?_⟩
    rw [← packFits_iff (fun j => (((j + 1) * (8 * t) : Nat) : Int) ≤ item.size) ht hlt]
    · have hcur := setArena_cur reg item.type item.type ⟨overwrite (reg.regset item.type).cur.bytes q
        [packByte t (reg.regset item.type).cur.bytes[q] (BitVec.ofNat 8 v.toNat)]⟩
      rw [if_pos rfl] at hcur
      generalize reg.setArena item.type _ = reg' at hcur
      have hlen : (reg'.regset item.type).cur.bytes.length = (reg.regset item.type).cur.bytes.length := by
        rw [hcur]
        exact length_overwrite (by simp; omega)
      have hget : ∀ j : Nat, (((j + 1) * (8 * t) : Nat) : Int) ≤ item.size →
          rRegGetPack reg item j (8 * t : Nat) = some (BitVec.ofNat 64 (lane (reg.regset item.type).cur.bytes q t j)) := by
        intro j hj
        rw [hwidth] at hj
        exact rRegGetPack_lane _ ht hq hint hj (hroom _ hj)
      have hget' : ∀ j : Nat, (((j + 1) * (8 * t) : Nat) : Int) ≤ item.size →
          rRegGetPack reg' item j (8 * t : Nat) = some (BitVec.ofNat 64 (lane (reg'.regset item.type).cur.bytes q t j)) := by
        intro j hj
        rw [hwidth] at hj
        exact rRegGetPack_lane _ ht hq hint hj (hlen ▸ hroom _ hj)
      rw [hcur] at hget'
      have hsmall : v.toNat % 2 ^ (8 * t) < 2 ^ 64 := (Nat.mod_le _ _).trans_lt v.isLt
      refine and_congr ?_ (forall_congr' fun j => forall_congr' fun hj => forall_congr' fun _ => ?_)
      · rw [hget' i hi, Option.some.injEq, ofNat_inj_lt (lane_lt (by omega)).2 hsmall]
      · rw [hget' j hj, hget j hj, Option.some.injEq, ofNat_inj_lt (lane_lt (by omega)).2 (lane_lt (by omega)).2]
    · rw [Nat.zero_add, Nat.one_mul]
      omega
  · intro hi
    by_cases hrej : item.size < wrapInt (i * (8 * t : Nat))
    · rw [if_pos hrej]
      exact ⟨reg, false, rfl, iff_of_true ⟨rfl, rfl⟩ (Or.inl hrej)⟩
    rw [if_neg hrej]
    by_cases hlt : q < (reg.regset item.type).cur.bytes.length
    · rw [dif_pos hlt]
      refine ⟨_, true, rfl, iff_of_false (fun h => absurd h.1 (by decide)) ?_⟩
      rw [hsize]
      exact not_or.mpr ⟨hrej, by omega⟩
    · rw [dif_neg hlt]
      exact ⟨reg, false, rfl, iff_of_true ⟨rfl, rfl⟩ (Or.inr (by rw [hsize]; omega))⟩

/-- A register of 128 bits in an arena of as many zeros. -/
def xmmItem : RRegItem := { name := "xmm0".toList, type := .xmm, size := 128, offset := 0, packedSize := 0, flags := none }

def xmmReg : RReg := rRegNew.setArena .xmm ⟨List.replicate 16 0⟩

theorem xmmItem_inside : Inside xmmItem (xmmReg.regset xmmItem.type).cur.bytes.length := ⟨by decide, by decide⟩

/-- A byte in a lane of 64 bits, and a lane far behind the register. -/
theorem setPack_iff_byte :
    (∃ reg', rRegSetPack xmmReg xmmItem (0 : Nat) (64 : Nat) 5 = some (reg', true) ∧
      rRegGetPack reg' xmmItem (0 : Nat) (64 : Nat) = some (BitVec.ofNat 64 (5 % 2 ^ 64)) ∧
      ∀ j : Nat, (((j + 1) * 64 : Nat) : Int) ≤ xmmItem.size → j ≠ 0 →
        rRegGetPack reg' xmmItem j (64 : Nat) = rRegGetPack xmmReg xmmItem j (64 : Nat)) ∧
    ∃ reg' done, rRegSetPack xmmReg xmmItem (5 : Nat) (32 : Nat) 1 = some (reg', done) ∧ done = false ∧ reg' = xmmReg := by
  have hbyte := (setPack_iff xmmItem_inside (by decide) (Or.inr (Or.inr (Or.inr rfl))) 0 5).1 (by decide)
  have hfar := (setPack_iff xmmItem_inside (by decide) (Or.inr (Or.inr (Or.inl rfl))) 5 1).2 (by decide)
  obtain ⟨reg', hset, hiff⟩ := hbyte
  obtain ⟨reg'', done, hset', hiff'⟩ := hfar
  refine ⟨⟨reg', hset, hiff.mpr ?_⟩, reg'', done, hset', hiff'.mpr (Or.inl (by decide))⟩
  rw [PackFits, if_pos rfl]
  decide

/-- Lane 0 of 32 bits stays zero when one is stored there, and lane 4 of 4 is not refused. -/
theorem setPack_loses_low :
    (rRegSetPack xmmReg xmmItem 0 32 1).map (fun r => (r.2, rRegGetPack r.1 xmmItem 0 32)) = some (true, some 0) ∧
      (rRegSetPack xmmReg xmmItem 4 32 1).map Prod.snd = some true := by
  decide +kernel

end Radare.Reg
