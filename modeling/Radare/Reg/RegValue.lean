import Radare.Framework.Windows
import Radare.Reg.Reg

namespace Radare.Reg

open Framework

/-- The sizes that are read and written as they are; whole bytes begin at a byte. -/
structure Plain (item : RRegItem) : Prop where
  size : item.size = 1 ∨ item.size = 8 ∨ item.size = 16 ∨ item.size = 32 ∨ item.size = 64
  aligned : 8 ≤ item.size → item.offset % 8 = 0

/-- The register lies in an arena of `n` bytes. -/
structure Inside (item : RRegItem) (n : Nat) : Prop where
  low : 0 ≤ item.offset
  high : item.offset + item.size ≤ 8 * n

def putBit (b : Ut8) (k : Nat) (v : Bool) : Ut8 :=
  let mask := (1 : Ut8) <<< k
  if v then b &&& (255 ^^^ mask) ||| mask else b &&& (255 ^^^ mask)

/-- The value of a register whose bits are those from `off` on. -/
def regVal (bigEndian : Bool) (bytes : List Ut8) (off size : Nat) : Nat :=
  if size = 1 then leNat (window bytes (off / 8) 1) / 2 ^ (off % 8) % 2
  else leNat (orient bigEndian (window bytes (off / 8) (size / 8)))

/-- The bytes after such a register was set. -/
def regPut (bigEndian : Bool) (bytes : List Ut8) (off size : Nat) (v : Ut64) : List Ut8 :=
  if size = 1 then overwrite bytes (off / 8) ((window bytes (off / 8) 1).map (fun b => putBit b (off % 8) (v ≠ 0)))
  else overwrite bytes (off / 8) (orient bigEndian (leBytes (size / 8) v.toNat))

section Bits

theorem bit_toNat (b : Ut8) (j : Nat) : b.toNat / 2 ^ j % 2 = (b.getLsbD j).toNat := by
  rw [BitVec.getLsbD, Nat.testBit_eq_decide_div_mod_eq]
  rcases Nat.mod_two_eq_zero_or_one (b.toNat / 2 ^ j) with h | h <;> simp [h]

theorem mask_getLsbD {k j : Nat} (hj : j < 8) : ((1 : Ut8) <<< k).getLsbD j = decide (j = k) := by
  rw [BitVec.getLsbD_shiftLeft]
  by_cases h : j = k
  · simp [h]; omega
  · by_cases hlt : j < k
    · simp [hlt, h]
    · have : j - k ≠ 0 := by omega
      simp [hlt, h, this]

theorem putBit_getLsbD (b : Ut8) (k : Nat) (v : Bool) {j : Nat} (hj : j < 8) :
    (putBit b k v).getLsbD j = if j = k then v else b.getLsbD j := by
  have hones : (255 : Ut8).getLsbD j = true := by
    rw [show (255 : Ut8) = BitVec.allOnes 8 from rfl, BitVec.getLsbD_allOnes]
    simpa using hj
  cases v with
  | true =>
    simp only [putBit, if_true, BitVec.getLsbD_or, BitVec.getLsbD_and, BitVec.getLsbD_xor, hones, mask_getLsbD hj]
    by_cases h : j = k <;> simp [h]
  | false =>
    simp only [putBit, Bool.false_eq_true, if_false, BitVec.getLsbD_and, BitVec.getLsbD_xor, hones, mask_getLsbD hj]
    by_cases h : j = k <;> simp [h]

theorem putBit_same (b : Ut8) {k : Nat} (hk : k < 8) (v : Bool) :
    (putBit b k v).toNat / 2 ^ k % 2 = if v then 1 else 0 := by
  rw [bit_toNat, putBit_getLsbD b k v hk, if_pos rfl]
  cases v <;> rfl

theorem putBit_other (b : Ut8) {k j : Nat} (hj : j < 8) (h : j ≠ k) (v : Bool) :
    (putBit b k v).toNat / 2 ^ j % 2 = b.toNat / 2 ^ j % 2 := by
  rw [bit_toNat, bit_toNat, putBit_getLsbD b k v hj, if_neg h]

theorem maskBit_ne_zero : ∀ b : Ut8, ∀ k < 8,
    (if b.toNat &&& ((1 : Ut8) <<< k).toNat ≠ 0 then (1 : Ut64) else 0) = BitVec.ofNat 64 (b.toNat / 2 ^ k % 2) := by
  decide

theorem leNat_singleton (b : Ut8) : leNat [b] = b.toNat := by
  simp [leNat]

theorem window_one {bytes : List Ut8} {i : Nat} (h : i < bytes.length) : window bytes i 1 = [bytes[i]] := by
  rw [window, List.drop_eq_getElem_cons h]
  rfl

end Bits

section Access

variable {item : RRegItem} {bytes : List Ut8} {o : Nat}

theorem loadBytes_nat {n : Nat} (h : o + n ≤ bytes.length) : loadBytes bytes o n = some (window bytes o n) := by
  rw [loadBytes, if_pos (by omega), Int.toNat_natCast]
  rfl

theorem storeBytes_nat {src : List Ut8} (h : o + src.length ≤ bytes.length) :
    storeBytes bytes o src = some (overwrite bytes o src) := by
  rw [storeBytes, if_pos (by omega), Int.toNat_natCast]
  rfl

theorem tdiv_eight (o : Nat) : (o : Int).tdiv 8 = ((o / 8 : Nat) : Int) := rfl

theorem bits2bytes_eight (q : Nat) : bits2bytes ((8 * q : Nat) : Int) = q := by
  have hdiv : ((8 * q : Nat) : Int).tdiv 8 = q := by
    rw [tdiv_eight, Nat.mul_div_cancel_left q (by omega)]
  have hmod : ((8 * q : Nat) : Int).tmod 8 = 0 := by
    show ((8 * q % 8 : Nat) : Int) = 0
    omega
  rw [bits2bytes, hdiv, hmod]
  simp

theorem bitMask_nat (o : Nat) : bitMask o = some ((1 : Ut8) <<< (o % 8)) := by
  have hmod : (o : Int).tmod 8 = ((o % 8 : Nat) : Int) := rfl
  rw [bitMask, hmod, if_pos (by omega), Int.toNat_natCast]

theorem orient_one (bigEndian : Bool) {bs : List Ut8} (h : bs.length = 1) : orient bigEndian bs = bs := by
  obtain ⟨b, rfl⟩ := List.length_eq_one_iff.mp h
  cases bigEndian <;> rfl

/-- Whole bytes are copied as they are. -/
theorem rMemCopybits_bytes {src : List Ut8} {n : Nat} (hsrc : src.length = n) (h : o + n ≤ bytes.length) :
    rMemCopybits bytes o src (8 * n) = some (overwrite bytes o src) := by
  have hstore : storeBytes bytes o src = some (overwrite bytes o src) := storeBytes_nat (by omega)
  rw [rMemCopybits, Nat.mul_div_cancel_left n (by omega), List.take_of_length_le (by omega), hstore]
  simp

end Access

/-- The three shapes of a plain register. -/
theorem Plain.cases {item : RRegItem} (h : Plain item) (hlow : 0 ≤ item.offset) :
    (item.size = 1 ∧ ∃ o : Nat, item.offset = o) ∨
      ∃ n q : Nat, (n = 1 ∨ n = 2 ∨ n = 4 ∨ n = 8) ∧ item.size = ((8 * n : Nat) : Int) ∧
        item.offset = ((8 * q : Nat) : Int) := by
  have hoff : 8 ≤ item.size → ∃ q : Nat, item.offset = ((8 * q : Nat) : Int) := by
    intro hs
    have hal := h.aligned hs
    exact ⟨(item.offset / 8).toNat, by omega⟩
  rcases h.size with hs | hs | hs | hs | hs
  · exact .inl ⟨hs, item.offset.toNat, by omega⟩
  · obtain ⟨q, hq⟩ := hoff (by omega)
    exact .inr ⟨1, q, by omega, hs, hq⟩
  · obtain ⟨q, hq⟩ := hoff (by omega)
    exact .inr ⟨2, q, by omega, hs, hq⟩
  · obtain ⟨q, hq⟩ := hoff (by omega)
    exact .inr ⟨4, q, by omega, hs, hq⟩
  · obtain ⟨q, hq⟩ := hoff (by omega)
    exact .inr ⟨8, q, by omega, hs, hq⟩

/-- A register of `n` whole bytes that are the bytes from `q` on of an arena of `size` bytes. An offset
inside a byte is rounded up. -/
structure Whole (item : RRegItem) (q n size : Nat) : Prop where
  bytes : n = 1 ∨ n = 2 ∨ n = 4 ∨ n = 8
  width : item.size = ((8 * n : Nat) : Int)
  place : bits2bytes item.offset = q
  fits : q + n ≤ size

section Spec

variable {item : RRegItem} {reg : RReg}

theorem rRegGetValue_whole {q n : Nat} (h : Whole item q n (reg.regset item.type).cur.bytes.length)
    (longDouble : List Ut8 → Int → Ut64) :
    rRegGetValue longDouble reg item =
      some (BitVec.ofNat 64 (leNat (orient reg.bigEndian (window (reg.regset item.type).cur.bytes q n)))) := by
  have hfits := h.fits
  have hload := loadBytes_nat hfits
  have hsize : (reg.regset item.type).cur.size = (reg.regset item.type).cur.bytes.length := rfl
  have hlen := length_window hfits
  rw [rRegGetValue, h.place, h.width]
  rcases h.bytes with rfl | rfl | rfl | rfl
  · rw [if_neg (by decide), if_neg (by decide), if_pos (by decide), if_pos (by omega), hload, orient_one _ hlen]
    rfl
  · rw [if_neg (by decide), if_neg (by decide), if_neg (by decide), if_pos (by decide), if_pos (by omega), hload]
    rfl
  · rw [if_neg (by decide), if_neg (by decide), if_neg (by decide), if_neg (by decide), if_pos (by decide),
      if_pos (by omega), hload]
    rfl
  · rw [if_neg (by decide), if_neg (by decide), if_neg (by decide), if_neg (by decide), if_neg (by decide),
      if_pos (by decide), if_pos (by omega), hload]
    rfl

theorem rRegSetValue_whole {q n : Nat} (h : Whole item q n (reg.regset item.type).cur.bytes.length)
    (stack : Nat → Ut8) (v : Ut64) :
    rRegSetValue stack reg item v = some (reg.setArena item.type
      ⟨overwrite (reg.regset item.type).cur.bytes q (orient reg.bigEndian (leBytes n v.toNat))⟩, true) := by
  have hn := h.bytes
  have hfits := h.fits
  have hsize : (reg.regset item.type).cur.size = (reg.regset item.type).cur.bytes.length := rfl
  have hlen : (orient reg.bigEndian (leBytes n v.toNat)).length = n := by
    rw [orient_length, leBytes_length]
  have hcopy := rMemCopybits_bytes (o := q) hlen hfits
  have hsrc : valueBytes stack reg.bigEndian ((8 * n : Nat) : Int) v =
      some (orient reg.bigEndian (leBytes n v.toNat)) := by
    rcases hn with rfl | rfl | rfl | rfl
    · rw [orient_one _ (leBytes_length 1 v.toNat)]
      rfl
    · rfl
    · rfl
    · rfl
  rw [rRegSetValue, h.width, if_neg (by omega), hsrc, h.place, bits2bytes_eight]
  simp only [Int.toNat_natCast, hcopy]
  rw [if_pos (by omega)]
  rfl

theorem rRegGetValue_inside (hp : Plain item) (hin : Inside item (reg.regset item.type).cur.bytes.length)
    (longDouble : List Ut8 → Int → Ut64) :
    rRegGetValue longDouble reg item = some (BitVec.ofNat 64
      (regVal reg.bigEndian (reg.regset item.type).cur.bytes item.offset.toNat item.size.toNat)) := by
  have hhigh := hin.high
  rcases hp.cases hin.low with ⟨hs, o, ho⟩ | ⟨n, q, hn, hs, ho⟩
  · rw [hs, ho] at hhigh
    have hlt : o / 8 < (reg.regset item.type).cur.bytes.length := by omega
    have hload := loadBytes_nat (show o / 8 + 1 ≤ (reg.regset item.type).cur.bytes.length by omega)
    have hbit := maskBit_ne_zero ((reg.regset item.type).cur.bytes[o / 8]) (o % 8) (Nat.mod_lt o (by omega))
    rw [rRegGetValue, if_pos hs, ho, tdiv_eight, hload, bitMask_nat, hs, regVal, window_one hlt]
    simp only [Option.bind_eq_bind, Option.bind_some, Int.toNat_natCast, Int.toNat_one, if_true, window_one hlt, leNat_singleton]
    exact congrArg some hbit
  · rw [hs, ho] at hhigh
    have hwhole : Whole item q n (reg.regset item.type).cur.bytes.length :=
      ⟨hn, hs, by rw [ho, bits2bytes_eight], by omega⟩
    rw [rRegGetValue_whole hwhole, hs, ho, Int.toNat_natCast, Int.toNat_natCast, regVal, if_neg (by omega),
      Nat.mul_div_cancel_left q (by omega), Nat.mul_div_cancel_left n (by omega)]

theorem rRegSetValue_inside (hp : Plain item) (hin : Inside item (reg.regset item.type).cur.bytes.length)
    (stack : Nat → Ut8) (v : Ut64) :
    rRegSetValue stack reg item v = some (reg.setArena item.type
      ⟨regPut reg.bigEndian (reg.regset item.type).cur.bytes item.offset.toNat item.size.toNat v⟩, true) := by
  have hhigh := hin.high
  rcases hp.cases hin.low with ⟨hs, o, ho⟩ | ⟨n, q, hn, hs, ho⟩
  · rw [hs, ho] at hhigh
    have hlt : o / 8 < (reg.regset item.type).cur.bytes.length := by omega
    have hload := loadBytes_nat (show o / 8 + 1 ≤ (reg.regset item.type).cur.bytes.length by omega)
    have hstore : ∀ b, storeBytes (reg.regset item.type).cur.bytes ((o / 8 : Nat) : Int) [b] =
        some (overwrite (reg.regset item.type).cur.bytes (o / 8) [b]) := by
      intro b
      exact storeBytes_nat (by simp; omega)
    rw [rRegSetValue, if_pos hs, ho, tdiv_eight, hload, bitMask_nat, hs, regPut]
    simp only [Option.bind_eq_bind, Option.bind_some, Int.toNat_natCast, Int.toNat_one, if_true, window_one hlt,
      List.map_cons, List.map_nil, hstore, putBit, decide_eq_true_eq]
  · rw [hs, ho] at hhigh
    have hwhole : Whole item q n (reg.regset item.type).cur.bytes.length :=
      ⟨hn, hs, by rw [ho, bits2bytes_eight], by omega⟩
    rw [rRegSetValue_whole hwhole, hs, ho, Int.toNat_natCast, Int.toNat_natCast, regPut, if_neg (by omega),
      Nat.mul_div_cancel_left q (by omega), Nat.mul_div_cancel_left n (by omega)]

end Spec

end Radare.Reg
