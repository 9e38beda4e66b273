import Mathlib.Data.BitVec

namespace Radare

abbrev Ut8 := BitVec 8

abbrev Ut32 := BitVec 32

abbrev Ut64 := BitVec 64

def ut64Max : Ut64 := BitVec.allOnes 64

/-- Conversion of an integer to a 32-bit two's complement `int`. -/
def wrapInt (x : Int) : Int := (x + 2147483648) % 4294967296 - 2147483648

/-- `R_ABS` of an `int`. -/
def rAbs (x : Int) : Int := if x < 0 then wrapInt (-x) else x

theorem wrapInt_of_range {x : Int} (hl : -2147483648 ≤ x) (hu : x < 2147483648) :
    wrapInt x = x := by
  unfold wrapInt
  omega

/-- A length that fits survives the way through 64 bits. -/
theorem wrapInt_sub {a b : Ut64} {n : Nat} (hb : b.toNat ≤ a.toNat) (hn : a.toNat - b.toNat = n)
    (hlt : n < 2147483648) : wrapInt (a - b).toNat = n := by
  rw [BitVec.toNat_sub_of_le (by rw [BitVec.le_def]; exact hb), hn, wrapInt_of_range (by omega) (by omega)]

theorem wrapInt_range (x : Int) : -2147483648 ≤ wrapInt x ∧ wrapInt x < 2147483648 := by
  unfold wrapInt
  omega

theorem toNat_ut64Max : ut64Max.toNat = 18446744073709551615 := rfl

theorem eq_ut64Max_iff (x : Ut64) : x = ut64Max ↔ x.toNat = 18446744073709551615 := by
  rw [← toNat_ut64Max]
  exact BitVec.toNat_inj.symm

/-- An offset that stays below the top of the address space does not wrap. -/
theorem toNat_add_ofNat {a : Ut64} {i : Nat} (h : a.toNat + i < 18446744073709551616) :
    (a + BitVec.ofNat 64 i).toNat = a.toNat + i := by
  rw [BitVec.toNat_add, BitVec.toNat_ofNat]
  omega

end Radare
