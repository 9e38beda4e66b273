import Mathlib.Data.BitVec

namespace Radare.Framework

section Rotations

variable {w : Nat} (x : BitVec w)

/-- A rotation to the right takes the bit that stands `r` places higher. -/
theorem getLsbD_rotateRight_mod (r : Nat) {i : Nat} (hi : i < w) :
    (x.rotateRight r).getLsbD i = x.getLsbD ((i + r) % w) := by
  have hr : r % w < w := Nat.mod_lt r (by omega)
  rw [BitVec.getLsbD_rotateRight, Nat.add_mod, Nat.mod_eq_of_lt hi]
  generalize r % w = q at hr
  by_cases hlow : i < w - q
  · rw [decide_eq_true hlow, cond_true, Nat.mod_eq_of_lt (by omega), Nat.add_comm]
  · rw [decide_eq_false hlow, cond_false, Nat.mod_eq_sub_mod (by omega), Nat.mod_eq_of_lt (by omega), decide_eq_true hi, Bool.true_and]
    congr 1
    omega

theorem rotateRight_congr {a b : Nat} (h : a % w = b % w) : x.rotateRight a = x.rotateRight b := by
  rw [← BitVec.rotateRight_mod_eq_rotateRight, h, BitVec.rotateRight_mod_eq_rotateRight]

theorem rotateRight_rotateRight (a b : Nat) : (x.rotateRight a).rotateRight b = x.rotateRight (a + b) := by
  apply BitVec.eq_of_getLsbD_eq
  intro i hi
  have hmod : (i + b) % w < w := Nat.mod_lt _ (by omega)
  rw [getLsbD_rotateRight_mod _ b hi, getLsbD_rotateRight_mod _ a hmod, getLsbD_rotateRight_mod _ _ hi,
    Nat.mod_add_mod, Nat.add_assoc, Nat.add_comm b a]

theorem rotateRight_of_dvd {r : Nat} (h : w ∣ r) : x.rotateRight r = x := by
  apply BitVec.eq_of_getLsbD_eq
  intro i hi
  obtain ⟨q, rfl⟩ := h
  rw [getLsbD_rotateRight_mod _ _ hi, Nat.add_mul_mod_self_left, Nat.mod_eq_of_lt hi]

/-- To the left is the rest of the way around to the right. -/
theorem rotateLeft_eq_rotateRight (r : Nat) : x.rotateLeft r = x.rotateRight (w - r % w) := by
  apply BitVec.eq_of_getLsbD_eq
  intro i hi
  have hr : r % w < w := Nat.mod_lt r (by omega)
  rw [getLsbD_rotateRight_mod _ _ hi, BitVec.getLsbD_rotateLeft]
  generalize r % w = q at hr
  by_cases hlow : i < q
  · rw [decide_eq_true hlow, cond_true, Nat.mod_eq_of_lt (by omega)]
    congr 1
    omega
  · rw [decide_eq_false hlow, cond_false, Nat.mod_eq_sub_mod (by omega), Nat.mod_eq_of_lt (by omega), decide_eq_true hi, Bool.true_and]
    congr 1
    omega

theorem rotateLeft_rotateRight (r : Nat) : (x.rotateLeft r).rotateRight r = x := by
  rw [rotateLeft_eq_rotateRight, rotateRight_rotateRight]
  by_cases hw : w = 0
  · subst hw
    exact BitVec.of_length_zero.trans BitVec.of_length_zero.symm
  · have hr : r % w < w := Nat.mod_lt r (by omega)
    have hdiv := Nat.mod_add_div r w
    apply rotateRight_of_dvd
    exact ⟨1 + r / w, by rw [Nat.mul_add]; omega⟩

theorem rotateRight_rotateLeft (r : Nat) : (x.rotateRight r).rotateLeft r = x := by
  rw [rotateLeft_eq_rotateRight, rotateRight_rotateRight, Nat.add_comm, ← rotateRight_rotateRight,
    ← rotateLeft_eq_rotateRight, rotateLeft_rotateRight]

theorem rotateLeft_rotateLeft (a b : Nat) : (x.rotateLeft a).rotateLeft b = x.rotateLeft (a + b) := by
  calc (x.rotateLeft a).rotateLeft b
      = (((x.rotateLeft a).rotateLeft b).rotateRight (a + b)).rotateLeft (a + b) :=
        (rotateRight_rotateLeft _ _).symm
    _ = ((((x.rotateLeft a).rotateLeft b).rotateRight b).rotateRight a).rotateLeft (a + b) := by
        rw [rotateRight_rotateRight, Nat.add_comm b a]
    _ = x.rotateLeft (a + b) := by rw [rotateLeft_rotateRight, rotateLeft_rotateRight]

theorem rotateLeft_congr {a b : Nat} (h : a % w = b % w) : x.rotateLeft a = x.rotateLeft b := by
  rw [rotateLeft_eq_rotateRight, rotateLeft_eq_rotateRight, h]

end Rotations

section Words

variable {x : BitVec 64} {n k i : Nat}

theorem getLsbD_small (hx : x.toNat < 2 ^ n) (hi : n ≤ i) : x.getLsbD i = false :=
  Nat.testBit_lt_two_pow (lt_of_lt_of_le hx (Nat.pow_le_pow_right (by decide) hi))

/-- The two shifts of a value of `n` bits make its rotation in the low bits of a wider word. -/
theorem setWidth_rotateRight (hn : n ≤ 64) (hk : k < n) (hx : x.toNat < 2 ^ n) :
    (x >>> k ||| x <<< ((n - k) % n)).setWidth n = (x.setWidth n).rotateRight k := by
  by_cases hzero : k = 0
  · have hsame := rotateRight_of_dvd (x.setWidth n) (Nat.dvd_zero n)
    rw [hzero, Nat.sub_zero, Nat.mod_self, BitVec.ushiftRight_zero, BitVec.shiftLeft_zero, BitVec.or_self, hsame]
  · apply BitVec.eq_of_getLsbD_eq
    intro i hi
    rw [getLsbD_rotateRight_mod _ _ hi, Nat.mod_eq_of_lt (by omega : n - k < n)]
    simp only [BitVec.getLsbD_setWidth, BitVec.getLsbD_or, BitVec.getLsbD_ushiftRight, BitVec.getLsbD_shiftLeft,
      hi, Nat.mod_lt _ (by omega : n > 0), decide_true, Bool.true_and]
    by_cases hlow : i < n - k
    · rw [Nat.mod_eq_of_lt (by omega), decide_eq_true hlow, Nat.add_comm k i]
      simp
    · have hplace : (i + k) % n = i - (n - k) := by
        rw [Nat.mod_eq_sub_mod (by omega), Nat.mod_eq_of_lt (by omega)]
        omega
      rw [hplace, getLsbD_small hx (by omega), decide_eq_false hlow, decide_eq_true (by omega : i < 64)]
      simp

theorem setWidth_rotateLeft (hn : n ≤ 64) (hk : k < n) (hx : x.toNat < 2 ^ n) :
    (x <<< k ||| x >>> ((n - k) % n)).setWidth n = (x.setWidth n).rotateLeft k := by
  rw [rotateLeft_eq_rotateRight, Nat.mod_eq_of_lt hk]
  by_cases hzero : k = 0
  · have hsame := rotateRight_of_dvd (x.setWidth n) (dvd_refl n)
    rw [hzero, Nat.sub_zero, Nat.mod_self, BitVec.ushiftRight_zero, BitVec.shiftLeft_zero, BitVec.or_self, hsame]
  · have hright := setWidth_rotateRight hn (by omega : n - k < n) hx
    rw [Nat.sub_sub_self hk.le, Nat.mod_eq_of_lt hk] at hright
    rw [Nat.mod_eq_of_lt (by omega), BitVec.or_comm]
    exact hright

end Words

end Radare.Framework
