import Mathlib.Data.BitVec
import Mathlib.Logic.Function.Iterate

namespace Radare.Framework.Crc

variable {w : Nat} (poly : BitVec w)

/-- One step of the register without a message bit. -/
def crcStep (c : BitVec w) : BitVec w := if c.getLsbD 0 then (c >>> 1) ^^^ poly else c >>> 1

def crcSteps (n : Nat) (c : BitVec w) : BitVec w := (crcStep poly)^[n] c

/-- One step with a message bit: the polynomial is added where the bit differs from the low bit of the register. -/
def crcBit (c : BitVec w) (b : Bool) : BitVec w := if c.getLsbD 0 ≠ b then (c >>> 1) ^^^ poly else c >>> 1

/-- The register after a message, one bit after the other. -/
def crcBits (c : BitVec w) (bits : List Bool) : BitVec w := bits.foldl (crcBit poly) c

/-- The bits of a block, the lowest first. -/
def blockBits {m : Nat} (x : BitVec m) : List Bool := (List.range m).map x.getLsbD

/-- The lowest bits of a register. -/
def low (n : Nat) (c : BitVec w) : BitVec w := (c.setWidth n).setWidth w

theorem getLsbD_low (n : Nat) (c : BitVec w) (i : Nat) : (low n c).getLsbD i = (decide (i < n) && c.getLsbD i) := by
  rw [low, BitVec.getLsbD_setWidth, BitVec.getLsbD_setWidth]
  by_cases hi : i < w
  · simp [hi]
  · simp [hi, BitVec.getLsbD_of_ge c i (by omega)]

theorem crcSteps_succ (n : Nat) (c : BitVec w) : crcSteps poly (n + 1) c = crcStep poly (crcSteps poly n c) :=
  Function.iterate_succ_apply' (crcStep poly) n c

theorem crcSteps_add (m n : Nat) (c : BitVec w) : crcSteps poly (m + n) c = crcSteps poly m (crcSteps poly n c) :=
  Function.iterate_add_apply (crcStep poly) m n c

theorem crcStep_xor (a b : BitVec w) : crcStep poly (a ^^^ b) = crcStep poly a ^^^ crcStep poly b := by
  have hcancel : ((a >>> 1) ^^^ poly) ^^^ ((b >>> 1) ^^^ poly) = (a >>> 1) ^^^ (b >>> 1) := by
    rw [BitVec.xor_comm (b >>> 1), BitVec.xor_assoc, ← BitVec.xor_assoc poly, BitVec.xor_self, BitVec.zero_xor]
  unfold crcStep
  rw [BitVec.getLsbD_xor, BitVec.ushiftRight_xor_distrib]
  cases a.getLsbD 0 <;> cases b.getLsbD 0
  · rfl
  · exact BitVec.xor_assoc _ _ _
  · simp only [Bool.xor_false, if_true, Bool.false_eq_true, if_false]
    rw [BitVec.xor_assoc, BitVec.xor_comm (b >>> 1), ← BitVec.xor_assoc]
  · exact hcancel.symm

/-- The register is linear. -/
theorem crcSteps_xor (n : Nat) (a b : BitVec w) :
    crcSteps poly n (a ^^^ b) = crcSteps poly n a ^^^ crcSteps poly n b := by
  induction n with
  | zero => rfl
  | succ n ih => rw [crcSteps_succ, ih, crcStep_xor, ← crcSteps_succ, ← crcSteps_succ]

/-- Low bits that are zero only move the others down. -/
theorem crcSteps_low_zero {n : Nat} {c : BitVec w} (h : ∀ i < n, c.getLsbD i = false) :
    crcSteps poly n c = c >>> n := by
  induction n with
  | zero => exact (BitVec.ushiftRight_zero c).symm
  | succ n ih =>
    have hbit : (c >>> n).getLsbD 0 = false := by
      rw [BitVec.getLsbD_ushiftRight]
      exact h n (Nat.lt_succ_self n)
    rw [crcSteps_succ, ih (fun i hi => h i (by omega)), crcStep, hbit, if_neg Bool.false_ne_true,
      ← BitVec.shiftRight_add]

theorem low_shift (n : Nat) (c : BitVec w) : low n c >>> n = 0#w := by
  apply BitVec.eq_of_getLsbD_eq
  intro i hi
  rw [BitVec.getLsbD_ushiftRight, getLsbD_low]
  simp

/-- The high part of the register moves down, and the low part adds what it turns into. -/
theorem crcSteps_split (n : Nat) (c : BitVec w) : crcSteps poly n c = (c >>> n) ^^^ crcSteps poly n (low n c) := by
  have hhigh : crcSteps poly n (c ^^^ low n c) = c >>> n := by
    rw [crcSteps_low_zero, BitVec.ushiftRight_xor_distrib, low_shift, BitVec.xor_zero]
    intro i hi
    rw [BitVec.getLsbD_xor, getLsbD_low]
    simp [hi]
  rw [← hhigh, ← crcSteps_xor, BitVec.xor_assoc, BitVec.xor_self, BitVec.xor_zero]

/-- The register with one bit at most. -/
def bitAt (k : Nat) (b : Bool) : BitVec w := if b then BitVec.twoPow w k else 0#w

theorem getLsbD_bitAt {k : Nat} (hk : k < w) (b : Bool) (i : Nat) :
    (bitAt k b : BitVec w).getLsbD i = (decide (i = k) && b) := by
  unfold bitAt
  cases b
  · simp
  · simp [BitVec.getLsbD_twoPow, hk, eq_comm]

/-- A bit needs as many steps as its place to reach the end of the register. -/
theorem crcSteps_bitAt {k : Nat} (hk : k < w) (b : Bool) : crcSteps poly k (bitAt k b) = bitAt 0 b := by
  rw [crcSteps_low_zero]
  · apply BitVec.eq_of_getLsbD_eq
    intro i hi
    rw [BitVec.getLsbD_ushiftRight, getLsbD_bitAt hk, getLsbD_bitAt (by omega)]
    simp
  · intro i hi
    rw [getLsbD_bitAt hk]
    simp [Nat.ne_of_lt hi]

theorem low_succ {k : Nat} (hk : k < w) (c : BitVec w) : low (k + 1) c = low k c ^^^ bitAt k (c.getLsbD k) := by
  apply BitVec.eq_of_getLsbD_eq
  intro i hi
  rw [BitVec.getLsbD_xor, getLsbD_low, getLsbD_low, getLsbD_bitAt hk]
  rcases Nat.lt_trichotomy i k with hlt | rfl | hgt
  · simp [hlt, Nat.lt_succ_of_lt hlt, Nat.ne_of_lt hlt]
  · simp
  · simp [Nat.not_lt_of_gt hgt, Nat.ne_of_gt hgt, show ¬i < k + 1 by omega]

/-- A message bit is one that is added to the lowest bit of the register. -/
theorem crcBit_eq (hw : 0 < w) (c : BitVec w) (b : Bool) : crcBit poly c b = crcStep poly (c ^^^ bitAt 0 b) := by
  have hbit : (c ^^^ bitAt 0 b).getLsbD 0 = decide (c.getLsbD 0 ≠ b) := by
    rw [BitVec.getLsbD_xor, getLsbD_bitAt hw]
    cases c.getLsbD 0 <;> cases b <;> rfl
  have hzero : (bitAt 0 b : BitVec w) >>> 1 = 0#w := by
    apply BitVec.eq_of_getLsbD_eq
    intro i hi
    rw [BitVec.getLsbD_ushiftRight, getLsbD_bitAt hw]
    simp
  rw [crcStep, hbit, BitVec.ushiftRight_xor_distrib, hzero, BitVec.xor_zero, crcBit]
  simp only [decide_eq_true_eq]

theorem crcBits_append (c : BitVec w) (l k : List Bool) :
    crcBits poly c (l ++ k) = crcBits poly (crcBits poly c l) k :=
  List.foldl_append

/-- The lowest bits of a word go in one by one as they do at once. -/
theorem crcBits_low (hw : 0 < w) {k : Nat} (hk : k ≤ w) (c x : BitVec w) :
    crcBits poly c ((List.range k).map x.getLsbD) = crcSteps poly k (c ^^^ low k x) := by
  induction k with
  | zero =>
    have hlow : low 0 x = 0#w := BitVec.eq_of_getLsbD_eq fun i hi => by simp [getLsbD_low]
    rw [hlow, BitVec.xor_zero]
    rfl
  | succ k ih =>
    have hrest := ih (Nat.le_of_succ_le hk)
    rw [List.range_succ, List.map_append, crcBits_append, hrest]
    show crcBit poly (crcSteps poly k (c ^^^ low k x)) (x.getLsbD k) = _
    rw [crcBit_eq poly hw, ← crcSteps_bitAt poly hk, ← crcSteps_xor, ← crcSteps_succ, BitVec.xor_assoc,
      low_succ hk]

section Blocks

variable {m : Nat}

theorem low_setWidth (x : BitVec m) : low m (x.setWidth w) = x.setWidth w := by
  apply BitVec.eq_of_getLsbD_eq
  intro i hi
  rw [getLsbD_low, BitVec.getLsbD_setWidth]
  by_cases him : i < m
  · simp [him]
  · simp [him, BitVec.getLsbD_of_ge x i (by omega)]

/-- A block goes into the register bit by bit as a table of its steps puts it in. -/
theorem crcBits_block (hw : 0 < w) (hm : m ≤ w) (c : BitVec w) (x : BitVec m) :
    crcBits poly c (blockBits x) = (c >>> m) ^^^ crcSteps poly m (low m (c ^^^ x.setWidth w)) := by
  have hbits : blockBits x = (List.range m).map (x.setWidth w).getLsbD := by
    refine List.map_congr_left fun i hi => ?_
    rw [BitVec.getLsbD_setWidth]
    simp [Nat.lt_of_lt_of_le (List.mem_range.mp hi) hm]
  have hzero : x.setWidth w >>> m = 0#w := by
    rw [← low_setWidth x]
    exact low_shift m _
  rw [hbits, crcBits_low poly hw hm, low_setWidth, crcSteps_split, BitVec.ushiftRight_xor_distrib, hzero,
    BitVec.xor_zero]

end Blocks

end Radare.Framework.Crc
