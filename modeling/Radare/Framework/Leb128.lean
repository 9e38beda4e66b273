import Radare.Framework.MachineInt
import Mathlib.Algebra.Order.Ring.Int
import Mathlib.Tactic.Ring

namespace Radare.Framework.Leb128

/-- Every byte but the last has its high bit set. -/
def IsLeb : List Ut8 → Prop
  | [] => False
  | [b] => b.toNat < 128
  | b :: c :: bs => 128 ≤ b.toNat ∧ IsLeb (c :: bs)

def ulebValue : List Ut8 → Nat
  | [] => 0
  | b :: bs => b.toNat % 128 + 128 * ulebValue bs

/-- The bit below the high bit of the last byte is the sign. -/
def slebValue : List Ut8 → Int
  | [] => 0
  | [b] => if b.toNat % 128 < 64 then b.toNat % 128 else b.toNat % 128 - 128
  | b :: c :: bs => b.toNat % 128 + 128 * slebValue (c :: bs)

theorem IsLeb.ne_nil {bs : List Ut8} (h : IsLeb bs) : bs ≠ [] := by
  intro hnil
  rw [hnil] at h
  exact h

/-- A one-byte head that does not go on is the whole encoding. -/
theorem IsLeb.eq_singleton {b : Ut8} {bs : List Ut8} (h : IsLeb (b :: bs)) (hb : b.toNat < 128) :
    bs = [] := by
  cases bs with
  | nil => rfl
  | cons c bs =>
    have hge := h.1
    omega

/-- Groups of seven bits from the lowest on, as many as the number has. -/
def ulebEncode (n : Nat) : List Ut8 :=
  if n < 128 then [BitVec.ofNat 8 n] else BitVec.ofNat 8 (n % 128 + 128) :: ulebEncode (n / 128)

/-- Groups of seven bits until the rest is only the sign. -/
def slebEncode (n : Int) : List Ut8 :=
  if -64 ≤ n ∧ n < 64 then [BitVec.ofInt 8 (n % 128)]
  else BitVec.ofInt 8 (n % 128 + 128) :: slebEncode (n / 128)
termination_by n.natAbs

theorem toNat_ofNat_group {n : Nat} (h : n < 256) : (BitVec.ofNat 8 n).toNat = n := by
  simp only [BitVec.toNat_ofNat]
  omega

theorem toNat_ofInt_group {n : Int} (hlow : 0 ≤ n) (h : n < 256) : ((BitVec.ofInt 8 n).toNat : Int) = n := by
  simp only [BitVec.toNat_ofInt]
  omega

theorem IsLeb.cons {b : Ut8} {bs : List Ut8} (hb : 128 ≤ b.toNat) (h : IsLeb bs) : IsLeb (b :: bs) := by
  cases bs with
  | nil => exact h.elim
  | cons c bs => exact ⟨hb, h⟩

theorem slebValue_cons {b : Ut8} {bs : List Ut8} (h : bs ≠ []) :
    slebValue (b :: bs) = (b.toNat % 128 : Int) + 128 * slebValue bs := by
  cases bs with
  | nil => exact absurd rfl h
  | cons c bs => rfl

theorem ulebEncode_isLeb (n : Nat) : IsLeb (ulebEncode n) := by
  induction n using ulebEncode.induct with
  | case1 n h =>
    rw [ulebEncode, if_pos h]
    simpa [IsLeb, toNat_ofNat_group (by omega : n < 256)] using h
  | case2 n h ih =>
    rw [ulebEncode, if_neg h]
    apply ih.cons
    simp only [toNat_ofNat_group (by omega : n % 128 + 128 < 256)]
    omega

theorem ulebValue_encode (n : Nat) : ulebValue (ulebEncode n) = n := by
  induction n using ulebEncode.induct with
  | case1 n h =>
    rw [ulebEncode, if_pos h]
    simp only [ulebValue, toNat_ofNat_group (by omega : n < 256)]
    omega
  | case2 n h ih =>
    rw [ulebEncode, if_neg h]
    simp only [ulebValue, ih, toNat_ofNat_group (by omega : n % 128 + 128 < 256)]
    omega

theorem ulebEncode_length {n k : Nat} (h : n < 128 ^ (k + 1)) : (ulebEncode n).length ≤ k + 1 := by
  induction k generalizing n with
  | zero =>
    rw [ulebEncode, if_pos (by simpa using h)]
    simp
  | succ k ih =>
    rw [ulebEncode]
    split_ifs
    · simp
    · have hrest : n / 128 < 128 ^ (k + 1) := by
        rw [Nat.pow_succ] at h
        omega
      simpa using ih hrest

theorem slebEncode_isLeb (n : Int) : IsLeb (slebEncode n) := by
  induction n using slebEncode.induct with
  | case1 n h =>
    have hlow := toNat_ofInt_group (by omega : 0 ≤ n % 128) (by omega)
    rw [slebEncode, if_pos h]
    simp only [IsLeb]
    omega
  | case2 n h ih =>
    have hlow := toNat_ofInt_group (by omega : 0 ≤ n % 128 + 128) (by omega)
    rw [slebEncode, if_neg h]
    apply ih.cons
    omega

theorem slebValue_encode (n : Int) : slebValue (slebEncode n) = n := by
  induction n using slebEncode.induct with
  | case1 n h =>
    have hlow := toNat_ofInt_group (by omega : 0 ≤ n % 128) (by omega)
    rw [slebEncode, if_pos h]
    simp only [slebValue]
    split_ifs <;> omega
  | case2 n h ih =>
    have hlow := toNat_ofInt_group (by omega : 0 ≤ n % 128 + 128) (by omega)
    rw [slebEncode, if_neg h, slebValue_cons (slebEncode_isLeb _).ne_nil, ih]
    omega

theorem slebEncode_length {n : Int} {k : Nat} (h : -(64 * 128 ^ k) ≤ n ∧ n < 64 * 128 ^ k) :
    (slebEncode n).length ≤ k + 1 := by
  induction k generalizing n with
  | zero =>
    rw [slebEncode, if_pos (by simpa using h)]
    simp
  | succ k ih =>
    rw [slebEncode]
    split_ifs
    · simp
    · have hrest : -(64 * 128 ^ k) ≤ n / 128 ∧ n / 128 < 64 * 128 ^ k := by
        rw [pow_succ] at h
        omega
      simpa using ih hrest

/-- The last group is zero for zero, and where the sign bit would be the top bit of the number. -/
theorem slebEncode_getLast_zero (n : Int) :
    (slebEncode n).getLast? = some 0 ↔ n = 0 ∨ ∃ k : Nat, 2 ^ (7 * k + 6) ≤ n ∧ n < 2 ^ (7 * k + 7) := by
  induction n using slebEncode.induct with
  | case1 n h =>
    have hlow := toNat_ofInt_group (by omega : 0 ≤ n % 128) (by omega)
    have hzero : BitVec.ofInt 8 (n % 128) = 0 ↔ n = 0 := by
      rw [← BitVec.toNat_inj]
      simp only [BitVec.ofNat_eq_ofNat, BitVec.toNat_ofNat]
      omega
    have hnone : ¬∃ k : Nat, (2 : Int) ^ (7 * k + 6) ≤ n ∧ n < 2 ^ (7 * k + 7) := by
      rintro ⟨k, hk, -⟩
      have hpow : (2 : Int) ^ 6 ≤ 2 ^ (7 * k + 6) := pow_le_pow_right₀ (by omega) (by omega)
      omega
    rw [slebEncode, if_pos h]
    simp only [List.getLast?_singleton, Option.some.injEq, hzero, hnone, or_false]
  | case2 n h ih =>
    have hpow (k : Nat) : (2 : Int) ^ (7 * (k + 1) + 6) = 128 * 2 ^ (7 * k + 6) ∧
        (2 : Int) ^ (7 * (k + 1) + 7) = 128 * 2 ^ (7 * k + 7) := by
      constructor <;> ring
    rw [slebEncode, if_neg h, List.getLast?_cons_of_ne_nil (slebEncode_isLeb _).ne_nil, ih]
    constructor
    · rintro (hdiv | ⟨k, hk⟩)
      · exact .inr ⟨0, by norm_num; omega⟩
      · refine .inr ⟨k + 1, ?_⟩
        rw [(hpow k).1, (hpow k).2]
        omega
    · rintro (hzero | ⟨k, hk⟩)
      · omega
      · cases k with
        | zero =>
          norm_num at hk
          exact .inl (by omega)
        | succ k =>
          rw [(hpow k).1, (hpow k).2] at hk
          exact .inr ⟨k, by omega⟩

/-- A number below a shift is added to a shifted one by setting its bits. -/
theorem or_shiftLeft {w : Nat} (x y : BitVec w) (s : Nat) (h : x.toNat < 2 ^ s) :
    x ||| y <<< s = x + y <<< s := by
  have hand : x &&& y <<< s = 0#w := by
    apply BitVec.eq_of_getLsbD_eq
    intro i hi
    rw [BitVec.getLsbD_and, BitVec.getLsbD_shiftLeft, BitVec.getLsbD_zero]
    by_cases hlt : i < s
    · simp [hlt]
    · have hbit : x.getLsbD i = false :=
        Nat.testBit_lt_two_pow (lt_of_lt_of_le h (Nat.pow_le_pow_right (by omega) (by omega)))
      rw [hbit, Bool.false_and]
  exact (BitVec.add_eq_or_of_and_eq_zero x _ hand).symm

theorem shiftLeft_eq_ofInt {w : Nat} (x : Nat) (s : Nat) :
    (BitVec.ofNat w x) <<< s = BitVec.ofInt w (x * 2 ^ s) := by
  apply BitVec.eq_of_toNat_eq
  rw [BitVec.toNat_shiftLeft, BitVec.toNat_ofNat, BitVec.toNat_ofInt, Nat.shiftLeft_eq, Nat.mod_mul_mod]
  norm_cast

end Radare.Framework.Leb128
