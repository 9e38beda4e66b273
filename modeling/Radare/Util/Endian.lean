import Radare.Framework.MachineInt
import Mathlib.Tactic.Ring

namespace Radare

/-- Little-endian value of a byte string. -/
def leNat : List Ut8 → Nat
  | [] => 0
  | b :: bs => b.toNat + 256 * leNat bs

/-- The low bytes of a number, least significant first. -/
def leBytes : Nat → Nat → List Ut8
  | 0, _ => []
  | n + 1, v => BitVec.ofNat 8 v :: leBytes n (v / 256)

def orient (bigEndian : Bool) (bs : List Ut8) : List Ut8 := if bigEndian then bs.reverse else bs

/-- `r_read_ble64` on the first eight bytes. -/
def rReadBle64 (src : List Ut8) (bigEndian : Bool) : Ut64 :=
  BitVec.ofNat 64 (leNat (orient bigEndian (src.take 8)))

/-- `r_write_ble` overwrites the head of `dst` for the four sizes it knows. -/
def rWriteBle (dst : List Ut8) (val : Ut64) (bigEndian : Bool) (size : Nat) : List Ut8 :=
  if size = 8 ∨ size = 16 ∨ size = 32 ∨ size = 64 then
    orient bigEndian (leBytes (size / 8) val.toNat) ++ dst.drop (size / 8)
  else dst

/-- `r_mem_swapendian` in place on the bytes of a little-endian host. -/
def rMemSwapendian (b : List Ut8) (size : Nat) : List Ut8 :=
  if size = 1 ∨ size = 2 ∨ size = 4 ∨ size = 8 then (b.take size).reverse ++ b.drop size else b

theorem leNat_nil : leNat [] = 0 := rfl

theorem leNat_cons (b : Ut8) (bs : List Ut8) : leNat (b :: bs) = b.toNat + 256 * leNat bs := rfl

theorem leBytes_length (n v : Nat) : (leBytes n v).length = n := by
  induction n generalizing v with
  | zero => rfl
  | succ n ih => simp [leBytes, ih]

theorem orient_length (be : Bool) (bs : List Ut8) : (orient be bs).length = bs.length := by
  cases be <;> simp [orient]

theorem orient_orient (be : Bool) (bs : List Ut8) : orient be (orient be bs) = bs := by
  cases be <;> simp [orient]

theorem leNat_lt (bs : List Ut8) : leNat bs < 256 ^ bs.length := by
  induction bs with
  | nil => simp [leNat_nil]
  | cons b bs ih =>
    have hb := b.isLt
    simp only [leNat_cons, List.length_cons, pow_succ]
    omega

/-- Storing a number and loading it keeps the bits that fit. -/
theorem leNat_leBytes (n v : Nat) : leNat (leBytes n v) = v % 256 ^ n := by
  induction n generalizing v with
  | zero => simp [leBytes, leNat_nil, Nat.mod_one]
  | succ n ih =>
    have hb : (BitVec.ofNat 8 v).toNat = v % 256 := BitVec.toNat_ofNat v 8
    rw [leBytes, leNat_cons, ih, hb, pow_succ, Nat.mul_comm (256 ^ n) 256, Nat.mod_mul]

theorem leNat_append (xs ys : List Ut8) :
    leNat (xs ++ ys) = leNat xs + 256 ^ xs.length * leNat ys := by
  induction xs with
  | nil => simp [leNat_nil]
  | cons x xs ih =>
    rw [List.cons_append, leNat_cons, ih, leNat_cons, List.length_cons, pow_succ]
    ring

theorem leNat_inj {xs ys : List Ut8} (hl : xs.length = ys.length) (h : leNat xs = leNat ys) :
    xs = ys := by
  induction xs generalizing ys with
  | nil =>
    have hy : ys = [] := List.eq_nil_of_length_eq_zero hl.symm
    rw [hy]
  | cons x xs ih =>
    cases ys with
    | nil => cases hl
    | cons y ys =>
      have hx := x.isLt
      have hy := y.isLt
      rw [leNat_cons, leNat_cons] at h
      have hhead : x = y := BitVec.eq_of_toNat_eq (by omega)
      have htail : xs = ys := ih (Nat.succ.inj hl) (by omega)
      rw [hhead, htail]

theorem leNat_append_zeros (bs : List Ut8) (k : Nat) :
    leNat (bs ++ List.replicate k 0) = leNat bs := by
  induction bs with
  | nil =>
    induction k with
    | zero => rfl
    | succ k ih => simpa [List.replicate_succ, leNat_cons, leNat_nil] using ih
  | cons b bs ih => rw [List.cons_append, leNat_cons, ih, leNat_cons]

theorem leNat_drop (bs : List Ut8) (k : Nat) : leNat (bs.drop k) = leNat bs / 256 ^ k := by
  induction k generalizing bs with
  | zero => simp
  | succ k ih =>
    cases bs with
    | nil => simp [leNat_nil]
    | cons b bs =>
      have hb := b.isLt
      rw [List.drop_succ_cons, ih, leNat_cons, pow_succ, Nat.mul_comm (256 ^ k) 256, ← Nat.div_div_eq_div_mul]
      congr 1
      omega

theorem leNat_take (bs : List Ut8) (k : Nat) : leNat (bs.take k) = leNat bs % 256 ^ k := by
  induction k generalizing bs with
  | zero => simp [leNat_nil, Nat.mod_one]
  | succ k ih =>
    cases bs with
    | nil => simp [leNat_nil]
    | cons b bs =>
      have hb := b.isLt
      rw [List.take_succ_cons, leNat_cons, leNat_cons, ih, pow_succ, Nat.mul_comm (256 ^ k) 256, Nat.mod_mul,
        show (b.toNat + 256 * leNat bs) % 256 = b.toNat by omega,
        show (b.toNat + 256 * leNat bs) / 256 = leNat bs by omega]

end Radare
