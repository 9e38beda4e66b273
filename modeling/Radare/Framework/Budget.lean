import Mathlib.Algebra.GroupWithZero.Nat
import Mathlib.Data.List.Infix

namespace Radare.Framework.Budget

variable {α : Type} (w : α → Nat)

def width (xs : List α) : Nat := (xs.map w).sum

/-- The elements taken as long as some room is left, the last perhaps wider than that. -/
def spend : Nat → List α → List α
  | _, [] => []
  | room, x :: xs => if 0 < room then x :: spend (room - w x) xs else []

@[simp] theorem width_nil : width w [] = 0 := rfl

@[simp] theorem width_cons (x : α) (xs : List α) : width w (x :: xs) = w x + width w xs := by
  simp [width]

@[simp] theorem spend_nil (room : Nat) : spend w room [] = [] := rfl

theorem spend_cons (room : Nat) (x : α) (xs : List α) :
    spend w room (x :: xs) = if 0 < room then x :: spend w (room - w x) xs else [] := rfl

theorem spend_zero (xs : List α) : spend w 0 xs = [] := by
  cases xs <;> rfl

theorem spend_prefix (room : Nat) (xs : List α) : spend w room xs <+: xs := by
  induction xs generalizing room with
  | nil => simp
  | cons x xs ih =>
    rw [spend_cons]
    split_ifs
    · exact List.cons_prefix_cons.mpr ⟨rfl, ih _⟩
    · exact List.nil_prefix

/-- What is taken stays in the room exactly if it is everything, or some prefix fills the room. -/
theorem width_spend_le_iff (room : Nat) (xs : List α) :
    width w (spend w room xs) ≤ room ↔ width w xs ≤ room ∨ ∃ pre, pre <+: xs ∧ width w pre = room := by
  induction xs generalizing room with
  | nil => simp
  | cons x xs ih =>
    rcases Nat.eq_zero_or_pos room with rfl | hroom
    · rw [spend_zero]
      exact iff_of_true (Nat.le_refl _) (.inr ⟨[], List.nil_prefix, rfl⟩)
    · have hfill : (∃ pre, pre <+: x :: xs ∧ width w pre = room) ↔
          ∃ pre, pre <+: xs ∧ w x + width w pre = room := by
        constructor
        · rintro ⟨pre, hpre, hwidth⟩
          cases pre with
          | nil => exact absurd hwidth (by simp; omega)
          | cons y pre =>
            obtain ⟨rfl, htail⟩ := List.cons_prefix_cons.mp hpre
            exact ⟨pre, htail, by simpa using hwidth⟩
        · rintro ⟨pre, hpre, hwidth⟩
          exact ⟨x :: pre, List.cons_prefix_cons.mpr ⟨rfl, hpre⟩, by simpa using hwidth⟩
      have hrest := ih (room - w x)
      rw [spend_cons, if_pos hroom, hfill]
      simp only [width_cons]
      by_cases hx : w x ≤ room
      · have hle : w x + width w (spend w (room - w x) xs) ≤ room ↔
            width w (spend w (room - w x) xs) ≤ room - w x := by omega
        have hall : w x + width w xs ≤ room ↔ width w xs ≤ room - w x := by omega
        have heq (pre : List α) : w x + width w pre = room ↔ width w pre = room - w x := by omega
        simp only [hle, hall, heq, hrest]
      · refine iff_of_false (by omega) ?_
        rintro (hall | ⟨pre, -, hwidth⟩) <;> omega

/-- The elements taken are those in front of which some room is left. -/
theorem forall_mem_spend_iff (room : Nat) (xs : List α) (P : α → Prop) :
    (∀ x ∈ spend w room xs, P x) ↔ ∀ pre x post, xs = pre ++ x :: post → width w pre < room → P x := by
  induction xs generalizing room with
  | nil => simp
  | cons y xs ih =>
    rw [spend_cons]
    split_ifs with hroom
    · simp only [List.forall_mem_cons, ih]
      constructor
      · rintro ⟨hy, hrest⟩ pre x post heq hlt
        cases pre with
        | nil =>
          rw [← (List.cons.inj heq).1]
          exact hy
        | cons z pre =>
          obtain ⟨rfl, htail⟩ := List.cons.inj heq
          rw [width_cons] at hlt
          exact hrest pre x post htail (by omega)
      · intro h
        refine ⟨h [] y xs rfl hroom, fun pre x post heq hlt => ?_⟩
        exact h (y :: pre) x post (by rw [heq, List.cons_append]) (by rw [width_cons]; omega)
    · simp only [List.not_mem_nil, false_imp_iff, implies_true, true_iff]
      intro pre x post _ hlt
      omega

end Radare.Framework.Budget
