import Mathlib.Tactic.Common

namespace Radare

/-- A linear undo history. The position is recorded only while there are entries ahead of it. -/
@[ext]
structure History (α : Type) where
  past : List α
  here : Option α
  future : List α
  recorded : here.isSome = !future.isEmpty

namespace History

variable {α : Type}

def empty : History α where
  past := []
  here := none
  future := []
  recorded := rfl

/-- A new entry takes the place of everything ahead; only the last `cap` entries are kept. -/
def push (cap : Nat) (h : History α) (e : α) : History α where
  past := (e :: h.past).take cap
  here := none
  future := []
  recorded := rfl

/-- `now` is the position when the history has not recorded it. -/
def undo (h : History α) (now : α) : Option (α × History α) :=
  match h.past with
  | [] => none
  | e :: past => some (e,
      { past := past
        here := some e
        future := h.here.getD now :: h.future
        recorded := rfl })

def redo (h : History α) : Option (α × History α) :=
  match h.here, h.future with
  | some here, e :: future => some (e,
      { past := here :: h.past
        here := if future.isEmpty then none else some e
        future := future
        recorded := by cases future <;> rfl })
  | _, _ => none

/-- Successful undos, each with the position it is given. -/
def undos (h : History α) : List α → Option (History α)
  | [] => some h
  | now :: nows => (h.undo now).bind (fun r => r.2.undos nows)

/-- Successful redos, with the entry of the last one. -/
def redos (h : History α) : Nat → Option (α × History α)
  | 0 => none
  | 1 => h.redo
  | k + 2 => (h.redos (k + 1)).bind (fun r => r.2.redo)

theorem undo_push (cap : Nat) (h : History α) (e now : α) :
    ((h.push (cap + 1) e).undo now).map (·.1) = some e := rfl

theorem redo_push (cap : Nat) (h : History α) (e : α) : (h.push cap e).redo = none := rfl

/-- A redo takes an undo back. -/
theorem redo_undo (h : History α) (now e : α) (h' : History α) (hu : h.undo now = some (e, h')) :
    h'.redo = some (h.here.getD now, h) := by
  obtain ⟨past, here, future, hrec⟩ := h
  cases past with
  | nil => simp [undo] at hu
  | cons p past =>
    simp only [undo, Option.some.injEq, Prod.mk.injEq] at hu
    obtain ⟨rfl, rfl⟩ := hu
    cases here with
    | none =>
      have hf : future = [] := by simpa using hrec
      subst hf
      rfl
    | some c =>
      have hf : future ≠ [] := by simpa using hrec
      simp [redo, hf]

/-- As many redos as undos lead back to the position before the first undo. -/
theorem redos_undos (h : History α) (now : α) (nows : List α) (h' : History α)
    (hu : h.undos (now :: nows) = some h') :
    h'.redos (nows.length + 1) = some (h.here.getD now, h) := by
  induction nows generalizing h now with
  | nil =>
    obtain ⟨⟨e, h₁⟩, h1, h2⟩ := Option.bind_eq_some_iff.mp hu
    have he : h₁ = h' := by simpa [undos] using h2
    exact he ▸ redo_undo h now e h₁ h1
  | cons next nows ih =>
    obtain ⟨⟨e, h₁⟩, h1, h2⟩ := Option.bind_eq_some_iff.mp hu
    rw [List.length_cons, redos, ih h₁ next h2]
    exact redo_undo h now e h₁ h1

end History

/-- The `n` cells before cell `i`, nearest first. -/
def behind {α : Type} (g : Int → α) (i : Int) : Nat → List α
  | 0 => []
  | n + 1 => g (i - 1) :: behind g (i - 1) n

/-- The `n` cells after cell `i`, nearest first. -/
def ahead {α : Type} (g : Int → α) (i : Int) : Nat → List α
  | 0 => []
  | n + 1 => g (i + 1) :: ahead g (i + 1) n

section Cells

variable {α : Type} (g g' : Int → α)

theorem behind_length (i : Int) (n : Nat) : (behind g i n).length = n := by
  induction n generalizing i with
  | zero => rfl
  | succ n ih => simp [behind, ih]

theorem behind_congr (i j : Int) (n : Nat)
    (h : ∀ k : Int, 1 ≤ k → k ≤ n → g (i - k) = g' (j - k)) : behind g i n = behind g' j n := by
  induction n generalizing i j with
  | zero => rfl
  | succ n ih =>
    rw [behind, behind, h 1 (by omega) (by omega)]
    congr 1
    refine ih (i - 1) (j - 1) (fun k h1 hk => ?_)
    have hk' := h (k + 1) (by omega) (by push_cast; omega)
    have hi : i - (k + 1) = i - 1 - k := by omega
    have hj : j - (k + 1) = j - 1 - k := by omega
    rwa [hi, hj] at hk'

theorem ahead_congr (i j : Int) (n : Nat)
    (h : ∀ k : Int, 1 ≤ k → k ≤ n → g (i + k) = g' (j + k)) : ahead g i n = ahead g' j n := by
  induction n generalizing i j with
  | zero => rfl
  | succ n ih =>
    rw [ahead, ahead, h 1 (by omega) (by omega)]
    congr 1
    refine ih (i + 1) (j + 1) (fun k h1 hk => ?_)
    have hk' := h (k + 1) (by omega) (by push_cast; omega)
    have hi : i + (k + 1) = i + 1 + k := by omega
    have hj : j + (k + 1) = j + 1 + k := by omega
    rwa [hi, hj] at hk'

theorem behind_take (i : Int) (n m : Nat) : (behind g i n).take m = behind g i (min m n) := by
  induction n generalizing i m with
  | zero => simp [behind]
  | succ n ih =>
    cases m with
    | zero => simp [behind]
    | succ m => rw [behind, List.take_succ_cons, ih, Nat.add_min_add_right, behind]

end Cells

end Radare
