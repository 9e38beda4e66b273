import Mathlib.Data.List.Induction
import Mathlib.Order.Bounds.Basic
import Mathlib.Order.MinMax
import Mathlib.Tactic.Common

namespace Radare.Framework

variable {α : Type}

/-- The change of one item of a list. -/
inductive Edit (α : Type) where
  | insert (i : Nat) (x : α)
  | delete (i : Nat)
  | substitute (i : Nat) (x : α)

def Edit.apply : Edit α → List α → Option (List α)
  | .insert i x, l => if i ≤ l.length then some (l.take i ++ x :: l.drop i) else none
  | .delete i, l => if i < l.length then some (l.take i ++ l.drop (i + 1)) else none
  | .substitute i x, l => if i < l.length then some (l.take i ++ x :: l.drop (i + 1)) else none

def runScript : List (Edit α) → List α → Option (List α)
  | [], l => some l
  | e :: es, l => (e.apply l).bind (runScript es)

def EditsTo (a : List α) (n : Nat) (b : List α) : Prop := ∃ es, es.length = n ∧ runScript es a = some b

/-- The edits that make the list `x :: xs` into another, when `rest` counts those for `xs`. -/
def editsFrom [DecidableEq α] (x : α) (rest : List α → Nat) : List α → Nat
  | [] => rest [] + 1
  | y :: ys => min (min (rest (y :: ys) + 1) (editsFrom x rest ys + 1)) (rest ys + if x = y then 0 else 1)

def editDistance [DecidableEq α] : List α → List α → Nat
  | [], ys => ys.length
  | x :: xs, ys => editsFrom x (editDistance xs) ys

section Script

theorem EditsTo.refl (a : List α) : EditsTo a 0 a := ⟨[], rfl, rfl⟩

theorem runScript_append (es fs : List (Edit α)) (l : List α) :
    runScript (es ++ fs) l = (runScript es l).bind (runScript fs) := by
  induction es generalizing l with
  | nil => rfl
  | cons e es ih =>
    rw [List.cons_append, runScript, runScript]
    cases e.apply l with
    | none => rfl
    | some m => exact ih m

theorem EditsTo.trans {a b c : List α} {n m : Nat} (h : EditsTo a n b) (h' : EditsTo b m c) :
    EditsTo a (n + m) c := by
  obtain ⟨es, rfl, hes⟩ := h
  obtain ⟨fs, rfl, hfs⟩ := h'
  exact ⟨es ++ fs, List.length_append, by simp [runScript_append, hes, hfs]⟩

theorem EditsTo.one {a b : List α} {e : Edit α} (h : e.apply a = some b) : EditsTo a 1 b :=
  ⟨[e], rfl, by simp [runScript, h]⟩

theorem editsTo_zero {a b : List α} : EditsTo a 0 b ↔ a = b := by
  constructor
  · rintro ⟨es, hes, h⟩
    rw [List.length_eq_zero_iff.mp hes] at h
    exact Option.some.inj h
  · rintro rfl
    exact .refl a

/-- An edit in front of the last item does not see it. -/
theorem Edit.apply_snoc {e : Edit α} {l m : List α} (h : e.apply l = some m) (z : α) :
    e.apply (l ++ [z]) = some (m ++ [z]) := by
  cases e with
  | insert i x =>
    simp only [Edit.apply, Option.ite_none_right_eq_some, Option.some.injEq] at h ⊢
    obtain ⟨hi, rfl⟩ := h
    simp [List.take_append_of_le_length hi, List.drop_append_of_le_length hi]
    omega
  | delete i =>
    simp only [Edit.apply, Option.ite_none_right_eq_some, Option.some.injEq] at h ⊢
    obtain ⟨hi, rfl⟩ := h
    have hle : i + 1 ≤ l.length := hi
    simp [List.take_append_of_le_length hi.le, List.drop_append_of_le_length hle]
    omega
  | substitute i x =>
    simp only [Edit.apply, Option.ite_none_right_eq_some, Option.some.injEq] at h ⊢
    obtain ⟨hi, rfl⟩ := h
    have hle : i + 1 ≤ l.length := hi
    simp [List.take_append_of_le_length hi.le, List.drop_append_of_le_length hle]
    omega

theorem EditsTo.snoc {a b : List α} {n : Nat} (h : EditsTo a n b) (z : α) : EditsTo (a ++ [z]) n (b ++ [z]) := by
  obtain ⟨es, hlen, hes⟩ := h
  refine ⟨es, hlen, ?_⟩
  clear hlen
  induction es generalizing a with
  | nil =>
    obtain rfl := Option.some.inj hes
    rfl
  | cons e es ih =>
    simp only [runScript, Option.bind_eq_some_iff] at hes ⊢
    obtain ⟨m, hm, hes⟩ := hes
    exact ⟨m ++ [z], e.apply_snoc hm z, ih hes⟩

theorem editsTo_insert_last (a : List α) (x : α) : EditsTo a 1 (a ++ [x]) :=
  .one (e := .insert a.length x) (by simp [Edit.apply])

theorem editsTo_delete_last (a : List α) (x : α) : EditsTo (a ++ [x]) 1 a :=
  .one (e := .delete a.length) (by simp [Edit.apply])

theorem editsTo_substitute_last (a : List α) (x y : α) : EditsTo (a ++ [x]) 1 (a ++ [y]) :=
  .one (e := .substitute a.length y) (by simp [Edit.apply])

/-- What an edit does to a list with a last item: it leaves that item alone, adds another behind it, drops
it or replaces it. -/
theorem Edit.apply_snoc_cases {e : Edit α} {l m : List α} {z : α} (h : e.apply (l ++ [z]) = some m) :
    (∃ k, e.apply l = some k ∧ m = k ++ [z]) ∨ (∃ x, m = l ++ [z] ++ [x]) ∨ m = l ∨ ∃ x, m = l ++ [x] := by
  have hlen : (l ++ [z]).length = l.length + 1 := by simp
  cases e with
  | insert i x =>
    simp only [Edit.apply, Option.ite_none_right_eq_some, Option.some.injEq, hlen] at h ⊢
    obtain ⟨hi, rfl⟩ := h
    by_cases hin : i ≤ l.length
    · exact Or.inl ⟨_, ⟨hin, rfl⟩, by
        simp [List.take_append_of_le_length hin, List.drop_append_of_le_length hin]⟩
    · obtain rfl : i = l.length + 1 := by omega
      exact Or.inr (Or.inl ⟨x, by simp [List.take_of_length_le]⟩)
  | delete i =>
    simp only [Edit.apply, Option.ite_none_right_eq_some, Option.some.injEq, hlen] at h ⊢
    obtain ⟨hi, rfl⟩ := h
    by_cases hin : i < l.length
    · have hle : i + 1 ≤ l.length := hin
      exact Or.inl ⟨_, ⟨hin, rfl⟩, by
        simp [List.take_append_of_le_length hin.le, List.drop_append_of_le_length hle]⟩
    · obtain rfl : i = l.length := by omega
      exact Or.inr (Or.inr (Or.inl (by simp)))
  | substitute i x =>
    simp only [Edit.apply, Option.ite_none_right_eq_some, Option.some.injEq, hlen] at h ⊢
    obtain ⟨hi, rfl⟩ := h
    by_cases hin : i < l.length
    · have hle : i + 1 ≤ l.length := hin
      exact Or.inl ⟨_, ⟨hin, rfl⟩, by
        simp [List.take_append_of_le_length hin.le, List.drop_append_of_le_length hle]⟩
    · obtain rfl : i = l.length := by omega
      exact Or.inr (Or.inr (Or.inr ⟨x, by simp⟩))

theorem Edit.apply_nil {e : Edit α} {m : List α} (h : e.apply [] = some m) : ∃ x, m = [x] := by
  cases e with
  | insert i x =>
    simp only [Edit.apply, Option.ite_none_right_eq_some, Option.some.injEq] at h
    exact ⟨x, by simpa using h.2.symm⟩
  | delete i => simp [Edit.apply] at h
  | substitute i x => simp [Edit.apply] at h

end Script

section Distance

variable [DecidableEq α]

@[simp]
theorem editDistance_nil (ys : List α) : editDistance [] ys = ys.length := by rw [editDistance]

@[simp]
theorem editDistance_cons_nil (x : α) (xs : List α) :
    editDistance (x :: xs) [] = editDistance xs [] + 1 := by rw [editDistance, editsFrom]

@[simp]
theorem editDistance_cons_cons (x y : α) (xs ys : List α) :
    editDistance (x :: xs) (y :: ys) =
      min (min (editDistance xs (y :: ys) + 1) (editDistance (x :: xs) ys + 1))
        (editDistance xs ys + if x = y then 0 else 1) := by
  rw [editDistance, editsFrom, editDistance]

theorem editDistance_comm (xs ys : List α) : editDistance xs ys = editDistance ys xs := by
  induction xs generalizing ys with
  | nil =>
    induction ys with
    | nil => rfl
    | cons y ys ih => simp at ih ⊢; omega
  | cons x xs ihx =>
    induction ys with
    | nil => simpa using ihx []
    | cons y ys ihy =>
      have hcost : (if x = y then 0 else 1) = if y = x then 0 else 1 := by simp [eq_comm]
      rw [editDistance_cons_cons, editDistance_cons_cons, ihx, ihx, ihy, hcost, min_comm (_ + 1)]

theorem editDistance_self (xs : List α) : editDistance xs xs = 0 := by
  induction xs with
  | nil => rfl
  | cons x xs ih => simp [ih]

theorem editDistance_le_insert (xs ys : List α) (y : α) :
    editDistance xs (y :: ys) ≤ editDistance xs ys + 1 := by
  cases xs with
  | nil => simp
  | cons x xs => simp

theorem editDistance_le_delete (xs ys : List α) (x : α) :
    editDistance (x :: xs) ys ≤ editDistance xs ys + 1 := by
  rw [editDistance_comm, editDistance_comm xs]
  exact editDistance_le_insert ys xs x

/-- Another item in front never saves more than one edit. -/
theorem editDistance_le_cons (xs ys : List α) (x : α) :
    editDistance xs ys ≤ editDistance (x :: xs) ys + 1 := by
  induction ys with
  | nil => simp; omega
  | cons y ys ih =>
    have hins := editDistance_le_insert xs ys y
    rw [editDistance_cons_cons]
    split_ifs <;> omega

theorem editDistance_le_replace (xs ys : List α) (x x' : α) :
    editDistance (x :: xs) ys ≤ editDistance (x' :: xs) ys + 1 := by
  induction ys with
  | nil => simp
  | cons y ys ih =>
    rw [editDistance_cons_cons, editDistance_cons_cons]
    split_ifs <;> omega

theorem editDistance_cons_congr {xs xs' : List α} (x : α)
    (h : ∀ ys, editDistance xs ys ≤ editDistance xs' ys + 1) (ys : List α) :
    editDistance (x :: xs) ys ≤ editDistance (x :: xs') ys + 1 := by
  induction ys with
  | nil =>
    have hnil := h []
    simp only [editDistance_cons_nil]
    omega
  | cons y ys ih =>
    have hcons := h (y :: ys)
    have htail := h ys
    rw [editDistance_cons_cons, editDistance_cons_cons]
    omega

theorem editDistance_le_length (xs ys : List α) : editDistance xs ys ≤ xs.length + ys.length := by
  induction xs with
  | nil => simp
  | cons x xs ih =>
    have hdel := editDistance_le_delete xs ys x
    rw [List.length_cons]
    omega

/-- The distance counted from the last items on. -/
def lastDistance (xs ys : List α) : Nat := editDistance xs.reverse ys.reverse

@[simp]
theorem lastDistance_nil (ys : List α) : lastDistance [] ys = ys.length := by simp [lastDistance]

@[simp]
theorem lastDistance_snoc_nil (xs : List α) (x : α) : lastDistance (xs ++ [x]) [] = lastDistance xs [] + 1 := by
  simp [lastDistance]

@[simp]
theorem lastDistance_snoc_snoc (xs ys : List α) (x y : α) :
    lastDistance (xs ++ [x]) (ys ++ [y]) =
      min (min (lastDistance xs (ys ++ [y]) + 1) (lastDistance (xs ++ [x]) ys + 1))
        (lastDistance xs ys + if x = y then 0 else 1) := by
  simp [lastDistance]

theorem lastDistance_nil_right (xs : List α) : lastDistance xs [] = xs.length := by
  rw [lastDistance, editDistance_comm]
  simp

theorem lastDistance_comm (xs ys : List α) : lastDistance xs ys = lastDistance ys xs :=
  editDistance_comm _ _

theorem lastDistance_le_length (xs ys : List α) : lastDistance xs ys ≤ xs.length + ys.length := by
  simpa [lastDistance] using editDistance_le_length xs.reverse ys.reverse

/-- A single edit changes the distance by at most one. -/
theorem Edit.lastDistance_le {e : Edit α} {l m : List α} (h : e.apply l = some m) (c : List α) :
    lastDistance l c ≤ lastDistance m c + 1 := by
  induction l using List.reverseRecOn generalizing m c with
  | nil =>
    obtain ⟨x, rfl⟩ := e.apply_nil h
    exact editDistance_le_cons [] c.reverse x
  | append_singleton l z ih =>
    rcases e.apply_snoc_cases h with ⟨k, hk, rfl⟩ | ⟨x, rfl⟩ | rfl | ⟨x, rfl⟩
    · simp only [lastDistance, List.reverse_append, List.reverse_singleton, List.singleton_append]
      apply editDistance_cons_congr
      intro ys
      simpa [lastDistance] using ih hk ys.reverse
    · simpa [lastDistance] using editDistance_le_cons (z :: l.reverse) c.reverse x
    · simpa [lastDistance] using editDistance_le_delete m.reverse c.reverse z
    · simpa [lastDistance] using editDistance_le_replace l.reverse c.reverse z x

theorem EditsTo.lastDistance_le {a b : List α} {n : Nat} (h : EditsTo a n b) : lastDistance a b ≤ n := by
  obtain ⟨es, rfl, hes⟩ := h
  induction es generalizing a with
  | nil =>
    obtain rfl := Option.some.inj hes
    exact (editDistance_self _).le
  | cons e es ih =>
    simp only [runScript, Option.bind_eq_some_iff] at hes
    obtain ⟨m, hm, hes⟩ := hes
    have hfirst := e.lastDistance_le hm b
    have hrest := ih hes
    rw [List.length_cons]
    omega

/-- The recurrence is met by scripts: each of its three ways is an edit of the last item. -/
theorem editsTo_lastDistance (a b : List α) : EditsTo a (lastDistance a b) b := by
  induction a using List.reverseRecOn generalizing b with
  | nil =>
    induction b using List.reverseRecOn with
    | nil => exact .refl []
    | append_singleton b y ih =>
      have h := ih.trans (editsTo_insert_last b y)
      simpa using h
  | append_singleton a x iha =>
    induction b using List.reverseRecOn with
    | nil =>
      have h := (editsTo_delete_last a x).trans (iha [])
      rwa [Nat.add_comm, ← lastDistance_snoc_nil] at h
    | append_singleton b y ihb =>
      have hdel := (editsTo_delete_last a x).trans (iha (b ++ [y]))
      have hins := ihb.trans (editsTo_insert_last b y)
      have hsub : EditsTo (a ++ [x]) (lastDistance a b + if x = y then 0 else 1) (b ++ [y]) := by
        split_ifs with hxy
        · obtain rfl := hxy
          exact (iha b).snoc x
        · exact ((iha b).snoc x).trans (editsTo_substitute_last b x y)
      rw [Nat.add_comm] at hdel
      rw [lastDistance_snoc_snoc]
      rcases min_choice (min (lastDistance a (b ++ [y]) + 1) (lastDistance (a ++ [x]) b + 1))
        (lastDistance a b + if x = y then 0 else 1) with hmin | hmin
      · rw [hmin]
        rcases min_choice (lastDistance a (b ++ [y]) + 1) (lastDistance (a ++ [x]) b + 1) with hmin | hmin
        · rwa [hmin]
        · rwa [hmin]
      · rwa [hmin]

/-- The distance is the length of a shortest script. -/
theorem lastDistance_isLeast (a b : List α) : IsLeast {n | EditsTo a n b} (lastDistance a b) :=
  ⟨editsTo_lastDistance a b, fun _ h => h.lastDistance_le⟩

theorem lastDistance_eq_zero {a b : List α} : lastDistance a b = 0 ↔ a = b := by
  constructor
  · intro h
    have hscript := editsTo_lastDistance a b
    rw [h] at hscript
    exact editsTo_zero.mp hscript
  · rintro rfl
    exact editDistance_self _

end Distance

end Radare.Framework
