import Mathlib.Data.List.TakeWhile

namespace Radare.Framework

variable {α : Type} {p : α → Bool} {r : α → α → Prop} {marks : List α}

/-- Nothing in a list has a property, or there is a first one that has it. -/
theorem first_such (P : α → Prop) (xs : List α) :
    (∀ x ∈ xs, ¬P x) ∨ ∃ s x t, xs = s ++ x :: t ∧ P x ∧ ∀ y ∈ s, ¬P y := by
  induction xs with
  | nil => exact Or.inl (fun x hx => absurd hx List.not_mem_nil)
  | cons x xs ih =>
    by_cases hx : P x
    · exact Or.inr ⟨[], x, xs, rfl, hx, fun y hy => absurd hy List.not_mem_nil⟩
    · rcases ih with hnone | ⟨s, y, t, heq, hy, hs⟩
      · exact Or.inl (List.forall_mem_cons.mpr ⟨hx, hnone⟩)
      · exact Or.inr ⟨x :: s, y, t, by rw [heq, List.cons_append], hy, List.forall_mem_cons.mpr ⟨hx, hs⟩⟩

/-- Of two places in a list one comes before the other, or they are the same. -/
theorem append_cons_cases {s t s' t' : List α} {x y : α} (h : s ++ x :: t = s' ++ y :: t') :
    (s = s' ∧ x = y ∧ t = t') ∨ (x ∈ s' ∧ y ∈ t) ∨ (y ∈ s ∧ x ∈ t') := by
  rcases List.append_eq_append_iff.mp h with ⟨u, hs, hu⟩ | ⟨u, hs, hu⟩
  · cases u with
    | nil =>
      rw [List.append_nil] at hs
      rw [List.nil_append, List.cons.injEq] at hu
      exact Or.inl ⟨hs.symm, hu.1, hu.2⟩
    | cons c u =>
      rw [List.cons_append, List.cons.injEq] at hu
      obtain ⟨rfl, rfl⟩ := hu
      exact Or.inr (Or.inl ⟨by simp [hs], by simp⟩)
  · cases u with
    | nil =>
      rw [List.append_nil] at hs
      rw [List.nil_append, List.cons.injEq] at hu
      exact Or.inl ⟨hs, hu.1.symm, hu.2.symm⟩
    | cons c u =>
      rw [List.cons_append, List.cons.injEq] at hu
      obtain ⟨rfl, rfl⟩ := hu
      exact Or.inr (Or.inr ⟨by simp [hs], by simp⟩)

/-- Of marks in increasing order, all that come behind the first one outside are outside. -/
theorem not_of_mem_dropWhile (hp : ∀ a b, r a b → p b → p a) (h : marks.Pairwise r) :
    ∀ m ∈ marks.dropWhile p, p m = false := by
  induction marks with
  | nil =>
    intro m hm
    cases hm
  | cons a marks ih =>
    rw [List.pairwise_cons] at h
    intro m hm
    by_cases ha : p a = true
    · rw [List.dropWhile_cons_of_pos ha] at hm
      exact ih h.2 m hm
    · rw [List.dropWhile_cons_of_neg ha] at hm
      rcases List.mem_cons.mp hm with rfl | hrest
      · exact Bool.eq_false_iff.mpr ha
      · exact Bool.eq_false_iff.mpr (fun hm => ha (hp a m (h.1 m hrest) hm))

/-- The last of the marks inside. -/
def lastMark (p : α → Bool) (start : α) (marks : List α) : α := (start :: marks.takeWhile p).getLast (List.cons_ne_nil _ _)

theorem lastMark_cons_pos {a start : α} (ha : p a = true) : lastMark p start (a :: marks) = lastMark p a marks := by
  unfold lastMark
  simp only [List.takeWhile_cons_of_pos ha]
  exact List.getLast_cons (List.cons_ne_nil _ _)

theorem lastMark_cons_neg {a start : α} (ha : ¬p a = true) : lastMark p start (a :: marks) = start := by
  unfold lastMark
  simp only [List.takeWhile_cons_of_neg ha, List.getLast_singleton]

/-- Of increasing marks the last one inside is the greatest. -/
theorem lastMark_spec {start : α} (hstart : p start = true) (h : (start :: marks).Pairwise r)
    (hp : ∀ a b, r a b → p b → p a) :
    lastMark p start marks ∈ start :: marks ∧ p (lastMark p start marks) = true ∧
      ∀ m ∈ start :: marks, p m = true → m = lastMark p start marks ∨ r m (lastMark p start marks) := by
  induction marks generalizing start with
  | nil =>
    refine ⟨List.mem_singleton_self _, hstart, fun m hm _ => Or.inl ?_⟩
    exact List.mem_singleton.mp hm
  | cons a marks ih =>
    rw [List.pairwise_cons] at h
    by_cases ha : p a = true
    · rw [lastMark_cons_pos ha]
      obtain ⟨hmem, hin, hgreatest⟩ := ih ha h.2
      refine ⟨List.mem_cons_of_mem _ hmem, hin, fun m hm hpm => ?_⟩
      rcases List.mem_cons.mp hm with rfl | hrest
      · exact Or.inr (h.1 _ hmem)
      · exact hgreatest m hrest hpm
    · rw [lastMark_cons_neg ha]
      refine ⟨List.mem_cons_self, hstart, fun m hm hpm => ?_⟩
      rcases List.mem_cons.mp hm with rfl | hrest
      · exact Or.inl rfl
      · have hout := not_of_mem_dropWhile hp h.2 m (by rwa [List.dropWhile_cons_of_neg ha])
        rw [hpm] at hout
        cases hout

/-- Increasing numbers are not below their places. -/
theorem le_getElem_of_increasing {marks : List Nat} (h : marks.Pairwise (· < ·)) {i : Nat} (hi : i < marks.length) :
    i ≤ marks[i] := by
  induction i with
  | zero => exact Nat.zero_le _
  | succ i ih =>
    have hstep := List.pairwise_iff_getElem.mp h i (i + 1) (by omega) hi (by omega)
    have hbelow := ih (by omega)
    omega

theorem length_le_of_increasing {marks : List Nat} {n : Nat} (h : marks.Pairwise (· < ·)) (hn : ∀ m ∈ marks, m < n) :
    marks.length ≤ n := by
  by_contra hlt
  have hi : n < marks.length := by omega
  have hle := le_getElem_of_increasing h hi
  have hmem := hn _ (List.getElem_mem hi)
  omega

end Radare.Framework
