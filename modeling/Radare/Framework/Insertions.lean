import Mathlib.Data.List.Basic

namespace Radare.Framework

/-- Where the occurrences of `c` go in, from left to right, among the symbols up to `c`; `seen` of
these stand before the rest of the word. -/
def placesOf (c : Nat) : List Nat → Nat → List Nat
  | [], _ => []
  | x :: rest, seen =>
    if x < c then placesOf c rest (seen + 1)
    else if x = c then seen :: placesOf c rest (seen + 1)
    else placesOf c rest seen

theorem placesOf_cons (c x : Nat) (rest : List Nat) (seen : Nat) :
    placesOf c (x :: rest) seen =
      if x < c then placesOf c rest (seen + 1)
      else if x = c then seen :: placesOf c rest (seen + 1)
      else placesOf c rest seen := rfl

/-- The insertions that add the symbols `c, c + 1, …` of a word to its smaller ones, in order. -/
def insertionsOf (s : List Nat) : Nat → Nat → List (Nat × Nat)
  | 0, _ => []
  | k + 1, c => (placesOf c s 0).map (fun pos => (c, pos)) ++ insertionsOf s k (c + 1)

def insertAll : List Nat → List (Nat × Nat) → List Nat
  | out, [] => out
  | out, x :: rest => insertAll (out.take x.2 ++ x.1 :: out.drop x.2) rest

theorem insertAll_append (out : List Nat) (xs ys : List (Nat × Nat)) :
    insertAll out (xs ++ ys) = insertAll (insertAll out xs) ys := by
  induction xs generalizing out with
  | nil => rfl
  | cons x xs ih => exact ih _

/-- One symbol: what is done stands in `pre`, the rest of the word is still without it. -/
theorem insertAll_placesOf (c : Nat) (pre rest : List Nat) :
    insertAll (pre ++ rest.filter (· < c)) ((placesOf c rest pre.length).map (fun pos => (c, pos))) =
      pre ++ rest.filter (· < c + 1) := by
  induction rest generalizing pre with
  | nil => rfl
  | cons x rest ih =>
    have hlen : (pre ++ [x]).length = pre.length + 1 := by simp
    have hih := ih (pre ++ [x])
    rw [hlen, List.append_assoc, List.append_assoc] at hih
    rw [placesOf_cons]
    by_cases hlt : x < c
    · rw [if_pos hlt, List.filter_cons_of_pos (by simpa using hlt),
        List.filter_cons_of_pos (by simp; omega)]
      exact hih
    · rw [if_neg hlt, List.filter_cons_of_neg (by simpa using hlt)]
      by_cases heq : x = c
      · rw [if_pos heq, List.map_cons, List.filter_cons_of_pos (by simp; omega), insertAll,
          List.take_left, List.drop_left, ← heq]
        rw [← heq] at hih
        exact hih
      · rw [if_neg heq, List.filter_cons_of_neg (by simp; omega)]
        exact ih pre

/-- The insertions rebuild the word from its small symbols. -/
theorem insertAll_insertionsOf (s : List Nat) (k c : Nat) :
    insertAll (s.filter (· < c)) (insertionsOf s k c) = s.filter (· < c + k) := by
  induction k generalizing c with
  | zero => rfl
  | succ k ih =>
    have hone := insertAll_placesOf c [] s
    rw [List.nil_append, List.nil_append] at hone
    rw [insertionsOf, insertAll_append]
    show insertAll (insertAll _ ((placesOf c s ([] : List Nat).length).map _)) _ = _
    rw [hone, ih (c + 1), show c + 1 + k = c + (k + 1) by omega]

theorem length_placesOf (c : Nat) (s : List Nat) (seen : Nat) :
    (placesOf c s seen).length + (s.filter (· < c)).length = (s.filter (· < c + 1)).length := by
  induction s generalizing seen with
  | nil => rfl
  | cons x s ih =>
    rw [placesOf_cons, List.filter_cons, List.filter_cons]
    have h1 := ih (seen + 1)
    have h0 := ih seen
    rcases Nat.lt_trichotomy x c with hlt | heq | hgt
    · have hsucc : x < c + 1 := by omega
      simp only [hlt, hsucc, decide_true, if_true, List.length_cons]
      omega
    · simp only [heq, Nat.lt_irrefl, Nat.lt_succ_self, decide_true, decide_false, if_true, if_false,
        List.length_cons, Bool.false_eq_true]
      omega
    · have hc : ¬ x < c := by omega
      have hsucc : ¬ x < c + 1 := by omega
      have hne : x ≠ c := by omega
      simp only [hc, hsucc, hne, decide_false, if_false, Bool.false_eq_true]
      exact h0

theorem placesOf_absent {c : Nat} {s : List Nat} (h : c ∉ s) (seen : Nat) : placesOf c s seen = [] := by
  induction s generalizing seen with
  | nil => rfl
  | cons x s ih =>
    simp only [List.mem_cons, not_or] at h
    rw [placesOf_cons, ih h.2, ih h.2, if_neg (Ne.symm h.1), ite_self]

theorem insertionsOf_absent {s : List Nat} {k c : Nat} (h : ∀ x, c ≤ x → x < c + k → x ∉ s) :
    insertionsOf s k c = [] := by
  induction k generalizing c with
  | zero => rfl
  | succ k ih =>
    rw [insertionsOf, placesOf_absent (h c (Nat.le_refl c) (by omega)),
      ih (fun x hx hk => h x (by omega) (by omega))]
    rfl

theorem insertionsOf_add (s : List Nat) (j k c : Nat) :
    insertionsOf s (j + k) c = insertionsOf s j c ++ insertionsOf s k (c + j) := by
  induction j generalizing c with
  | zero => rw [Nat.zero_add]; rfl
  | succ j ih =>
    rw [Nat.add_right_comm, insertionsOf, ih, insertionsOf, List.append_assoc,
      Nat.add_right_comm c 1 j]
    rfl

theorem length_insertAll (out : List Nat) (xs : List (Nat × Nat)) :
    (insertAll out xs).length = out.length + xs.length := by
  induction xs generalizing out with
  | nil => rfl
  | cons x xs ih =>
    rw [insertAll, ih]
    simp only [List.length_append, List.length_take, List.length_cons, List.length_drop]
    omega

theorem filter_lt_length_lt {s : List Nat} {n : Nat} :
    (s.filter (· < n)).length < s.length ↔ ∃ x ∈ s, n ≤ x := by
  simp [List.length_filter_lt_length_iff_exists]

theorem filter_lt_congr {s : List Nat} {n m : Nat} (hnm : n ≤ m) (hmin : ∀ y ∈ s, n ≤ y → m ≤ y) :
    s.filter (· < n) = s.filter (· < m) := by
  apply List.filter_congr
  intro x hx
  have hx' := hmin x hx
  have hiff : x < n ↔ x < m := by omega
  simpa using hiff

end Radare.Framework
