import Mathlib.Data.List.Infix

namespace Radare.Framework.CString

variable {α : Type} [DecidableEq α]

/-- `strchr`, for a character that is not the terminator. -/
def strchr (c : α) : List α → Option (List α)
  | [] => none
  | d :: s => if d = c then some (d :: s) else strchr c s

/-- `strstr`. -/
def strstr (needle : List α) : List α → Option (List α)
  | [] => if needle = [] then some [] else none
  | d :: s => if needle <+: d :: s then some (d :: s) else strstr needle s

theorem strchr_cons (c d : α) (s : List α) :
    strchr c (d :: s) = if d = c then some (d :: s) else strchr c s := rfl

theorem strstr_nil (needle : List α) : strstr needle [] = if needle = [] then some [] else none := rfl

theorem strstr_cons (needle : List α) (d : α) (s : List α) :
    strstr needle (d :: s) = if needle <+: d :: s then some (d :: s) else strstr needle s := rfl

theorem strchr_append {c : α} {s : List α} (h : c ∉ s) (t : List α) : strchr c (s ++ c :: t) = some (c :: t) := by
  induction s with
  | nil => rw [List.nil_append, strchr_cons, if_pos rfl]
  | cons d s ih =>
    rw [List.mem_cons, not_or] at h
    rw [List.cons_append, strchr_cons, if_neg (Ne.symm h.1), ih h.2]

/-- What is found is a suffix that begins with the character. -/
theorem strchr_eq_some {c : α} {s t : List α} (h : strchr c s = some t) : t <:+ s ∧ ∃ u, t = c :: u := by
  induction s with
  | nil => cases h
  | cons d s ih =>
    rw [strchr_cons] at h
    split_ifs at h with hd
    · rw [Option.some.injEq] at h
      exact ⟨by rw [h], s, by rw [← h, hd]⟩
    · obtain ⟨hsuffix, hu⟩ := ih h
      exact ⟨hsuffix.trans (List.suffix_cons d s), hu⟩

theorem strstr_eq_some {needle s t : List α} (h : strstr needle s = some t) : t <:+ s ∧ needle <+: t := by
  induction s with
  | nil =>
    rw [strstr_nil] at h
    split_ifs at h with hn
    rw [Option.some.injEq] at h
    exact ⟨by rw [h], by rw [hn]; exact List.nil_prefix⟩
  | cons d s ih =>
    rw [strstr_cons] at h
    split_ifs at h with hd
    · rw [Option.some.injEq] at h
      exact ⟨by rw [h], by rw [← h]; exact hd⟩
    · obtain ⟨hsuffix, hp⟩ := ih h
      exact ⟨hsuffix.trans (List.suffix_cons d s), hp⟩

/-- What is looked for is found exactly if it occurs. -/
theorem strstr_eq_none_iff {needle s : List α} : strstr needle s = none ↔ ¬needle <:+: s := by
  induction s with
  | nil =>
    rw [strstr_nil, List.infix_nil]
    split_ifs with hn <;> simp [hn]
  | cons d s ih =>
    rw [strstr_cons, List.infix_cons_iff]
    split_ifs with hd
    · simp [hd]
    · rw [ih]
      simp [hd]

/-- What is looked for is found where it first stands. -/
theorem strstr_first {needle s : List α} {i : Nat} (hne : needle ≠ []) (h : needle <+: s.drop i)
    (hfirst : ∀ j < i, ¬needle <+: s.drop j) : strstr needle s = some (s.drop i) := by
  induction s generalizing i with
  | nil =>
    rw [List.drop_nil, List.prefix_nil] at h
    exact absurd h hne
  | cons d s ih =>
    cases i with
    | zero =>
      rw [List.drop_zero] at h ⊢
      rw [strstr_cons, if_pos h]
    | succ i =>
      have hhead := hfirst 0 (Nat.succ_pos i)
      rw [List.drop_zero] at hhead
      rw [strstr_cons, if_neg hhead, List.drop_succ_cons]
      exact ih h fun j hj => hfirst (j + 1) (Nat.succ_lt_succ hj)

/-- Two different characters are found behind a text that they do not stand in. -/
theorem strstr_pair {a b : α} (hab : a ≠ b) {s : List α} (h : ¬[a, b] <:+: s) (t : List α) :
    strstr [a, b] (s ++ a :: b :: t) = some (a :: b :: t) := by
  induction s with
  | nil => rw [List.nil_append, strstr_cons, if_pos (by simp)]
  | cons d s ih =>
    have hs : ¬[a, b] <:+: s := fun hin => h (hin.trans (List.suffix_cons d s).isInfix)
    have hhead : ¬[a, b] <+: d :: (s ++ a :: b :: t) := by
      intro hp
      obtain ⟨hd, hnext⟩ := List.cons_prefix_cons.mp hp
      cases s with
      | nil => exact hab (List.cons_prefix_cons.mp hnext).1.symm
      | cons e s =>
        have he := (List.cons_prefix_cons.mp hnext).1
        exact h ⟨[], s, by rw [hd, he]; rfl⟩
    rw [List.cons_append, strstr_cons, if_neg hhead, ih hs]

end Radare.Framework.CString
