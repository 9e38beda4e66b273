import Mathlib.Data.List.TakeWhile

namespace Radare.Framework

section Simulates

variable {ε α β γ δ : Type} {e : ε} {R R' : α → β → Prop} {S : γ → δ → Prop}

/-- A run answers where the function does, and fails with `e` where the function has no answer. -/
inductive Simulates (e : ε) (R : α → β → Prop) : Except ε α → Option β → Prop where
  | ok {x : α} {y : β} (h : R x y) : Simulates e R (.ok x) (some y)
  | failed : Simulates e R (.error e) none

theorem Simulates.bind {run : Except ε α} {answer : Option β} {f : α → Except ε γ} {g : β → Option δ}
    (h : Simulates e R run answer) (hf : ∀ x y, answer = some y → R x y → Simulates e S (f x) (g y)) :
    Simulates e S (run >>= f) (answer >>= g) := by
  cases h with
  | ok hxy => exact hf _ _ rfl hxy
  | failed => exact Simulates.failed

theorem Simulates.ok_iff {run : Except ε α} {answer : Option β} (h : Simulates e R run answer) :
    (∃ x, run = .ok x) ↔ answer ≠ none := by
  cases h with
  | ok _ => exact iff_of_true ⟨_, rfl⟩ (Option.some_ne_none _)
  | failed => exact iff_of_false (fun ⟨_, h⟩ => by cases h) (fun h => h rfl)

end Simulates

section Cursor

variable {α : Type} {text s rest : List α} {p : Nat}

/-- The cursor stands at the `p`th letter of the text, where `s` is left. -/
structure At (text : List α) (p : Nat) (s : List α) : Prop where
  le : p ≤ text.length
  drop : text.drop p = s

theorem At.start (text : List α) : At text 0 text := ⟨Nat.zero_le _, rfl⟩

theorem At.length (h : At text p s) : p + s.length = text.length := by
  have hle := h.le
  rw [← h.drop, List.length_drop]
  omega

theorem At.move {n : Nat} (h : At text p s) (hn : n ≤ s.length) : At text (p + n) (s.drop n) := by
  have hlen := h.length
  exact ⟨by omega, by rw [← h.drop, List.drop_drop]⟩

theorem At.next {c : α} (h : At text p (c :: s)) : At text (p + 1) s := h.move (n := 1) (Nat.succ_le_succ (Nat.zero_le _))

theorem At.suffix (h : At text p s) : s <:+ text := by
  rw [← h.drop]
  exact List.drop_suffix p text

theorem At.behind (h : At text p (s ++ rest)) : At text (p + s.length) rest := by
  have hmove := h.move (n := s.length) (by simp)
  rwa [List.drop_left] at hmove

theorem headD_eq {c stop : α} (hc : c ≠ stop) : s.headD stop = c ↔ s.head? = some c := by
  cases s with
  | nil => exact iff_of_false (fun h => hc h.symm) (fun h => by cases h)
  | cons d s => exact ⟨congrArg some, Option.some.inj⟩

/-- The letter at the cursor, and the terminator behind the text. -/
def fetch (stop : α) (text : List α) (p : Nat) : Option α := (text ++ [stop])[p]?

theorem At.fetch (h : At text p s) (stop : α) : fetch stop text p = some (s.headD stop) := by
  have hlen := h.length
  rw [Framework.fetch]
  cases s with
  | nil =>
    have hp : p = text.length := hlen
    rw [hp, List.getElem?_concat_length]
    rfl
  | cons c s =>
    rw [List.length_cons] at hlen
    have hget : text[p]? = some c := by
      rw [← Nat.add_zero p, ← List.getElem?_drop, h.drop]
      rfl
    rw [List.getElem?_append_left (by omega), hget]
    rfl

/-- Where a letter is read, a cursor stands. -/
theorem At.of_fetch {c stop : α} (h : Framework.fetch stop text p = some c) :
    At text p (text.drop p) ∧ (text.drop p).headD stop = c := by
  have hp : p < (text ++ [stop]).length := (List.getElem?_eq_some_iff.mp h).1
  rw [List.length_append, List.length_singleton] at hp
  have hat : At text p (text.drop p) := ⟨by omega, rfl⟩
  rw [hat.fetch] at h
  exact ⟨hat, Option.some.inj h⟩

theorem fetch_end (stop : α) (text : List α) : fetch stop text (text.length + 1) = none := by
  rw [fetch, List.getElem?_eq_none (by simp)]

/-- In a text without the terminator, only the end looks like it. -/
theorem At.headD_iff {stop : α} (hstop : stop ∉ text) (h : At text p s) : s.headD stop = stop ↔ s = [] := by
  cases s with
  | nil => exact iff_of_true rfl rfl
  | cons c s =>
    refine iff_of_false (fun heq => hstop ?_) (List.cons_ne_nil c s)
    have hc : c = stop := heq
    rw [← hc]
    exact h.suffix.mem List.mem_cons_self

end Cursor

end Radare.Framework
