import Mathlib.Tactic.SplitIfs

namespace Radare.Framework

section

variable {κ : Type} (α β : Nat → κ) (rare : κ → Prop)

/-- Two places of two words meet where they hold the same rare symbol. -/
def Meets (i j : Nat) : Prop := rare (α i) ∧ α i = β j

/-- A run of length `k` from `(p, q)` on. -/
structure RunFrom (p q k : Nat) : Prop where
  meets : ∀ d, d + 1 < k → Meets α β rare (p + d) (q + d)
  apart : ∀ d, d + 1 < k → ¬ Meets α β rare (p + d + 1) (q + d)

variable {α β rare}

theorem RunFrom.one (p q : Nat) : RunFrom α β rare p q 1 := by
  constructor
  · intro d hd
    omega
  · intro d hd
    omega

/-- Where a copy of a block stands in the same rows or in the same columns, a run along the block
has a run of its length beside it. -/
theorem RunFrom.parallel {p q p' q' k : Nat} (h : RunFrom α β rare p q k)
    (hlast : ∀ d, d + 1 = k → Meets α β rare (p + d) (q + d))
    (hcopy : ∀ d < k, α (p' + d) = β (q' + d)) (hside : p' = p ∨ q' = q) :
    RunFrom α β rare p' q' k ∧ ∀ d < k, Meets α β rare (p' + d) (q' + d) := by
  have hall : ∀ d < k, Meets α β rare (p + d) (q + d) := by
    intro d hd
    by_cases hl : d + 1 = k
    · exact hlast d hl
    · exact h.meets d (by omega)
  have hmeet : ∀ d < k, Meets α β rare (p' + d) (q' + d) := by
    intro d hd
    obtain ⟨hrare, hsame⟩ := hall d hd
    refine ⟨?_, hcopy d hd⟩
    rcases hside with rfl | rfl
    · exact hrare
    · rwa [hcopy d hd, ← hsame]
  refine ⟨⟨fun d hd => hmeet d (by omega), ?_⟩, hmeet⟩
  rintro d hd ⟨hrare, hsame⟩
  apply h.apart d hd
  have h0 := (hall d (by omega)).2
  have h1 := (hall (d + 1) hd).2
  have c0 := hcopy d (by omega)
  have c1 := hcopy (d + 1) hd
  rw [← Nat.add_assoc] at h1 c1
  rcases hside with rfl | rfl
  · exact ⟨hrare, by rw [hsame, ← c0, h0]⟩
  · have hα : α (p + d + 1) = α (p' + d + 1) := h1.trans c1.symm
    exact ⟨hα ▸ hrare, hα.trans hsame⟩

/-- The length of a run of meeting places that ends at `(i, j)`, in the words from `a1` and `b1` on.
A run also ends where the next place of the first word meets the last one of the second. -/
def runLen (α β : Nat → κ) (rare : κ → Prop) [∀ i j, Decidable (Meets α β rare i j)]
    (a1 b1 : Nat) : Nat → Nat → Nat
  | i + 1, j + 1 =>
    if a1 ≤ i ∧ b1 ≤ j ∧ Meets α β rare i j ∧ ¬ Meets α β rare (i + 1) j then
      runLen α β rare a1 b1 i j + 1
    else 1
  | 0, _ => 1
  | _, 0 => 1

variable [∀ i j, Decidable (Meets α β rare i j)] {a1 b1 : Nat}

theorem runLen_pos (i j : Nat) : 1 ≤ runLen α β rare a1 b1 i j := by
  cases i with
  | zero => exact Nat.le_refl 1
  | succ i =>
    cases j with
    | zero => exact Nat.le_refl 1
    | succ j =>
      rw [runLen]
      split <;> omega

theorem runLen_run (α β : Nat → κ) (rare : κ → Prop) [∀ i j, Decidable (Meets α β rare i j)]
    {i j : Nat} (hi : a1 ≤ i) (hj : b1 ≤ j) :
    ∃ p q, i + 1 = p + runLen α β rare a1 b1 i j ∧ j + 1 = q + runLen α β rare a1 b1 i j ∧
      a1 ≤ p ∧ b1 ≤ q ∧ RunFrom α β rare p q (runLen α β rare a1 b1 i j) := by
  induction i generalizing j with
  | zero =>
    exact ⟨0, j, rfl, rfl, hi, hj, RunFrom.one 0 j⟩
  | succ i ih =>
    cases j with
    | zero =>
      exact ⟨i + 1, 0, rfl, rfl, hi, hj, RunFrom.one (i + 1) 0⟩
    | succ j =>
      rw [runLen]
      split_ifs with hstep
      · obtain ⟨hai, hbj, hmeet, hapart⟩ := hstep
        obtain ⟨p, q, hp, hq, hap, hbq, hrun⟩ := ih hai hbj
        generalize runLen α β rare a1 b1 i j = k at hp hq hrun
        refine ⟨p, q, by omega, by omega, hap, hbq, ?_, ?_⟩
        · intro d hd
          by_cases hlast : d + 1 < k
          · exact hrun.meets d hlast
          · rwa [show p + d = i by omega, show q + d = j by omega]
        · intro d hd
          by_cases hlast : d + 1 < k
          · exact hrun.apart d hlast
          · rwa [show p + d = i by omega, show q + d = j by omega]
      · exact ⟨i + 1, j + 1, rfl, rfl, hi, hj, RunFrom.one (i + 1) (j + 1)⟩

theorem RunFrom.le_runLen {p q k i j : Nat} (h : RunFrom α β rare p q k) (hp : a1 ≤ p) (hq : b1 ≤ q)
    (hi : i + 1 = p + k) (hj : j + 1 = q + k) : k ≤ runLen α β rare a1 b1 i j := by
  induction k generalizing i j with
  | zero => exact Nat.zero_le _
  | succ k ih =>
    cases k with
    | zero => exact runLen_pos i j
    | succ k =>
      obtain ⟨i, rfl⟩ : ∃ i', i = i' + 1 := ⟨p + k, by omega⟩
      obtain ⟨j, rfl⟩ : ∃ j', j = j' + 1 := ⟨q + k, by omega⟩
      have hmeet := h.meets k (by omega)
      have hapart := h.apart k (by omega)
      rw [show p + k = i by omega, show q + k = j by omega] at hmeet
      rw [show p + k + 1 = i + 1 by omega, show q + k = j by omega] at hapart
      have hrun : RunFrom α β rare p q (k + 1) :=
        ⟨fun d hd => h.meets d (by omega), fun d hd => h.apart d (by omega)⟩
      have hle := ih hrun (show i + 1 = p + (k + 1) by omega) (show j + 1 = q + (k + 1) by omega)
      rw [runLen, if_pos ⟨by omega, by omega, hmeet, hapart⟩]
      omega

end

end Radare.Framework
