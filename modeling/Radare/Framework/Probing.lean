import Mathlib.Combinatorics.Pigeonhole
import Mathlib.Logic.Function.Basic

namespace Radare.Framework

section

variable {κ : Type} [DecidableEq κ]

/-- Linear probing: the first slot from `j` on that is empty or holds `x`. -/
def probe (size : Nat) (t : Nat → Option κ) (x : κ) : Nat → Nat → Option Nat
  | 0, _ => none
  | fuel + 1, j =>
    match t j with
    | none => some j
    | some y => if y = x then some j else probe size t x fuel ((j + 1) % size)

theorem probe_spec {size fuel j s : Nat} {t : Nat → Option κ} {x : κ}
    (h : probe size t x fuel j = some s) : t s = none ∨ t s = some x := by
  induction fuel generalizing j with
  | zero => cases h
  | succ fuel ih =>
    rw [probe] at h
    cases hj : t j with
    | none =>
      rw [hj] at h
      obtain rfl := Option.some.inj h
      exact .inl hj
    | some y =>
      rw [hj] at h
      dsimp only at h
      split_ifs at h with hy
      · obtain rfl := Option.some.inj h
        exact .inr (hy ▸ hj)
      · exact ih h

theorem probe_lt {size fuel j s : Nat} {t : Nat → Option κ} {x : κ} (hj : j < size)
    (h : probe size t x fuel j = some s) : s < size := by
  induction fuel generalizing j with
  | zero => cases h
  | succ fuel ih =>
    rw [probe] at h
    split at h
    · obtain rfl := Option.some.inj h
      exact hj
    · split_ifs at h
      · obtain rfl := Option.some.inj h
        exact hj
      · exact ih (Nat.mod_lt _ (by omega)) h

/-- A probe ends at the latest where a slot is empty. -/
theorem probe_ends {size fuel j d : Nat} {t : Nat → Option κ} (x : κ) (hj : j < size) (hd : d < fuel)
    (hempty : t ((j + d) % size) = none) : ∃ s, probe size t x fuel j = some s := by
  induction fuel generalizing j d with
  | zero => omega
  | succ fuel ih =>
    rw [probe]
    cases htj : t j with
    | none => exact ⟨j, rfl⟩
    | some y =>
      dsimp only
      split_ifs
      · exact ⟨j, rfl⟩
      · cases d with
        | zero =>
          rw [Nat.add_zero, Nat.mod_eq_of_lt hj, htj] at hempty
          cases hempty
        | succ d =>
          apply ih (Nat.mod_lt _ (by omega)) (Nat.lt_of_succ_lt_succ hd)
          rw [Nat.mod_add_mod, ← hempty]
          congr 2
          omega

theorem probe_total {size j s : Nat} {t : Nat → Option κ} (x : κ) (hj : j < size) (hs : s < size)
    (hempty : t s = none) : ∃ s, probe size t x size j = some s := by
  by_cases hjs : j ≤ s
  · apply probe_ends (d := s - j) x hj (by omega)
    rwa [Nat.add_sub_cancel' hjs, Nat.mod_eq_of_lt hs]
  · apply probe_ends (d := s + size - j) x hj (by omega)
    rwa [show j + (s + size - j) = s + size by omega, Nat.add_mod_right, Nat.mod_eq_of_lt hs]

/-- What was put where its probe ended is found there. -/
theorem probe_insert_self {size fuel j s : Nat} {t : Nat → Option κ} {x : κ}
    (h : probe size t x fuel j = some s) :
    probe size (Function.update t s (some x)) x fuel j = some s := by
  have hs := probe_spec h
  induction fuel generalizing j with
  | zero => cases h
  | succ fuel ih =>
    rw [probe] at h ⊢
    by_cases hjs : j = s
    · rw [hjs, Function.update_self]
      exact if_pos rfl
    · rw [Function.update_of_ne hjs]
      cases hj : t j with
      | none =>
        rw [hj] at h
        exact h
      | some y =>
        rw [hj] at h
        dsimp only at h ⊢
        split_ifs at h ⊢ with hy
        · exact h
        · exact ih h

/-- And what was found before is found where it was. -/
theorem probe_insert_other {size fuel j s s' : Nat} {t : Nat → Option κ} {x y : κ}
    (hs : t s = none ∨ t s = some x) (h : probe size t y fuel j = some s') (hy : t s' = some y) :
    probe size (Function.update t s (some x)) y fuel j = some s' := by
  induction fuel generalizing j with
  | zero => cases h
  | succ fuel ih =>
    rw [probe] at h ⊢
    cases hj : t j with
    | none =>
      rw [hj] at h
      obtain rfl := Option.some.inj h
      rw [hj] at hy
      cases hy
    | some z =>
      have hsame : Function.update t s (some x) j = some z := by
        by_cases hjs : j = s
        · subst hjs
          rw [Function.update_self]
          rcases hs with hs | hs
          · rw [hs] at hj
            cases hj
          · rw [← hs, hj]
        · rw [Function.update_of_ne hjs, hj]
      rw [hj] at h
      rw [hsame]
      dsimp only at h ⊢
      split_ifs at h ⊢ with hz
      · exact h
      · exact ih h

/-- Whatever the table holds is found from the start of its probe. -/
def Placed (size : Nat) (start : κ → Nat) (t : Nat → Option κ) : Prop :=
  ∀ s x, t s = some x → probe size t x size (start x) = some s

theorem placed_empty (size : Nat) (start : κ → Nat) : Placed size start (fun _ => none) := by
  intro s x h
  cases h

theorem Placed.insert {size s : Nat} {start : κ → Nat} {t : Nat → Option κ} {x : κ}
    (h : Placed size start t) (hs : probe size t x size (start x) = some s) :
    Placed size start (Function.update t s (some x)) := by
  intro s' y hy
  by_cases hss : s' = s
  · rw [hss, Function.update_self] at hy
    obtain rfl := Option.some.inj hy
    rw [hss]
    exact probe_insert_self hs
  · rw [Function.update_of_ne hss] at hy
    exact probe_insert_other (probe_spec hs) (h s' y hy) hy

end

/-- Fewer items than slots leave a slot empty, where each item is in one slot. -/
theorem exists_empty_slot {size n : Nat} (used : Nat → Prop) (item slot : Nat → Nat) (hn : n < size)
    (hitem : ∀ s, used s → item s < n) (hslot : ∀ s, used s → slot (item s) = s) :
    ∃ s < size, ¬ used s := by
  by_contra hnone
  have hall : ∀ s < size, used s := by
    intro s hs
    by_contra hu
    exact hnone ⟨s, hs, hu⟩
  obtain ⟨s, hs, s', hs', hne, heq⟩ := Finset.exists_ne_map_eq_of_card_lt_of_maps_to
    (s := Finset.range size) (t := Finset.range n) (f := item) (by simpa using hn) (by
      intro s hs
      simpa using hitem s (hall s (by simpa using hs)))
  apply hne
  rw [← hslot s (hall s (by simpa using hs)), heq, hslot s' (hall s' (by simpa using hs'))]

end Radare.Framework
