import Mathlib.Data.List.Nodup
import Mathlib.Data.List.Perm.Subperm
import Mathlib.Logic.Function.Basic

namespace Radare.Framework

variable {ι κ : Type} {key key' : ι → κ} {xs ys : List ι}

/-- A map that finds every element of a collection at its own key, and nothing else. -/
def Indexes (key : ι → κ) (xs : List ι) (m : κ → Option ι) : Prop :=
  ∀ k i, m k = some i ↔ i ∈ xs ∧ key i = k

/-- A map that holds, for each key in use, the elements with that key, each once. -/
structure Groups (key : ι → κ) (xs : List ι) (m : κ → Option (List ι)) : Prop where
  mem : ∀ k i, i ∈ (m k).getD [] ↔ i ∈ xs ∧ key i = k
  nodup : ∀ k, ((m k).getD []).Nodup
  full : ∀ k, m k ≠ some []

theorem Indexes.empty : Indexes key [] (fun _ => none) := by
  intro k i
  simp

theorem Indexes.key_inj {m : κ → Option ι} (h : Indexes key xs m) {i j : ι} (hi : i ∈ xs) (hj : j ∈ xs)
    (hk : key i = key j) : i = j := by
  have h1 := (h (key j) i).mpr ⟨hi, hk⟩
  have h2 := (h (key j) j).mpr ⟨hj, rfl⟩
  exact Option.some.inj (h1.symm.trans h2)

theorem Indexes.find {m : κ → Option ι} (h : Indexes key xs m) {i : ι} (hi : i ∈ xs) :
    m (key i) = some i :=
  (h (key i) i).mpr ⟨hi, rfl⟩

/-- Only the members and their keys matter. -/
theorem Indexes.congr {m : κ → Option ι} (h : Indexes key xs m) (hm : ∀ i, i ∈ ys ↔ i ∈ xs)
    (hk : ∀ i ∈ ys, key' i = key i) : Indexes key' ys m := by
  intro k i
  rw [h k i]
  constructor
  · rintro ⟨hi, rfl⟩
    have hy := (hm i).mpr hi
    exact ⟨hy, hk i hy⟩
  · rintro ⟨hy, rfl⟩
    exact ⟨(hm i).mp hy, (hk i hy).symm⟩

theorem Indexes.insert [DecidableEq κ] {m : κ → Option ι} (h : Indexes key xs m) {i : ι}
    (hnew : m (key i) = none) : Indexes key (xs ++ [i]) (Function.update m (key i) (some i)) := by
  intro k j
  rw [List.mem_append, List.mem_singleton]
  by_cases hk : k = key i
  · subst hk
    rw [Function.update_self]
    constructor
    · intro hj
      cases hj
      exact ⟨Or.inr rfl, rfl⟩
    · rintro ⟨hj | rfl, hkey⟩
      · have hfound := (h (key i) j).mpr ⟨hj, hkey⟩
        rw [hnew] at hfound
        cases hfound
      · rfl
  · rw [Function.update_of_ne hk, h k j]
    constructor
    · rintro ⟨hj, hkey⟩
      exact ⟨Or.inl hj, hkey⟩
    · rintro ⟨hj | rfl, hkey⟩
      · exact ⟨hj, hkey⟩
      · exact absurd hkey.symm hk

theorem Indexes.erase [DecidableEq κ] [DecidableEq ι] {m : κ → Option ι} (h : Indexes key xs m)
    (hnd : xs.Nodup) {i : ι} (hi : i ∈ xs) :
    Indexes key (xs.erase i) (Function.update m (key i) none) := by
  intro k j
  rw [hnd.mem_erase_iff]
  by_cases hk : k = key i
  · subst hk
    rw [Function.update_self]
    constructor
    · intro hj
      cases hj
    · rintro ⟨⟨hne, hj⟩, hkey⟩
      exact absurd (h.key_inj hj hi hkey) hne
  · rw [Function.update_of_ne hk, h k j]
    constructor
    · rintro ⟨hj, hkey⟩
      refine ⟨⟨?_, hj⟩, hkey⟩
      rintro rfl
      exact hk hkey.symm
    · rintro ⟨⟨-, hj⟩, hkey⟩
      exact ⟨hj, hkey⟩

theorem Groups.empty : Groups key [] (fun _ => none) := by
  refine ⟨fun k i => ?_, fun _ => List.nodup_nil, fun _ => by simp⟩
  simp

theorem Groups.congr {m : κ → Option (List ι)} (h : Groups key xs m) (hm : ∀ i, i ∈ ys ↔ i ∈ xs)
    (hk : ∀ i ∈ ys, key' i = key i) : Groups key' ys m := by
  refine ⟨fun k i => ?_, h.nodup, h.full⟩
  rw [h.mem k i]
  constructor
  · rintro ⟨hi, rfl⟩
    have hy := (hm i).mpr hi
    exact ⟨hy, hk i hy⟩
  · rintro ⟨hy, rfl⟩
    exact ⟨(hm i).mp hy, (hk i hy).symm⟩

theorem Groups.find {m : κ → Option (List ι)} (h : Groups key xs m) {i : ι} (hi : i ∈ xs) :
    ∃ l, m (key i) = some l ∧ i ∈ l := by
  have hmem := (h.mem (key i) i).mpr ⟨hi, rfl⟩
  cases hl : m (key i) with
  | none => simp [hl] at hmem
  | some l => exact ⟨l, rfl, by simpa [hl] using hmem⟩

/-- An element joins the group of its key. -/
theorem Groups.add [DecidableEq κ] {m : κ → Option (List ι)} (h : Groups key xs m) {i : ι} (hi : i ∉ xs) :
    Groups key (xs ++ [i]) (Function.update m (key i) (some ((m (key i)).getD [] ++ [i]))) := by
  refine ⟨fun k j => ?_, fun k => ?_, fun k => ?_⟩
  · rw [List.mem_append, List.mem_singleton]
    by_cases hk : k = key i
    · subst hk
      rw [Function.update_self, Option.getD_some, List.mem_append, List.mem_singleton, h.mem]
      constructor
      · rintro (⟨hj, hkey⟩ | rfl)
        · exact ⟨Or.inl hj, hkey⟩
        · exact ⟨Or.inr rfl, rfl⟩
      · rintro ⟨hj | rfl, hkey⟩
        · exact Or.inl ⟨hj, hkey⟩
        · exact Or.inr rfl
    · rw [Function.update_of_ne hk, h.mem]
      constructor
      · rintro ⟨hj, hkey⟩
        exact ⟨Or.inl hj, hkey⟩
      · rintro ⟨hj | rfl, hkey⟩
        · exact ⟨hj, hkey⟩
        · exact absurd hkey.symm hk
  · by_cases hk : k = key i
    · subst hk
      rw [Function.update_self, Option.getD_some]
      refine List.nodup_append.mpr ⟨h.nodup _, List.nodup_singleton i, ?_⟩
      intro a ha b hb hab
      have hmem := (h.mem (key i) a).mp ha
      rw [List.mem_singleton] at hb
      subst hb
      subst hab
      exact hi hmem.1
    · rw [Function.update_of_ne hk]
      exact h.nodup k
  · by_cases hk : k = key i
    · subst hk
      simp
    · rw [Function.update_of_ne hk]
      exact h.full k

/-- What is left of a group without one element; a group that runs empty is dropped. -/
def shrink [DecidableEq ι] (l : List ι) (i : ι) : Option (List ι) :=
  if (l.erase i).isEmpty then none else some (l.erase i)

theorem shrink_getD [DecidableEq ι] (l : List ι) (i : ι) : (shrink l i).getD [] = l.erase i := by
  unfold shrink
  split
  · rename_i he
    rw [List.isEmpty_iff.mp he]
    rfl
  · rfl

theorem shrink_ne_nil [DecidableEq ι] (l : List ι) (i : ι) : shrink l i ≠ some [] := by
  unfold shrink
  split
  · simp
  · rename_i he
    intro h
    rw [Option.some.inj h] at he
    simp at he

/-- An element leaves the group of its key. -/
theorem Groups.remove [DecidableEq κ] [DecidableEq ι] {m : κ → Option (List ι)} (h : Groups key xs m)
    (hnd : xs.Nodup) {i : ι} {l : List ι} (hl : m (key i) = some l) :
    Groups key (xs.erase i) (Function.update m (key i) (shrink l i)) := by
  have hget : (m (key i)).getD [] = l := by rw [hl]; rfl
  refine ⟨fun k j => ?_, fun k => ?_, fun k => ?_⟩
  · rw [hnd.mem_erase_iff]
    by_cases hk : k = key i
    · subst hk
      have hmem := h.mem (key i) j
      have hln := h.nodup (key i)
      rw [hget] at hmem hln
      rw [Function.update_self, shrink_getD, hln.mem_erase_iff, hmem]
      tauto
    · rw [Function.update_of_ne hk, h.mem]
      constructor
      · rintro ⟨hj, hkey⟩
        refine ⟨⟨?_, hj⟩, hkey⟩
        rintro rfl
        exact hk hkey.symm
      · rintro ⟨⟨-, hj⟩, hkey⟩
        exact ⟨hj, hkey⟩
  · by_cases hk : k = key i
    · subst hk
      have hln := h.nodup (key i)
      rw [hget] at hln
      rw [Function.update_self, shrink_getD]
      exact hln.erase i
    · rw [Function.update_of_ne hk]
      exact h.nodup k
  · by_cases hk : k = key i
    · subst hk
      rw [Function.update_self]
      exact shrink_ne_nil l i
    · rw [Function.update_of_ne hk]
      exact h.full k

end Radare.Framework
