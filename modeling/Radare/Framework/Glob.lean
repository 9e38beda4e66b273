import Mathlib.Computability.Language

namespace Radare.Framework.Glob

variable {α : Type} [DecidableEq α] {star g : α} {gs s u v : List α}

/-- The words that a pattern stands for: a star for any word, another letter for itself. -/
def language (star : α) : List α → Language α
  | [] => 1
  | g :: gs => (if g = star then ⊤ else {[g]}) * language star gs

theorem mem_nil : s ∈ language star [] ↔ s = [] := Language.mem_one s

theorem mem_star : s ∈ language star (star :: gs) ↔ ∃ t, t <:+ s ∧ t ∈ language star gs := by
  rw [language, if_pos rfl, Language.mem_mul]
  constructor
  · rintro ⟨a, -, t, ht, rfl⟩
    exact ⟨t, List.suffix_append a t, ht⟩
  · rintro ⟨t, ⟨a, ha⟩, ht⟩
    exact ⟨a, trivial, t, ht, ha⟩

theorem mem_cons (hg : g ≠ star) : s ∈ language star (g :: gs) ↔ ∃ t, s = g :: t ∧ t ∈ language star gs := by
  rw [language, if_neg hg, Language.mem_mul]
  constructor
  · rintro ⟨a, ha, t, ht, rfl⟩
    rw [Set.mem_singleton_iff.mp ha]
    exact ⟨t, rfl, ht⟩
  · rintro ⟨t, rfl, ht⟩
    exact ⟨[g], rfl, t, ht, rfl⟩

theorem nil_mem_iff : [] ∈ language star gs ↔ ∀ g ∈ gs, g = star := by
  induction gs with
  | nil => simp [mem_nil]
  | cons g gs ih =>
    rw [List.forall_mem_cons]
    by_cases hg : g = star
    · rw [hg, mem_star, ← ih]
      constructor
      · rintro ⟨t, ht, hmem⟩
        rw [List.suffix_nil.mp ht] at hmem
        exact ⟨rfl, hmem⟩
      · exact fun h => ⟨[], List.suffix_refl [], h.2⟩
    · rw [mem_cons hg]
      exact iff_of_false (fun ⟨t, ht, _⟩ => by cases ht) (fun h => hg h.1)

/-- A pattern that begins with letters only. -/
theorem mem_append (hu : star ∉ u) : s ∈ language star (u ++ gs) ↔ ∃ t, s = u ++ t ∧ t ∈ language star gs := by
  induction u generalizing s with
  | nil => simp
  | cons c u ih =>
    rw [List.mem_cons, not_or] at hu
    rw [List.cons_append, mem_cons (Ne.symm hu.1)]
    constructor
    · rintro ⟨t, rfl, ht⟩
      obtain ⟨t', rfl, ht'⟩ := (ih hu.2).mp ht
      exact ⟨t', rfl, ht'⟩
    · rintro ⟨t, rfl, ht⟩
      exact ⟨u ++ t, rfl, (ih hu.2).mpr ⟨t, rfl, ht⟩⟩

/-- A star takes more. -/
theorem star_suffix {t : List α} (ht : t <:+ s) (h : t ∈ language star (star :: gs)) : s ∈ language star (star :: gs) := by
  obtain ⟨t', ht', hmem⟩ := mem_star.mp h
  exact mem_star.mpr ⟨t', ht'.trans ht, hmem⟩

/-- The earliest place for the letters between two stars will do. -/
theorem star_moves (hu : star ∉ u) :
    u ++ v ∈ language star (star :: (u ++ star :: gs)) ↔ v ∈ language star (star :: gs) := by
  constructor
  · intro h
    obtain ⟨t, ht, hmem⟩ := mem_star.mp h
    obtain ⟨w, rfl, hw⟩ := (mem_append hu).mp hmem
    have hlen := ht.length_le
    rw [List.length_append, List.length_append] at hlen
    exact star_suffix (List.suffix_of_suffix_length_le ((List.suffix_append u w).trans ht) (List.suffix_append u v)
      (by omega)) hw
  · exact fun h => mem_star.mpr ⟨u ++ v, List.suffix_refl _, (mem_append hu).mpr ⟨v, rfl, h⟩⟩

/-- Where the rest of the pattern does not match, the star takes one letter more. -/
theorem star_skip {c : α} (h : c :: s ∉ language star gs) :
    c :: s ∈ language star (star :: gs) ↔ s ∈ language star (star :: gs) := by
  constructor
  · intro hmem
    obtain ⟨t, ht, hmem⟩ := mem_star.mp hmem
    rcases List.suffix_cons_iff.mp ht with rfl | ht
    · exact absurd hmem h
    · exact mem_star.mpr ⟨t, ht, hmem⟩
  · exact star_suffix (List.suffix_cons c s)

/-- At the end of the word only stars may be left. -/
theorem star_end (hu : star ∉ u) : u ∈ language star (star :: (u ++ gs)) ↔ ∀ g ∈ gs, g = star := by
  rw [← nil_mem_iff]
  constructor
  · intro h
    obtain ⟨t, ht, hmem⟩ := mem_star.mp h
    obtain ⟨w, rfl, hw⟩ := (mem_append hu).mp hmem
    have hlen := ht.length_le
    rw [List.length_append] at hlen
    rw [List.length_eq_zero_iff.mp (show w.length = 0 by omega)] at hw
    exact hw
  · exact fun h => mem_star.mpr ⟨u, List.suffix_refl u, (mem_append hu).mpr ⟨[], (List.append_nil u).symm, h⟩⟩

/-- The first letter that differs. -/
theorem not_mem_of_ne {c : α} (hu : star ∉ u) (hgs : ∀ g ∈ gs.head?, g ≠ star ∧ g ≠ c) :
    u ++ c :: s ∉ language star (u ++ gs) := by
  intro h
  obtain ⟨t, ht, hmem⟩ := (mem_append hu).mp h
  rw [← List.append_cancel_left ht] at hmem
  cases gs with
  | nil => exact List.cons_ne_nil c s (mem_nil.mp hmem)
  | cons g gs =>
    obtain ⟨hg, hc⟩ := hgs g rfl
    obtain ⟨t', ht', -⟩ := (mem_cons hg).mp hmem
    exact hc (List.cons.inj ht').1.symm

end Radare.Framework.Glob
