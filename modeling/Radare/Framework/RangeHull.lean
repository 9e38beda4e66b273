import Mathlib.Algebra.GroupWithZero.Nat
import Mathlib.Data.Set.Card
import Mathlib.Order.Interval.Finset.Nat
import Mathlib.Order.MinMax
import Radare.Framework.SeparatedRanges

namespace Radare.Framework

variable {α : Type} [LinearOrder α] {ps : List (α × α)} {p q r : α × α} {x : α}

/-- Ranges with a common point when their ends count. -/
def Touches (p q : α × α) : Prop := p.1 ≤ q.2 ∧ q.1 ≤ p.2

instance (p q : α × α) : Decidable (Touches p q) := inferInstanceAs (Decidable (_ ∧ _))

def hull (p q : α × α) : α × α := (min p.1 q.1, max p.2 q.2)

/-- A range put into a list: all that touch it grow to the hull, and only where there are none it
stands by itself. -/
def absorb (ps : List (α × α)) (q : α × α) : List (α × α) :=
  if ∃ p ∈ ps, Touches p q then ps.map (fun p => if Touches p q then hull p q else p) else ps ++ [q]

/-- Ranges that have no point in common, two by two. -/
def Apart (ps : List (α × α)) : Prop :=
  ps.Pairwise (fun p q => ∀ x, ¬((p.1 ≤ x ∧ x < p.2) ∧ (q.1 ≤ x ∧ x < q.2)))

/-- Ranges that touch leave no gap in their hull. -/
theorem mem_hull (ht : Touches p q) :
    ((hull p q).1 ≤ x ∧ x < (hull p q).2) ↔ (p.1 ≤ x ∧ x < p.2) ∨ (q.1 ≤ x ∧ x < q.2) := by
  obtain ⟨hpq, hqp⟩ := ht
  simp only [hull, min_le_iff, lt_max_iff]
  constructor
  · intro h
    obtain ⟨hlo | hlo, hhi | hhi⟩ := h
    · exact Or.inl ⟨hlo, hhi⟩
    · rcases lt_or_ge x p.2 with hx | hx
      · exact Or.inl ⟨hlo, hx⟩
      · exact Or.inr ⟨hqp.trans hx, hhi⟩
    · rcases lt_or_ge x q.2 with hx | hx
      · exact Or.inr ⟨hlo, hx⟩
      · exact Or.inl ⟨hpq.trans hx, hhi⟩
    · exact Or.inr ⟨hlo, hhi⟩
  · intro h
    rcases h with ⟨hlo, hhi⟩ | ⟨hlo, hhi⟩
    · exact ⟨Or.inl hlo, Or.inl hhi⟩
    · exact ⟨Or.inr hlo, Or.inr hhi⟩

theorem hull_ordered (hp : p.1 ≤ p.2) : (hull p q).1 ≤ (hull p q).2 :=
  (min_le_left p.1 q.1).trans (hp.trans (le_max_left p.2 q.2))

/-- An empty range changes nothing that it touches. -/
theorem hull_empty (ht : Touches p q) (hq : q.1 = q.2) : hull p q = p := by
  have hlo : p.1 ≤ q.1 := hq ▸ ht.1
  have hhi : q.2 ≤ p.2 := hq ▸ ht.2
  exact Prod.ext (min_eq_left hlo) (max_eq_left hhi)

theorem covered_cons (p : α × α) (ps : List (α × α)) (x : α) :
    Covered (p :: ps) x ↔ (p.1 ≤ x ∧ x < p.2) ∨ Covered ps x := by
  simp only [Covered, List.mem_cons, exists_eq_or_imp]

theorem covered_absorb (ps : List (α × α)) (q : α × α) (x : α) :
    Covered (absorb ps q) x ↔ Covered ps x ∨ (q.1 ≤ x ∧ x < q.2) := by
  unfold absorb
  split_ifs with h
  · obtain ⟨r, hr, hrq⟩ := h
    constructor
    · intro hx
      obtain ⟨s, hs, hx⟩ := hx
      obtain ⟨p, hp, rfl⟩ := List.mem_map.mp hs
      by_cases hpq : Touches p q
      · rw [if_pos hpq] at hx
        rcases (mem_hull hpq).mp hx with hx | hx
        · exact Or.inl ⟨p, hp, hx⟩
        · exact Or.inr hx
      · rw [if_neg hpq] at hx
        exact Or.inl ⟨p, hp, hx⟩
    · intro hx
      rcases hx with ⟨p, hp, hx⟩ | hx
      · refine ⟨_, List.mem_map_of_mem hp, ?_⟩
        by_cases hpq : Touches p q
        · rw [if_pos hpq]
          exact (mem_hull hpq).mpr (Or.inl hx)
        · rw [if_neg hpq]
          exact hx
      · refine ⟨_, List.mem_map_of_mem hr, ?_⟩
        rw [if_pos hrq]
        exact (mem_hull hrq).mpr (Or.inr hx)
  · exact covered_snoc ps q x

theorem absorb_ordered (hps : ∀ p ∈ ps, p.1 ≤ p.2) (hq : q.1 ≤ q.2) : ∀ p ∈ absorb ps q, p.1 ≤ p.2 := by
  intro s hs
  unfold absorb at hs
  split_ifs at hs with h
  · obtain ⟨p, hp, rfl⟩ := List.mem_map.mp hs
    by_cases hpq : Touches p q
    · rw [if_pos hpq]
      exact hull_ordered (hps p hp)
    · rw [if_neg hpq]
      exact hps p hp
  · rcases List.mem_append.mp hs with hs | hs
    · exact hps s hs
    · rw [List.mem_singleton.mp hs]
      exact hq

/-- Ranges that do not touch have no point in common. -/
theorem not_both_of_not_touches (ht : ¬Touches p q) :
    ¬((p.1 ≤ x ∧ x < p.2) ∧ (q.1 ≤ x ∧ x < q.2)) := by
  intro h
  exact ht ⟨h.1.1.trans h.2.2.le, h.2.1.trans h.1.2.le⟩

/-- The ranges stay apart exactly when the new one is empty or touches at most one of them. -/
theorem apart_absorb_iff (hq : q.1 ≤ q.2) (ha : Apart ps) :
    Apart (absorb ps q) ↔ q.1 = q.2 ∨ ps.Pairwise (fun p r => ¬(Touches p q ∧ Touches r q)) := by
  unfold absorb
  split_ifs with h
  · constructor
    · intro hout
      rcases eq_or_lt_of_le hq with he | hlt
      · exact Or.inl he
      · refine Or.inr ((List.pairwise_map.mp hout).imp_of_mem ?_)
        intro p r hp hr hpr hboth
        rw [if_pos hboth.1, if_pos hboth.2] at hpr
        have hin : q.1 ≤ q.1 ∧ q.1 < q.2 := ⟨le_rfl, hlt⟩
        exact hpr q.1 ⟨(mem_hull hboth.1).mpr (Or.inr hin), (mem_hull hboth.2).mpr (Or.inr hin)⟩
    · intro hone
      rcases hone with he | hone
      · have hsame : ps.map (fun p => if Touches p q then hull p q else p) = ps := by
          refine (List.map_congr_left ?_).trans (List.map_id ps)
          intro p hp
          by_cases hpq : Touches p q
          · rw [if_pos hpq, hull_empty hpq he]
            rfl
          · rw [if_neg hpq]
            rfl
        rw [hsame]
        exact ha
      · refine List.pairwise_map.mpr ((ha.and hone).imp_of_mem ?_)
        intro p r hp hr hpr x hx
        by_cases hpq : Touches p q
        · have hrq : ¬Touches r q := fun hrq => hpr.2 ⟨hpq, hrq⟩
          rw [if_pos hpq, if_neg hrq] at hx
          rcases (mem_hull hpq).mp hx.1 with hxp | hxq
          · exact hpr.1 x ⟨hxp, hx.2⟩
          · exact not_both_of_not_touches hrq ⟨hx.2, hxq⟩
        · by_cases hrq : Touches r q
          · rw [if_neg hpq, if_pos hrq] at hx
            rcases (mem_hull hrq).mp hx.2 with hxr | hxq
            · exact hpr.1 x ⟨hx.1, hxr⟩
            · exact not_both_of_not_touches hpq ⟨hx.1, hxq⟩
          · rw [if_neg hpq, if_neg hrq] at hx
            exact hpr.1 x hx
  · have hnone : ∀ p ∈ ps, ¬Touches p q := fun p hp hpq => h ⟨p, hp, hpq⟩
    constructor
    · intro _
      refine Or.inr (ha.imp_of_mem ?_)
      intro p r hp hr _ hboth
      exact hnone p hp hboth.1
    · intro _
      refine List.pairwise_append.mpr ⟨ha, List.pairwise_singleton _ q, ?_⟩
      intro p hp r hr x hx
      rw [List.mem_singleton.mp hr] at hx
      exact not_both_of_not_touches (hnone p hp) hx

theorem Apart.of_cons (ha : Apart (p :: ps)) :
    Apart ps ∧ ∀ x, p.1 ≤ x ∧ x < p.2 → ¬Covered ps x := by
  obtain ⟨hhead, htail⟩ := List.pairwise_cons.mp ha
  refine ⟨htail, ?_⟩
  intro x hx hcov
  obtain ⟨q, hq, hxq⟩ := hcov
  exact hhead q hq x ⟨hx, hxq⟩

theorem covered_lt {ps : List (Nat × Nat)} {n : Nat} (hps : ∀ p ∈ ps, p.2 ≤ n) {x : Nat}
    (hx : Covered ps x) : x < n := by
  obtain ⟨p, hp, hxp⟩ := hx
  exact hxp.2.trans_le (hps p hp)

theorem covered_subset_range {ps : List (Nat × Nat)} {n : Nat} (hps : ∀ p ∈ ps, p.2 ≤ n) :
    {x | Covered ps x} ⊆ (Finset.range n : Set Nat) := by
  intro x hx
  exact Finset.mem_coe.mpr (Finset.mem_range.mpr (covered_lt hps hx))

theorem ncard_covered_le {ps : List (Nat × Nat)} {n : Nat} (hps : ∀ p ∈ ps, p.2 ≤ n) :
    Set.ncard {x | Covered ps x} ≤ n := by
  have hle := Set.ncard_le_ncard (covered_subset_range hps)
  rwa [Set.ncard_coe_finset, Finset.card_range] at hle

theorem finite_covered {ps : List (Nat × Nat)} {n : Nat} (hps : ∀ p ∈ ps, p.2 ≤ n) :
    Set.Finite {x | Covered ps x} :=
  (Finset.finite_toSet (Finset.range n)).subset (covered_subset_range hps)

/-- Ranges apart cover as many points as their lengths say. -/
theorem ncard_covered {ps : List (Nat × Nat)} {n : Nat} (hps : ∀ p ∈ ps, p.2 ≤ n) (ha : Apart ps) :
    Set.ncard {x | Covered ps x} = (ps.map (fun p => p.2 - p.1)).sum := by
  induction ps with
  | nil => simp [Covered]
  | cons p ps ih =>
    obtain ⟨htail, hhead⟩ := ha.of_cons
    have hps' := fun q hq => hps q (List.mem_cons_of_mem p hq)
    have hsplit : {x | Covered (p :: ps) x} = (Finset.Ico p.1 p.2 : Set Nat) ∪ {x | Covered ps x} := by
      ext x
      simp only [Set.mem_ofPred_eq, Set.mem_union, Finset.coe_Ico, Set.mem_Ico]
      exact covered_cons p ps x
    have hdis : Disjoint (Finset.Ico p.1 p.2 : Set Nat) {x | Covered ps x} := by
      refine Set.disjoint_left.mpr (fun x hx => hhead x ?_)
      simpa using hx
    rw [hsplit, Set.ncard_union_eq hdis (Finset.finite_toSet _) (finite_covered hps'), Set.ncard_coe_finset,
      Nat.card_Ico, ih hps' htail]
    rfl

end Radare.Framework
