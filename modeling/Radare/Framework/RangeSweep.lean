import Mathlib.Data.List.Pairwise
import Radare.Framework.RangeHull

namespace Radare.Framework

variable {α : Type} [LinearOrder α] {rs : List (α × α)} {r : α × α} {lo hi x : α}

/-- The gaps that a sweep from `lo` to `hi` reports: a range that begins behind the bound and before the
end moves the bound behind itself, any other is passed over. -/
def gapsFrom (hi : α) : List (α × α) → α → List (α × α)
  | [], lo => if lo < hi then [(lo, hi)] else []
  | r :: rs, lo => if lo < r.1 ∧ r.1 < hi then (lo, r.1) :: gapsFrom hi rs r.2 else gapsFrom hi rs lo

/-- The range begins strictly inside. -/
def beginsIn (lo hi : α) (p : α × α) : Bool := decide (lo < p.1 ∧ p.1 < hi)

/-- The order in which a sweep misses nothing: no range holds the bound, and those that begin inside come
in ascending order with a gap between any two. -/
structure Sweepable (hi : α) (rs : List (α × α)) (lo : α) : Prop where
  start : ∀ r ∈ rs, ¬(r.1 ≤ lo ∧ lo < r.2)
  gaps : (rs.filter (beginsIn lo hi)).Pairwise (fun r s => r.2 < s.1)

/-- The gaps are exactly the points that no range covers. -/
def SweepsAll (hi : α) (rs : List (α × α)) (lo : α) : Prop :=
  ∀ x, Covered (gapsFrom hi rs lo) x ↔ (lo ≤ x ∧ x < hi) ∧ ¬Covered rs x

theorem gapsFrom_take (h : lo < r.1 ∧ r.1 < hi) (rs : List (α × α)) :
    gapsFrom hi (r :: rs) lo = (lo, r.1) :: gapsFrom hi rs r.2 := if_pos h

theorem gapsFrom_skip (h : ¬(lo < r.1 ∧ r.1 < hi)) (rs : List (α × α)) :
    gapsFrom hi (r :: rs) lo = gapsFrom hi rs lo := if_neg h

theorem not_covered_nil (x : α) : ¬Covered [] x := by
  intro h
  obtain ⟨p, hp, _⟩ := h
  cases hp

theorem gapsFrom_bounds (hne : ∀ r ∈ rs, r.1 < r.2) (hx : Covered (gapsFrom hi rs lo) x) :
    lo ≤ x ∧ x < hi := by
  induction rs generalizing lo with
  | nil =>
    unfold gapsFrom at hx
    split_ifs at hx
    · rw [covered_cons] at hx
      exact hx.resolve_right (not_covered_nil x)
    · exact absurd hx (not_covered_nil x)
  | cons r rs ih =>
    have hr := hne r List.mem_cons_self
    have hne' := fun s hs => hne s (List.mem_cons_of_mem r hs)
    by_cases htake : lo < r.1 ∧ r.1 < hi
    · rw [gapsFrom_take htake, covered_cons] at hx
      rcases hx with hx | hx
      · exact ⟨hx.1, hx.2.trans htake.2⟩
      · have hb := ih hne' hx
        exact ⟨(htake.1.trans hr).le.trans hb.1, hb.2⟩
    · rw [gapsFrom_skip htake] at hx
      exact ih hne' hx

/-- The first gap begins at the bound. -/
theorem gapsFrom_first (hlt : lo < hi) (rs : List (α × α)) : Covered (gapsFrom hi rs lo) lo := by
  induction rs with
  | nil =>
    rw [gapsFrom, if_pos hlt, covered_cons]
    exact Or.inl ⟨le_rfl, hlt⟩
  | cons r rs ih =>
    by_cases htake : lo < r.1 ∧ r.1 < hi
    · rw [gapsFrom_take htake, covered_cons]
      exact Or.inl ⟨le_rfl, htake.1⟩
    · rw [gapsFrom_skip htake]
      exact ih

theorem gapsFrom_end (hge : hi ≤ lo) (rs : List (α × α)) : gapsFrom hi rs lo = [] := by
  induction rs with
  | nil => exact if_neg (not_lt.mpr hge)
  | cons r rs ih =>
    rw [gapsFrom_skip (fun h => absurd (h.1.trans h.2) (not_lt.mpr hge))]
    exact ih

/-- Of ranges that are not empty and have no point in common one ends before the other begins. -/
theorem ends_of_apart {p q : α × α} (hp : p.1 < p.2) (hq : q.1 < q.2)
    (h : ∀ x, ¬((p.1 ≤ x ∧ x < p.2) ∧ (q.1 ≤ x ∧ x < q.2))) : p.2 ≤ q.1 ∨ q.2 ≤ p.1 := by
  have hp' := h p.1
  have hq' := h q.1
  grind

theorem filter_cons_take (h : lo < r.1 ∧ r.1 < hi) (rs : List (α × α)) :
    (r :: rs).filter (beginsIn lo hi) = r :: rs.filter (beginsIn lo hi) :=
  List.filter_cons_of_pos (decide_eq_true h)

theorem filter_cons_skip (h : ¬(lo < r.1 ∧ r.1 < hi)) (rs : List (α × α)) :
    (r :: rs).filter (beginsIn lo hi) = rs.filter (beginsIn lo hi) :=
  List.filter_cons_of_neg (by rw [beginsIn, decide_eq_true_iff]; exact h)

theorem mem_beginsIn {s : α × α} : s ∈ rs.filter (beginsIn lo hi) ↔ s ∈ rs ∧ lo < s.1 ∧ s.1 < hi := by
  rw [List.mem_filter, beginsIn, decide_eq_true_iff]

/-- A range that is passed over and does not hold the bound plays no part. -/
theorem sweepsAll_skip (hskip : ¬(lo < r.1 ∧ r.1 < hi)) (hstart : ¬(r.1 ≤ lo ∧ lo < r.2)) :
    SweepsAll hi (r :: rs) lo ↔ SweepsAll hi rs lo := by
  refine forall_congr' (fun x => ?_)
  rw [gapsFrom_skip hskip, covered_cons]
  have hnone : lo ≤ x ∧ x < hi → ¬(r.1 ≤ x ∧ x < r.2) := by grind
  refine iff_congr Iff.rfl (and_congr_right (fun hx => ?_))
  rw [or_iff_right (hnone hx)]

theorem sweepable_skip (hskip : ¬(lo < r.1 ∧ r.1 < hi)) (hstart : ¬(r.1 ≤ lo ∧ lo < r.2)) :
    Sweepable hi (r :: rs) lo ↔ Sweepable hi rs lo := by
  constructor
  · intro h
    exact ⟨fun s hs => h.start s (List.mem_cons_of_mem r hs), filter_cons_skip hskip rs ▸ h.gaps⟩
  · intro h
    exact ⟨List.forall_mem_cons.mpr ⟨hstart, h.start⟩, (filter_cons_skip hskip rs).symm ▸ h.gaps⟩

/-- A range that is taken: no other may lie in the gap before it, and the sweep goes on behind it. -/
theorem sweepsAll_take (hne : ∀ s ∈ r :: rs, s.1 < s.2) (htake : lo < r.1 ∧ r.1 < hi) :
    SweepsAll hi (r :: rs) lo ↔ (∀ x, lo ≤ x → x < r.1 → ¬Covered rs x) ∧ SweepsAll hi rs r.2 := by
  have hr := hne r List.mem_cons_self
  have hbounds : ∀ x, Covered (gapsFrom hi rs r.2) x → r.2 ≤ x ∧ x < hi :=
    fun x hx => gapsFrom_bounds (fun s hs => hne s (List.mem_cons_of_mem r hs)) hx
  have hstep : ∀ x, (Covered (gapsFrom hi (r :: rs) lo) x ↔ (lo ≤ x ∧ x < hi) ∧ ¬Covered (r :: rs) x) ↔
      ((lo ≤ x → x < r.1 → ¬Covered rs x) ∧
        (Covered (gapsFrom hi rs r.2) x ↔ (r.2 ≤ x ∧ x < hi) ∧ ¬Covered rs x)) := by
    intro x
    rw [gapsFrom_take htake, covered_cons, covered_cons]
    have hb := hbounds x
    grind
  rw [SweepsAll, SweepsAll, ← forall_and]
  exact forall_congr' hstep

theorem sweepable_take (hne : ∀ s ∈ r :: rs, s.1 < s.2) (ha : Apart (r :: rs)) (htake : lo < r.1 ∧ r.1 < hi) :
    Sweepable hi (r :: rs) lo ↔
      (∀ x, lo ≤ x → x < r.1 → ¬Covered rs x) ∧ (r.2 < hi → Sweepable hi rs r.2) := by
  have hr := hne r List.mem_cons_self
  have hends : ∀ s ∈ rs, s.1 < s.2 ∧ (r.2 ≤ s.1 ∨ s.2 ≤ r.1) := by
    intro s hs
    have hs' := hne s (List.mem_cons_of_mem r hs)
    exact ⟨hs', ends_of_apart hr hs' ((List.pairwise_cons.mp ha).1 s hs)⟩
  constructor
  · intro h
    have hgaps := h.gaps
    rw [filter_cons_take htake, List.pairwise_cons] at hgaps
    have hafter : ∀ s ∈ rs, lo < s.1 → s.1 < hi → r.2 < s.1 := by
      intro s hs hlo hhi
      exact hgaps.1 s (mem_beginsIn.mpr ⟨hs, hlo, hhi⟩)
    refine ⟨?_, ?_⟩
    · intro x hlo hx hcov
      obtain ⟨s, hs, hxs⟩ := hcov
      have hstart := h.start s (List.mem_cons_of_mem r hs)
      have hs' := hafter s hs
      grind
    · intro hlt
      refine ⟨?_, ?_⟩
      · intro s hs hhold
        have hs' := hafter s hs
        have he := hends s hs
        grind
      · refine hgaps.2.sublist (List.monotone_filter_right rs ?_)
        intro s hs
        rw [beginsIn, decide_eq_true_iff] at hs ⊢
        exact ⟨(htake.1.trans hr).trans hs.1, hs.2⟩
  · intro h
    obtain ⟨hfree, hrest⟩ := h
    have hafter : ∀ s ∈ rs, lo < s.1 → s.1 < hi → r.2 < s.1 := by
      intro s hs hlo hhi
      obtain ⟨hs', he⟩ := hends s hs
      rcases he with he | he
      · refine lt_of_le_of_ne he (fun heq => ?_)
        exact (hrest (heq ▸ hhi)).start s hs ⟨heq ▸ le_rfl, heq ▸ hs'⟩
      · exact absurd ⟨s, hs, le_rfl, hs'⟩ (hfree s.1 hlo.le (hs'.trans_le he))
    refine ⟨?_, ?_⟩
    · intro s hs hhold
      rcases List.mem_cons.mp hs with rfl | hs
      · exact absurd htake.1 (not_lt.mpr hhold.1)
      · exact hfree lo le_rfl htake.1 ⟨s, hs, hhold⟩
    · rw [filter_cons_take htake, List.pairwise_cons]
      refine ⟨fun s hs => ?_, ?_⟩
      · obtain ⟨hs, hlo, hhi⟩ := mem_beginsIn.mp hs
        exact hafter s hs hlo hhi
      · by_cases hlt : r.2 < hi
        · have hsame : rs.filter (beginsIn lo hi) = rs.filter (beginsIn r.2 hi) := by
            refine List.filter_congr (fun s hs => decide_eq_decide.mpr ?_)
            exact ⟨fun h => ⟨hafter s hs h.1 h.2, h.2⟩, fun h => ⟨(htake.1.trans hr).trans h.1, h.2⟩⟩
          rw [hsame]
          exact (hrest hlt).gaps
        · have hnil : rs.filter (beginsIn lo hi) = [] := by
            refine List.eq_nil_iff_forall_not_mem.mpr (fun s hs => ?_)
            obtain ⟨hs, hlo, hhi⟩ := mem_beginsIn.mp hs
            exact hlt ((hafter s hs hlo hhi).trans hhi)
          rw [hnil]
          exact List.Pairwise.nil

theorem sweepsAll_end (hge : hi ≤ lo) (rs : List (α × α)) : SweepsAll hi rs lo := by
  intro x
  rw [gapsFrom_end hge]
  have hnone : ¬(lo ≤ x ∧ x < hi) := fun h => absurd (h.1.trans_lt h.2) (not_lt.mpr hge)
  exact ⟨fun h => absurd h (not_covered_nil x), fun h => absurd h.1 hnone⟩

/-- A sweep over ranges apart finds exactly the free points when they are in an order to sweep in. -/
theorem sweepsAll_iff (hlt : lo < hi) (hne : ∀ s ∈ rs, s.1 < s.2) (ha : Apart rs) :
    SweepsAll hi rs lo ↔ Sweepable hi rs lo := by
  induction rs generalizing lo with
  | nil =>
    have hall : SweepsAll hi [] lo := by
      intro x
      rw [gapsFrom, if_pos hlt, covered_cons, or_iff_left (not_covered_nil x)]
      exact (and_iff_left (not_covered_nil x)).symm
    exact ⟨fun _ => ⟨by simp, by simp⟩, fun _ => hall⟩
  | cons r rs ih =>
    have hne' := fun s hs => hne s (List.mem_cons_of_mem r hs)
    have ha' := (List.pairwise_cons.mp ha).2
    by_cases htake : lo < r.1 ∧ r.1 < hi
    · rw [sweepsAll_take hne htake, sweepable_take hne ha htake]
      refine and_congr_right (fun _ => ?_)
      rcases lt_or_ge r.2 hi with hin | hout
      · rw [ih hin hne' ha']
        exact ⟨fun h _ => h, fun h => h hin⟩
      · exact ⟨fun _ h => absurd h (not_lt.mpr hout), fun _ => sweepsAll_end hout rs⟩
    · by_cases hstart : r.1 ≤ lo ∧ lo < r.2
      · constructor
        · intro h
          have hcov := ((h lo).mp (gapsFrom_first hlt _)).2
          exact absurd ⟨r, List.mem_cons_self, hstart⟩ hcov
        · intro h
          exact absurd hstart (h.start r List.mem_cons_self)
      · rw [sweepsAll_skip htake hstart, sweepable_skip htake hstart]
        exact ih hlt hne' ha'

/-- For ranges apart the condition on the order says two things: that they ascend, and that none begins
where another ends. -/
theorem sweepable_gaps_iff (hne : ∀ s ∈ rs, s.1 < s.2) (ha : Apart rs) :
    (rs.filter (beginsIn lo hi)).Pairwise (fun r s => r.2 < s.1) ↔
      (∀ r ∈ rs, ∀ s ∈ rs, lo < r.1 → s.1 < hi → r.2 ≠ s.1) ∧
        (rs.filter (beginsIn lo hi)).Pairwise (fun r s => r.1 ≤ s.1) := by
  constructor
  · intro h
    refine ⟨?_, h.imp_of_mem ?_⟩
    · intro r hr s hs hlo hhi heq
      have hr' := hne r hr
      have hs' := hne s hs
      have hsym : (rs.filter (beginsIn lo hi)).Pairwise (fun r s => r.2 < s.1 ∨ s.2 < r.1) :=
        h.imp (fun hlt => Or.inl hlt)
      have : Std.Symm (fun r s : α × α => r.2 < s.1 ∨ s.2 < r.1) := ⟨fun _ _ h => h.symm⟩
      have hcmp := hsym.forall
        (mem_beginsIn.mpr ⟨hr, hlo, (heq ▸ hr').trans hhi⟩)
        (mem_beginsIn.mpr ⟨hs, hlo.trans (heq ▸ hr'), hhi⟩)
        (fun he => absurd (heq ▸ hr') (by rw [he]; exact lt_irrefl _))
      rcases hcmp with hcmp | hcmp
      · exact absurd hcmp (heq ▸ lt_irrefl _)
      · exact absurd (hcmp.trans hr') (not_lt.mpr (heq ▸ hs'.le))
    · intro r s hr _ hlt
      exact ((hne r (mem_beginsIn.mp hr).1).trans hlt).le
  · intro h
    obtain ⟨hmeet, hasc⟩ := h
    refine (hasc.and (ha.sublist List.filter_sublist)).imp_of_mem ?_
    intro r s hr hs hrs
    obtain ⟨hr, hlo, -⟩ := mem_beginsIn.mp hr
    obtain ⟨hs, -, hhi⟩ := mem_beginsIn.mp hs
    have hs' := hne s hs
    rcases ends_of_apart (hne r hr) hs' hrs.2 with he | he
    · exact lt_of_le_of_ne he (hmeet r hr s hs hlo hhi)
    · exact absurd (hs'.trans_le he) (not_lt.mpr hrs.1)

end Radare.Framework
