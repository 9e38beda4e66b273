import Mathlib.Order.Lattice
import Mathlib.Data.List.Induction

namespace Radare.Framework

variable {α : Type} [LinearOrder α] {ps rs : List (α × α)} {a b x : α}

/-- Half-open ranges in increasing order, none empty; the next may start where one ends. -/
structure Ascending (rs : List (α × α)) : Prop where
  nonempty : ∀ r ∈ rs, r.1 < r.2
  order : rs.Pairwise (fun r s => r.2 ≤ s.1)

/-- Half-open ranges in increasing order, none empty, with a gap between any two. -/
structure Separated (ps : List (α × α)) : Prop where
  nonempty : ∀ p ∈ ps, p.1 < p.2
  gaps : ps.Pairwise (fun p q => p.2 < q.1)

def Covered (ps : List (α × α)) (x : α) : Prop := ∃ p ∈ ps, p.1 ≤ x ∧ x < p.2

/-- A range behind the others; one that starts where the last ends makes that longer. -/
def addRange (ps : List (α × α)) (r : α × α) : List (α × α) :=
  match ps.getLast? with
  | none => [r]
  | some p => if p.2 = r.1 then ps.dropLast ++ [(p.1, r.2)] else ps ++ [r]

def coalesce (rs : List (α × α)) : List (α × α) := rs.foldl addRange []

theorem addRange_nil (r : α × α) : addRange [] r = [r] := rfl

theorem addRange_snoc (ps : List (α × α)) (p r : α × α) :
    addRange (ps ++ [p]) r = if p.2 = r.1 then ps ++ [(p.1, r.2)] else ps ++ [p] ++ [r] := by
  simp only [addRange, List.getLast?_concat, List.dropLast_concat]

theorem coalesce_snoc (rs : List (α × α)) (r : α × α) : coalesce (rs ++ [r]) = addRange (coalesce rs) r := by
  simp [coalesce]

theorem covered_snoc (ps : List (α × α)) (p : α × α) (x : α) :
    Covered (ps ++ [p]) x ↔ Covered ps x ∨ (p.1 ≤ x ∧ x < p.2) := by
  simp only [Covered, List.mem_append, List.mem_singleton]
  constructor
  · intro h
    obtain ⟨q, hq | hq, hx⟩ := h
    · exact Or.inl ⟨q, hq, hx⟩
    · rw [hq] at hx
      exact Or.inr hx
  · intro h
    rcases h with ⟨q, hq, hx⟩ | hx
    · exact ⟨q, Or.inl hq, hx⟩
    · exact ⟨p, Or.inr rfl, hx⟩

theorem Separated.snoc (h : Separated ps) {p : α × α} (hp : p.1 < p.2) (hlt : ∀ q ∈ ps, q.2 < p.1) :
    Separated (ps ++ [p]) := by
  refine ⟨?_, List.pairwise_append.mpr ⟨h.gaps, List.pairwise_singleton _ p, ?_⟩⟩
  · intro q hq
    rcases List.mem_append.mp hq with hq | hq
    · exact h.nonempty q hq
    · rw [List.mem_singleton.mp hq]
      exact hp
  · intro q hq r hr
    rw [List.mem_singleton.mp hr]
    exact hlt q hq

theorem Separated.of_snoc {p : α × α} (h : Separated (ps ++ [p])) :
    Separated ps ∧ p.1 < p.2 ∧ ∀ q ∈ ps, q.2 < p.1 := by
  obtain ⟨hleft, -, hcross⟩ := List.pairwise_append.mp h.gaps
  exact ⟨⟨fun q hq => h.nonempty q (List.mem_append_left _ hq), hleft⟩,
    h.nonempty p (List.mem_append_right _ (List.mem_singleton_self p)),
    fun q hq => hcross q hq p (List.mem_singleton_self p)⟩

theorem Separated.lt (h : Separated ps) {i j : Nat} (hi : i < ps.length) (hj : j < ps.length) (hij : i < j) :
    ps[i].2 < ps[j].1 :=
  List.pairwise_iff_getElem.mp h.gaps i j hi hj hij

theorem Separated.first_le (h : Separated ps) (h0 : 0 < ps.length) : ∀ p ∈ ps, ps[0].1 ≤ p.1 := by
  intro p hp
  obtain ⟨k, hk, rfl⟩ := List.mem_iff_getElem.mp hp
  rcases Nat.eq_zero_or_pos k with hk0 | hk0
  · subst hk0
    exact le_rfl
  · exact ((h.nonempty ps[0] (List.getElem_mem h0)).trans (h.lt h0 hk hk0)).le

theorem Separated.le_last (h : Separated ps) (hl : ps.length - 1 < ps.length) :
    ∀ p ∈ ps, p.2 ≤ ps[ps.length - 1].2 := by
  intro p hp
  obtain ⟨k, hk, rfl⟩ := List.mem_iff_getElem.mp hp
  rcases Nat.eq_or_lt_of_le (show k ≤ ps.length - 1 by omega) with hkl | hkl
  · subst hkl
    exact le_rfl
  · exact ((h.lt hk hl hkl).trans (h.nonempty ps[ps.length - 1] (List.getElem_mem hl))).le

theorem covered_iff_getElem (ps : List (α × α)) (x : α) :
    Covered ps x ↔ ∃ k, ∃ hk : k < ps.length, ps[k].1 ≤ x ∧ x < ps[k].2 := by
  constructor
  · intro h
    obtain ⟨p, hp, hx⟩ := h
    obtain ⟨k, hk, rfl⟩ := List.mem_iff_getElem.mp hp
    exact ⟨k, hk, hx⟩
  · intro h
    obtain ⟨k, hk, hx⟩ := h
    exact ⟨ps[k], List.getElem_mem hk, hx⟩

instance (ps : List (α × α)) (x : α) : Decidable (Covered ps x) :=
  inferInstanceAs (Decidable (∃ p ∈ ps, p.1 ≤ x ∧ x < p.2))

theorem Ascending.of_snoc {r : α × α} (h : Ascending (rs ++ [r])) :
    Ascending rs ∧ r.1 < r.2 ∧ ∀ s ∈ rs, s.2 ≤ r.1 := by
  obtain ⟨hleft, -, hcross⟩ := List.pairwise_append.mp h.order
  exact ⟨⟨fun q hq => h.nonempty q (List.mem_append_left _ hq), hleft⟩,
    h.nonempty r (List.mem_append_right _ (List.mem_singleton_self r)),
    fun q hq => hcross q hq r (List.mem_singleton_self r)⟩

/-- The end of the last range. -/
def lastEnd (ps : List (α × α)) : Option α := ps.getLast?.map Prod.snd

theorem lastEnd_addRange (ps : List (α × α)) (r : α × α) : lastEnd (addRange ps r) = some r.2 := by
  rcases List.eq_nil_or_concat ps with rfl | ⟨qs, p, rfl⟩
  · rfl
  · rw [List.concat_eq_append, addRange_snoc]
    split_ifs
    · simp [lastEnd]
    · simp [lastEnd]

theorem addRange_spec (h : Separated ps) {r : α × α} (hr : r.1 < r.2) (hle : ∀ e ∈ lastEnd ps, e ≤ r.1) :
    Separated (addRange ps r) ∧ (∀ x, Covered (addRange ps r) x ↔ Covered ps x ∨ (r.1 ≤ x ∧ x < r.2)) ∧
      (addRange ps r).map Prod.fst = ps.map Prod.fst ++ if lastEnd ps = some r.1 then [] else [r.1] := by
  rcases List.eq_nil_or_concat ps with rfl | ⟨qs, p, rfl⟩
  · refine ⟨⟨?_, List.pairwise_singleton _ r⟩, fun x => covered_snoc [] r x, by simp [addRange_nil, lastEnd]⟩
    intro q hq
    rw [List.mem_singleton.mp hq]
    exact hr
  · rw [List.concat_eq_append] at h hle ⊢
    obtain ⟨hqs, hp, hlt⟩ := h.of_snoc
    have hlast : lastEnd (qs ++ [p]) = some p.2 := by simp [lastEnd]
    have hpr : p.2 ≤ r.1 := hle p.2 (by rw [hlast]; rfl)
    rw [addRange_snoc]
    by_cases he : p.2 = r.1
    · rw [if_pos he]
      refine ⟨hqs.snoc (hp.trans (he ▸ hr)) hlt, fun x => ?_, by simp [hlast, he]⟩
      rw [covered_snoc, covered_snoc, or_assoc]
      apply or_congr_right
      simp only
      rw [← he]
      constructor
      · intro hx
        rcases lt_or_ge x p.2 with hxp | hxp
        · exact Or.inl ⟨hx.1, hxp⟩
        · exact Or.inr ⟨hxp, hx.2⟩
      · intro hx
        rcases hx with hx | hx
        · exact ⟨hx.1, hx.2.trans (he ▸ hr)⟩
        · exact ⟨hp.le.trans hx.1, hx.2⟩
    · rw [if_neg he]
      refine ⟨h.snoc hr ?_, fun x => covered_snoc _ r x, by simp [hlast, he]⟩
      intro q hq
      have hpr' : p.2 < r.1 := lt_of_le_of_ne hpr he
      rcases List.mem_append.mp hq with hq | hq
      · exact (hlt q hq).trans (hp.trans hpr')
      · rw [List.mem_singleton.mp hq]
        exact hpr'

/-- The ranges that none of the others leads up to. -/
def runStarts (rs : List (α × α)) : List (α × α) := rs.filter (fun r => ∀ s ∈ rs, s.2 ≠ r.1)

theorem runStarts_perm {rs' : List (α × α)} (h : rs'.Perm rs) : (runStarts rs').Perm (runStarts rs) := by
  have hcongr : runStarts rs' = rs'.filter (fun r => ∀ s ∈ rs, s.2 ≠ r.1) := by
    apply List.filter_congr
    intro r _
    simp only [h.mem_iff]
  rw [hcongr]
  exact h.filter _

/-- A range before another in the list ends before that starts, the last one at most touches it. -/
theorem Ascending.lastEnd_eq {r : α × α} (h : Ascending (rs ++ [r])) :
    lastEnd rs = some r.1 ↔ ∃ s ∈ rs, s.2 = r.1 := by
  obtain ⟨hrs, -, hle⟩ := h.of_snoc
  rcases List.eq_nil_or_concat rs with rfl | ⟨qs, p, rfl⟩
  · simp [lastEnd]
  · rw [List.concat_eq_append] at hrs hle ⊢
    obtain ⟨-, hp, hqp⟩ := hrs.of_snoc
    have hpr := hle p (List.mem_append_right _ (List.mem_singleton_self p))
    have hlast : lastEnd (qs ++ [p]) = some p.2 := by simp [lastEnd]
    rw [hlast, Option.some.injEq]
    constructor
    · intro he
      exact ⟨p, List.mem_append_right _ (List.mem_singleton_self p), he⟩
    · intro he
      obtain ⟨s, hs, hsr⟩ := he
      rcases List.mem_append.mp hs with hs | hs
      · have hlt : s.2 < r.1 := ((hqp s hs).trans_lt hp).trans_le hpr
        exact absurd hsr hlt.ne
      · rw [← List.mem_singleton.mp hs]
        exact hsr

theorem Ascending.runStarts_snoc {r : α × α} (h : Ascending (rs ++ [r])) :
    runStarts (rs ++ [r]) = runStarts rs ++ if lastEnd rs = some r.1 then [] else [r] := by
  obtain ⟨hrs, hr, hle⟩ := h.of_snoc
  have hlast := h.lastEnd_eq
  rw [runStarts, List.filter_append]
  have hold : rs.filter (fun q => ∀ s ∈ rs ++ [r], s.2 ≠ q.1) = runStarts rs := by
    apply List.filter_congr
    intro q hq
    have hne : r.2 ≠ q.1 := (((hrs.nonempty q hq).trans_le (hle q hq)).trans hr).ne'
    simp [or_imp, forall_and, hne]
  rw [hold]
  congr 1
  by_cases he : lastEnd rs = some r.1
  · rw [if_pos he]
    obtain ⟨s, hs, hsr⟩ := hlast.mp he
    apply List.filter_cons_of_neg
    simp only [decide_eq_true_eq, not_forall, not_not]
    exact ⟨s, List.mem_append_left _ hs, hsr⟩
  · rw [if_neg he]
    apply List.filter_cons_of_pos
    simp only [decide_eq_true_eq]
    intro s hs hsr
    rcases List.mem_append.mp hs with hs | hs
    · exact he (hlast.mpr ⟨s, hs, hsr⟩)
    · rw [List.mem_singleton.mp hs] at hsr
      exact hr.ne' hsr

/-- Ranges in increasing order, put behind one another: what touches is one range. -/
theorem coalesce_spec (h : Ascending rs) :
    Separated (coalesce rs) ∧ (∀ x, Covered (coalesce rs) x ↔ Covered rs x) ∧
      (coalesce rs).map Prod.fst = (runStarts rs).map Prod.fst ∧ lastEnd (coalesce rs) = lastEnd rs := by
  induction rs using List.reverseRecOn with
  | nil => exact ⟨⟨nofun, List.Pairwise.nil⟩, fun _ => Iff.rfl, rfl, rfl⟩
  | append_singleton rs r ih =>
    obtain ⟨hrs, hr, hle⟩ := h.of_snoc
    obtain ⟨hsep, hcov, hstarts, hlast⟩ := ih hrs
    have hend : ∀ e ∈ lastEnd (coalesce rs), e ≤ r.1 := by
      intro e he
      rw [hlast, lastEnd, Option.mem_def, Option.map_eq_some_iff] at he
      obtain ⟨s, hs, rfl⟩ := he
      exact hle s (List.mem_of_getLast? hs)
    obtain ⟨hsep', hcov', hstarts'⟩ := addRange_spec hsep hr hend
    rw [coalesce_snoc]
    refine ⟨hsep', fun x => ?_, ?_, ?_⟩
    · rw [hcov', hcov, covered_snoc]
    · rw [hstarts', hstarts, hlast, h.runStarts_snoc, List.map_append]
      split_ifs
      · rfl
      · rfl
    · rw [lastEnd_addRange]
      simp [lastEnd]

theorem lastEnd_coalesce (rs : List (α × α)) : lastEnd (coalesce rs) = lastEnd rs := by
  rcases List.eq_nil_or_concat rs with rfl | ⟨qs, r, rfl⟩
  · rfl
  · rw [List.concat_eq_append, coalesce_snoc, lastEnd_addRange]
    simp [lastEnd]

theorem coalesce_nonempty (hne : ∀ r ∈ rs, r.1 < r.2) : ∀ p ∈ coalesce rs, p.1 < p.2 := by
  induction rs using List.reverseRecOn with
  | nil => exact fun p hp => absurd hp List.not_mem_nil
  | append_singleton rs r ih =>
    have hold := ih (fun s hs => hne s (List.mem_append_left _ hs))
    have hr := hne r (List.mem_append_right _ (List.mem_singleton_self r))
    rw [coalesce_snoc]
    rcases List.eq_nil_or_concat (coalesce rs) with hnil | ⟨qs, p, hcat⟩
    · rw [hnil, addRange_nil]
      exact fun q hq => by rwa [List.mem_singleton.mp hq]
    · rw [List.concat_eq_append] at hcat
      rw [hcat] at hold ⊢
      rw [addRange_snoc]
      intro q hq
      split_ifs at hq with htouch
      · rcases List.mem_append.mp hq with hq | hq
        · exact hold q (List.mem_append_left _ hq)
        · rw [List.mem_singleton.mp hq]
          have hp := hold p (List.mem_append_right _ (List.mem_singleton_self p))
          rw [htouch] at hp
          exact hp.trans hr
      · rcases List.mem_append.mp hq with hq | hq
        · exact hold q hq
        · rwa [List.mem_singleton.mp hq]

theorem Ascending.le_lastEnd (h : Ascending rs) {s : α × α} (hs : s ∈ rs) {e : α} (he : lastEnd rs = some e) :
    s.2 ≤ e := by
  rcases List.eq_nil_or_concat rs with rfl | ⟨qs, r, rfl⟩
  · exact absurd hs List.not_mem_nil
  · rw [List.concat_eq_append] at h hs he
    obtain ⟨-, hr, hle⟩ := h.of_snoc
    have hlast : r.2 = e := by simpa [lastEnd] using he
    rw [← hlast]
    rcases List.mem_append.mp hs with hs | hs
    · exact (hle s hs).trans hr.le
    · rw [List.mem_singleton.mp hs]

/-- Ranges put behind one another end up in order only if they came in order. -/
theorem ascending_of_separated (hne : ∀ r ∈ rs, r.1 < r.2) (h : Separated (coalesce rs)) : Ascending rs := by
  induction rs using List.reverseRecOn with
  | nil => exact ⟨hne, List.Pairwise.nil⟩
  | append_singleton rs r ih =>
    have hold : ∀ s ∈ rs, s.1 < s.2 := fun s hs => hne s (List.mem_append_left _ hs)
    have hlast := lastEnd_coalesce rs
    have hnonempty := coalesce_nonempty hold
    rw [coalesce_snoc] at h
    rcases List.eq_nil_or_concat (coalesce rs) with hnil | ⟨qs, p, hcat⟩
    · have hrs : rs = [] := by
        rw [hnil] at hlast
        rcases List.eq_nil_or_concat rs with hrs | ⟨qs, s, hrs⟩
        · exact hrs
        · rw [hrs] at hlast
          simp [lastEnd] at hlast
      rw [hrs] at hne ⊢
      exact ⟨hne, List.pairwise_singleton _ _⟩
    · rw [List.concat_eq_append] at hcat
      rw [hcat] at h hlast hnonempty ih
      have hend : lastEnd rs = some p.2 := by
        rw [← hlast]
        simp [lastEnd]
      rw [addRange_snoc] at h
      have hparts : Separated (qs ++ [p]) ∧ p.2 ≤ r.1 := by
        split_ifs at h with htouch
        · obtain ⟨hqs, -, hlt⟩ := h.of_snoc
          exact ⟨hqs.snoc (hnonempty p (List.mem_append_right _ (List.mem_singleton_self p))) hlt, htouch.le⟩
        · obtain ⟨hqs, -, hlt⟩ := h.of_snoc
          exact ⟨hqs, (hlt p (List.mem_append_right _ (List.mem_singleton_self p))).le⟩
      have hasc := ih hold hparts.1
      refine ⟨hne, List.pairwise_append.mpr ⟨hasc.order, List.pairwise_singleton _ _, ?_⟩⟩
      intro s hs q hq
      rw [List.mem_singleton.mp hq]
      exact (hasc.le_lastEnd hs hend).trans hparts.2

end Radare.Framework
