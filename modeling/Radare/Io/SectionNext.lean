import Radare.Io.Types

namespace Radare

def RIOSection.vend (s : RIOSection) : Ut64 := s.vaddr + s.vsize

/-- The starts and the ends of the sections. -/
def boundaries (sections : List RIOSection) : List Ut64 :=
  sections.flatMap (fun s => [s.vaddr, s.vend])

/-- The smallest boundary above `o`, `UT64_MAX` where there is none. -/
def NextBoundary (sections : List RIOSection) (o r : Ut64) : Prop :=
  (∀ b ∈ boundaries sections, o < b → r ≤ b) ∧
    (r ∈ boundaries sections ∧ o < r ∨ (∀ b ∈ boundaries sections, ¬o < b) ∧ r = ut64Max)

/-- A section that holds `o` ends at `UT64_MAX`, or a section in front of it in the list starts
above `o` and not behind this end. -/
def EndsCovered (sections : List RIOSection) (o : Ut64) : Prop :=
  ∀ pre s post, sections = pre ++ s :: post → s.vaddr ≤ o → o < s.vend →
    s.vend = ut64Max ∨ ∃ t ∈ pre, o < t.vaddr ∧ t.vaddr ≤ s.vend

section Scan

variable {o : Ut64}

theorem mem_boundaries {sections : List RIOSection} {b : Ut64} :
    b ∈ boundaries sections ↔ ∃ s ∈ sections, b = s.vaddr ∨ b = s.vend := by
  simp [boundaries]

/-- What one section changes: its start counts, and its end brings its start too. -/
theorem sectionNextStep_cases (o cur : Ut64) (s : RIOSection) :
    sectionNextStep o cur s =
      if o < s.vaddr ∧ s.vaddr < cur then s.vaddr
      else if o < s.vend ∧ s.vend < cur then s.vaddr
      else cur := by
  rw [sectionNextStep]
  by_cases hstart : o < s.vaddr ∧ s.vaddr < cur
  · simp [hstart]
  · simp only [gt_iff_lt, hstart, if_false]
    rfl

/-- A result at or below `o` is not changed any more. -/
theorem sectionNext_stuck (sections : List RIOSection) (cur : Ut64) (hcur : cur ≤ o) :
    sections.foldl (sectionNextStep o) cur = cur := by
  have hnot : ∀ x : Ut64, ¬(o < x ∧ x < cur) := by
    intro x h
    obtain ⟨hox, hxc⟩ := h
    exact BitVec.not_lt.mpr hcur (BitVec.lt_trans hox hxc)
  induction sections with
  | nil => rfl
  | cons s sections ih =>
    rw [List.foldl_cons, sectionNextStep_cases o cur s, if_neg (hnot _),
      if_neg (hnot _)]
    exact ih

/-- An end that no start covers leaves a result at or below `o`. -/
theorem sectionNext_low (pre post : List RIOSection) (s : RIOSection) (cur : Ut64)
    (hs : ∀ x ∈ pre ++ s :: post, x.vaddr ≤ x.vend) (hlow : s.vaddr ≤ o) (hin : o < s.vend)
    (hcur : s.vend < cur) (hpre : ∀ t ∈ pre, o < t.vaddr → s.vend < t.vaddr) :
    (pre ++ s :: post).foldl (sectionNextStep o) cur ≤ o := by
  induction pre generalizing cur with
  | nil =>
    rw [List.nil_append, List.foldl_cons, sectionNextStep_cases o cur s,
      if_neg (fun h => BitVec.not_lt.mpr hlow h.1), if_pos ⟨hin, hcur⟩,
      sectionNext_stuck post s.vaddr hlow]
    exact hlow
  | cons x pre ih =>
    have hrest : ∀ y ∈ pre ++ s :: post, y.vaddr ≤ y.vend := fun y hy => hs y (List.mem_cons_of_mem x hy)
    have hpre' : ∀ t ∈ pre, o < t.vaddr → s.vend < t.vaddr :=
      fun t ht => hpre t (List.mem_cons_of_mem x ht)
    rw [List.cons_append, List.foldl_cons, sectionNextStep_cases o cur x]
    by_cases hstart : o < x.vaddr ∧ x.vaddr < cur
    · rw [if_pos hstart]
      exact ih _ hrest (hpre x List.mem_cons_self hstart.1) hpre'
    · rw [if_neg hstart]
      by_cases hend : o < x.vend ∧ x.vend < cur
      · -- the start that is stored lies at or below `o`
        have hxo : x.vaddr ≤ o := by
          by_contra hnot
          have hox := BitVec.not_le.mp hnot
          have hxs := hs x List.mem_cons_self
          rw [BitVec.le_def] at hxs
          rw [BitVec.lt_def, BitVec.lt_def] at hend hstart
          exact hstart ⟨hox, by omega⟩
        rw [if_pos hend, sectionNext_stuck _ _ hxo]
        exact hxo
      · rw [if_neg hend]
        exact ih _ hrest hcur hpre'

/-- Every end above `o` of a section that holds `o` is covered, by `cur` or by a start. -/
def CoveredFrom (sections : List RIOSection) (o cur : Ut64) : Prop :=
  ∀ pre s post, sections = pre ++ s :: post → s.vaddr ≤ o → o < s.vend →
    cur ≤ s.vend ∨ ∃ t ∈ pre, o < t.vaddr ∧ t.vaddr ≤ s.vend

/-- What the first section covers is kept in `cur'`. -/
theorem CoveredFrom.tail {sections : List RIOSection} {s : RIOSection} {cur cur' : Ut64}
    (h : CoveredFrom (s :: sections) o cur) (hle : cur' ≤ cur) (hs : o < s.vaddr → cur' ≤ s.vaddr) :
    CoveredFrom sections o cur' := by
  intro pre x post hsplit hlow hin
  rcases h (s :: pre) x post (by rw [hsplit]; rfl) hlow hin with hc | ⟨t, ht, hto, hte⟩
  · exact Or.inl (BitVec.le_trans hle hc)
  · rcases List.mem_cons.mp ht with heq | ht
    · rw [heq] at hto hte
      exact Or.inl (BitVec.le_trans (hs hto) hte)
    · exact Or.inr ⟨t, ht, hto, hte⟩

/-- Where every end is covered the scan finds the smallest start above `o`, and no end lies in
front of it. -/
theorem sectionNext_covered (sections : List RIOSection) (cur : Ut64)
    (hs : ∀ s ∈ sections, s.vaddr ≤ s.vend) (hcov : CoveredFrom sections o cur) :
    ∃ r, sections.foldl (sectionNextStep o) cur = r ∧ r ≤ cur ∧
      (∀ s ∈ sections, (o < s.vaddr → r ≤ s.vaddr) ∧ (o < s.vend → r ≤ s.vend)) ∧
      (r = cur ∨ ∃ s ∈ sections, r = s.vaddr ∧ o < r) := by
  induction sections generalizing cur with
  | nil => exact ⟨cur, rfl, BitVec.le_refl cur, nofun, Or.inl rfl⟩
  | cons s sections ih =>
    have hrest : ∀ x ∈ sections, x.vaddr ≤ x.vend := fun x hx => hs x (List.mem_cons_of_mem s hx)
    have hsv := hs s List.mem_cons_self
    rw [List.foldl_cons, sectionNextStep_cases o cur s]
    by_cases hstart : o < s.vaddr ∧ s.vaddr < cur
    · rw [if_pos hstart]
      obtain ⟨r, hr, hle, hall, hfrom⟩ := ih s.vaddr hrest
        (hcov.tail (BitVec.le_of_lt hstart.2) (fun _ => BitVec.le_refl _))
      refine ⟨r, hr, BitVec.le_trans hle (BitVec.le_of_lt hstart.2), ?_, ?_⟩
      · intro x hx
        rcases List.mem_cons.mp hx with heq | hx
        · rw [heq]
          exact ⟨fun _ => hle, fun _ => BitVec.le_trans hle hsv⟩
        · exact hall x hx
      · rcases hfrom with hcur | ⟨x, hx, hxr⟩
        · exact Or.inr ⟨s, List.mem_cons_self, hcur, by rw [hcur]; exact hstart.1⟩
        · exact Or.inr ⟨x, List.mem_cons_of_mem s hx, hxr⟩
    · have hstart' : o < s.vaddr → cur ≤ s.vaddr := by
        intro h
        by_contra hnot
        exact hstart ⟨h, BitVec.not_le.mp hnot⟩
      have hend : o < s.vend → cur ≤ s.vend := by
        intro hin
        by_cases hlow : s.vaddr ≤ o
        · rcases hcov [] s sections rfl hlow hin with hc | ⟨t, ht, -⟩
          · exact hc
          · cases ht
        · exact BitVec.le_trans (hstart' (BitVec.not_le.mp hlow)) hsv
      rw [if_neg hstart, if_neg (fun h => BitVec.not_lt.mpr (hend h.1) h.2)]
      obtain ⟨r, hr, hle, hall, hfrom⟩ := ih cur hrest (hcov.tail (BitVec.le_refl cur) hstart')
      refine ⟨r, hr, hle, ?_, ?_⟩
      · intro x hx
        rcases List.mem_cons.mp hx with heq | hx
        · rw [heq]
          exact ⟨fun h => BitVec.le_trans hle (hstart' h), fun h => BitVec.le_trans hle (hend h)⟩
        · exact hall x hx
      · rcases hfrom with hcur | ⟨x, hx, hxr⟩
        · exact Or.inl hcur
        · exact Or.inr ⟨x, List.mem_cons_of_mem s hx, hxr⟩

end Scan

/-- The next boundary is found, above `o`, exactly where every end above `o` of a section that holds `o`
is covered by a start. -/
theorem section_next_iff (io : RIO) (o : Ut64)
    (hwrap : ∀ s ∈ io.sections, s.vaddr.toNat + s.vsize.toNat < 18446744073709551616) :
    NextBoundary io.sections o (rIoSectionNext io o) ∧ o < rIoSectionNext io o ↔
      o ≠ ut64Max ∧ EndsCovered io.sections o := by
  have hs : ∀ s ∈ io.sections, s.vaddr ≤ s.vend := by
    intro s hs
    have h := hwrap s hs
    rw [RIOSection.vend, BitVec.le_def, BitVec.toNat_add]
    omega
  have hmax : ∀ x : Ut64, x ≤ ut64Max := by
    intro x
    have hx := x.isLt
    rw [BitVec.le_def, toNat_ut64Max]
    omega
  rw [rIoSectionNext]
  constructor
  · intro h
    obtain ⟨-, hgt⟩ := h
    have hne : o ≠ ut64Max := by
      intro heq
      rw [heq] at hgt
      exact BitVec.not_lt.mpr (hmax _) hgt
    refine ⟨hne, ?_⟩
    intro pre s post hsplit hlow hin
    by_contra hnot
    obtain ⟨hend, hpre⟩ := not_or.mp hnot
    have hlt : s.vend < ut64Max := BitVec.lt_of_le_ne (hmax _) hend
    have h := sectionNext_low pre post s ut64Max (by rw [← hsplit]; exact hs) hlow hin hlt (by
      intro t ht hto
      by_contra hte
      exact hpre ⟨t, ht, hto, BitVec.not_lt.mp hte⟩)
    rw [← hsplit] at h
    exact BitVec.not_lt.mpr h hgt
  · intro h
    obtain ⟨hne, hcov⟩ := h
    obtain ⟨r, hr, -, hall, hfrom⟩ := sectionNext_covered (o := o) io.sections ut64Max hs (by
      intro pre s post hsplit hlow hin
      rcases hcov pre s post hsplit hlow hin with hc | hc
      · exact Or.inl (by rw [hc]; exact BitVec.le_refl _)
      · exact Or.inr hc)
    have hleast : ∀ b ∈ boundaries io.sections, o < b → r ≤ b := by
      intro b hb hob
      obtain ⟨s, hs, hbs⟩ := mem_boundaries.mp hb
      rcases hbs with heq | heq
      · rw [heq] at hob ⊢
        exact (hall s hs).1 hob
      · rw [heq] at hob ⊢
        exact (hall s hs).2 hob
    rw [hr]
    rcases hfrom with hcur | ⟨s, hmem, hsr, hgt⟩
    · have hgt : o < r := by
        rw [hcur]
        exact BitVec.lt_of_le_ne (hmax o) hne
      refine ⟨⟨hleast, ?_⟩, hgt⟩
      by_cases hex : ∃ b ∈ boundaries io.sections, o < b
      · obtain ⟨b, hb, hob⟩ := hex
        have hbr : b = r := BitVec.le_antisymm (hcur ▸ hmax b) (hleast b hb hob)
        exact Or.inl ⟨hbr ▸ hb, hgt⟩
      · exact Or.inr ⟨fun b hb hob => hex ⟨b, hb, hob⟩, hcur⟩
    · exact ⟨⟨hleast, Or.inl ⟨mem_boundaries.mpr ⟨s, hmem, Or.inl hsr⟩, hgt⟩⟩, hgt⟩

/-- Two sections without a gap, the upper one listed first. -/
theorem section_next_upper_first :
    NextBoundary [⟨0, 32, 16, 16, 16, 0⟩, ⟨0, 16, 16, 16, 16, 0⟩] 24
        (rIoSectionNext { emptyIO with sections := [⟨0, 32, 16, 16, 16, 0⟩, ⟨0, 16, 16, 16, 16, 0⟩] } 24) ∧
      (24 : Ut64) <
        rIoSectionNext { emptyIO with sections := [⟨0, 32, 16, 16, 16, 0⟩, ⟨0, 16, 16, 16, 16, 0⟩] } 24 := by
  apply (section_next_iff
    { emptyIO with sections := [⟨0, 32, 16, 16, 16, 0⟩, ⟨0, 16, 16, 16, 16, 0⟩] } 24 (by simp)).mpr
  refine ⟨by decide, ?_⟩
  intro pre s post hsplit hlow hin
  cases pre with
  | nil =>
    obtain ⟨rfl, -⟩ := List.cons.inj hsplit
    exact absurd hlow (by decide)
  | cons t pre =>
    obtain ⟨rfl, hrest⟩ := List.cons.inj hsplit
    cases pre with
    | nil =>
      obtain ⟨rfl, -⟩ := List.cons.inj hrest
      exact Or.inr ⟨_, List.mem_cons_self, by decide, by decide⟩
    | cons x pre => simp at hrest

/-- From an address in a single section its start is returned. -/
theorem section_next_inside :
    rIoSectionNext { emptyIO with sections := [⟨0, 16, 16, 16, 16, 0⟩] } 24 = 16 ∧
      ¬(NextBoundary [⟨0, 16, 16, 16, 16, 0⟩] 24
          (rIoSectionNext { emptyIO with sections := [⟨0, 16, 16, 16, 16, 0⟩] } 24)) := by
  have h : rIoSectionNext { emptyIO with sections := [⟨0, 16, 16, 16, 16, 0⟩] } 24 = 16 := by decide
  refine ⟨h, ?_⟩
  rw [h]
  intro hnext
  obtain ⟨-, hb⟩ := hnext
  rcases hb with ⟨-, hlt⟩ | ⟨hnone, -⟩
  · exact absurd hlt (by decide)
  · exact hnone 32 (by decide) (by decide)

end Radare
