import Radare.Anal.Reflines

namespace Radare

open Framework

variable {lines : List (Ut64 × Ut64)} {a b : Ut64 × Ut64}

/-- The two ends of the line that has this place in the list. -/
def lineEnds (i : Nat) (line : Ut64 × Ut64) : List ReflineEnd := [reflineEndNew line.1 true i, reflineEndNew line.2 false i]

/-- What `add_refline` has made of these lines. -/
structure Added (lines : List (Ut64 × Ut64)) (s : List RAnalRefline × List ReflineEnd) : Prop where
  ends : s.1.map RAnalRefline.ends = lines
  level : ∀ l ∈ s.1, l.level = -1
  sorted : s.2.Pairwise (fun x y => x.r ≤ y.r)
  count : ∀ i, (s.2.map ReflineEnd.r).count i = if i < lines.length then 2 else 0
  mem : ∀ el, el ∈ s.2 ↔ ∃ i line, lines[i]? = some line ∧ el ∈ lineEnds i line

theorem Added.length {s : List RAnalRefline × List ReflineEnd} (h : Added lines s) : s.1.length = lines.length := by
  rw [← h.ends, List.length_map]

theorem lineEnds_r {i : Nat} {line : Ut64 × Ut64} {el : ReflineEnd} (h : el ∈ lineEnds i line) : el.r = i := by
  rcases List.mem_cons.mp h with rfl | h
  · rfl
  · rw [List.mem_singleton.mp h]
    rfl

theorem Added.r_lt {s : List RAnalRefline × List ReflineEnd} (h : Added lines s) {el : ReflineEnd} (hel : el ∈ s.2) :
    el.r < lines.length := by
  obtain ⟨i, line, hi, hmem⟩ := (h.mem el).mp hel
  rw [lineEnds_r hmem]
  exact (List.getElem?_eq_some_iff.mp hi).1

theorem addRefline_eq (s : List RAnalRefline × List ReflineEnd) (line : Ut64 × Ut64) :
    addRefline s line = (s.1 ++ [⟨line.1, line.2, s.1.length, -1⟩], s.2 ++ lineEnds s.1.length line) := rfl

theorem Added.step {s : List RAnalRefline × List ReflineEnd} (h : Added lines s) (line : Ut64 × Ut64) :
    Added (lines ++ [line]) (addRefline s line) := by
  rw [addRefline_eq, h.length]
  refine ⟨?_, ?_, ?_, fun i => ?_, fun el => ?_⟩
  · rw [List.map_append, h.ends]
    rfl
  · exact List.forall_mem_append.mpr ⟨h.level, fun l hl => by rw [List.mem_singleton.mp hl]⟩
  · refine List.pairwise_append.mpr ⟨h.sorted, ?_, fun x hx y hy => ?_⟩
    · refine List.pairwise_pair.mpr ?_
      exact Nat.le_refl _
    · rw [lineEnds_r hy]
      exact Nat.le_of_lt (h.r_lt hx)
  · rw [List.map_append, List.count_append, h.count, List.length_append, List.length_singleton]
    show _ + [lines.length, lines.length].count i = _
    simp only [List.count_cons, List.count_nil, beq_iff_eq]
    split <;> split <;> split <;> omega
  · rw [List.mem_append, h.mem]
    constructor
    · intro hel
      rcases hel with ⟨i, l, hi, hmem⟩ | hmem
      · refine ⟨i, l, ?_, hmem⟩
        rw [List.getElem?_append_left (List.getElem?_eq_some_iff.mp hi).1]
        exact hi
      · exact ⟨lines.length, line, List.getElem?_concat_length, hmem⟩
    · intro hel
      obtain ⟨i, l, hi, hmem⟩ := hel
      rcases Nat.lt_or_ge i lines.length with hlt | hge
      · rw [List.getElem?_append_left hlt] at hi
        exact Or.inl ⟨i, l, hi, hmem⟩
      · obtain ⟨hlen, hl⟩ := List.getElem?_eq_some_iff.mp hi
        rw [List.length_append, List.length_singleton] at hlen
        obtain rfl : i = lines.length := by omega
        rw [List.getElem_concat_length rfl] at hl
        exact Or.inr (by rw [hl]; exact hmem)

theorem addRefline_added (lines : List (Ut64 × Ut64)) : Added lines (lines.foldl addRefline ([], [])) := by
  induction lines using List.reverseRecOn with
  | nil =>
    refine ⟨rfl, fun l hl => absurd hl List.not_mem_nil, List.Pairwise.nil, fun i => rfl, fun el => ?_⟩
    simp
  | append_singleton lines line ih =>
    rw [List.foldl_append]
    exact ih.step line

/-- Of two ends in the list sorted by `cmp_asc` the first has the smaller `int`; of equal ones the line
that was added later is first. -/
def ReflineEnd.Before (x y : ReflineEnd) : Prop := x.val < y.val ∨ (x.val = y.val ∧ y.r ≤ x.r)

/-- What the level loop gives: the levels of first fit over the ends in their order. -/
theorem reflineLevels_spec (lines : List (Ut64 × Ut64)) :
    ∃ (sten : List ReflineEnd) (out : List RAnalRefline), reflineLevels lines = some out ∧
      out.map RAnalRefline.ends = lines ∧ sten.Pairwise ReflineEnd.Before ∧
      (∀ el, el ∈ sten ↔ ∃ i line, lines[i]? = some line ∧ el ∈ lineEnds i line) ∧
      (∀ i < lines.length, (sten.map ReflineEnd.r).count i = 2) ∧
      ∀ r (hr : r < out.length), out[r].level = levelOf ((firstFit (sten.map ReflineEnd.r)).colour r) := by
  have hadded := addRefline_added lines
  generalize hs : lines.foldl addRefline ([], []) = s at hadded
  have hperm := insertSortedAll_perm cmpAsc s.2
  have hcmp : ∀ x y : ReflineEnd, 0 < cmpAsc x y ↔ y.val < x.val := by
    intro x y
    unfold cmpAsc
    split <;> omega
  have hsorted := insertSortedAll_pairwise ReflineEnd.val hcmp hadded.sorted
  generalize hsten : s.2.foldl (insertSorted cmpAsc) [] = sten at hperm hsorted
  have hcount : ∀ i, (sten.map ReflineEnd.r).count i = if i < lines.length then 2 else 0 := by
    intro i
    rw [← hadded.count i]
    exact (hperm.map ReflineEnd.r).count_eq i
  have hstart : LevelState.Rep lines (firstFit []) ⟨s.1, List.replicate (s.1.length + 1) 0, 0⟩ := by
    refine ⟨hadded.ends, fun r hr => hadded.level _ (List.getElem_mem hr), ?_, fun j hj => ?_, ?_⟩
    · rw [List.length_replicate, hadded.length]
    · rw [List.getElem?_replicate_of_lt (by rw [hadded.length]; omega)]
      rfl
    · show (0 : Int) = ((mex [] : Nat) : Int)
      rw [mex_nil]
      rfl
  obtain ⟨st, hrun, hrep⟩ := assignLevels_rep (fun el hel => hadded.r_lt (hperm.mem_iff.mp hel))
    (fun r => by rw [hcount]; split <;> omega) hstart
  refine ⟨sten, st.lines, ?_, hrep.ends, hsorted, fun el => ?_, fun i hi => ?_, hrep.level⟩
  · unfold reflineLevels
    simp only [hs, addSortedData_eq, hsten, hrun, Option.bind_eq_bind, Option.bind_some]
  · rw [hperm.mem_iff, hadded.mem]
  · rw [hcount, if_pos hi]

def lineLow (l : Ut64 × Ut64) : Nat := min l.1.toNat l.2.toNat

def lineHigh (l : Ut64 × Ut64) : Nat := max l.1.toNat l.2.toNat

/-- The open intervals between the ends of two lines have a stretch in common. -/
def Intersect (a b : Ut64 × Ut64) : Prop := max (lineLow a) (lineLow b) < min (lineHigh a) (lineHigh b)

/-- Of the ends as `ReflineEnd` keeps them. -/
def intLow (l : Ut64 × Ut64) : Int := min (wrapInt l.1.toNat) (wrapInt l.2.toNat)

def intHigh (l : Ut64 × Ut64) : Int := max (wrapInt l.1.toNat) (wrapInt l.2.toNat)

/-- As `int`s neither line, of which `b` was added later, comes to its end before the other begins. -/
def Meet (a b : Ut64 × Ut64) : Prop := intLow b ≤ intHigh a ∧ intLow a < intHigh b

/-- The loop stays inside `free_levels`, the levels are between 1 and the number of the lines, and lines
that intersect have different ones. -/
def LevelsRight (lines : List (Ut64 × Ut64)) : Prop :=
  ∃ out, reflineLevels lines = some out ∧ out.map RAnalRefline.ends = lines ∧
    (∀ l ∈ out, 1 ≤ l.level ∧ l.level ≤ lines.length) ∧
    out.Pairwise (fun x y => Intersect x.ends y.ends → x.level ≠ y.level)

theorem lineEnds_val {i : Nat} {line : Ut64 × Ut64} {el : ReflineEnd} (h : el ∈ lineEnds i line) :
    intLow line ≤ el.val ∧ el.val ≤ intHigh line := by
  rcases List.mem_cons.mp h with rfl | h
  · exact ⟨min_le_left _ _, le_max_left _ _⟩
  · rw [List.mem_singleton.mp h]
    exact ⟨min_le_right _ _, le_max_right _ _⟩

theorem exists_lowEnd (i : Nat) (line : Ut64 × Ut64) : ∃ el ∈ lineEnds i line, el.val = intLow line := by
  rcases min_choice (wrapInt line.1.toNat) (wrapInt line.2.toNat) with h | h
  · exact ⟨_, List.mem_cons_self, h.symm⟩
  · exact ⟨_, List.mem_cons_of_mem _ (List.mem_singleton_self _), h.symm⟩

theorem exists_highEnd (i : Nat) (line : Ut64 × Ut64) : ∃ el ∈ lineEnds i line, el.val = intHigh line := by
  rcases max_choice (wrapInt line.1.toNat) (wrapInt line.2.toNat) with h | h
  · exact ⟨_, List.mem_cons_self, h.symm⟩
  · exact ⟨_, List.mem_cons_of_mem _ (List.mem_singleton_self _), h.symm⟩

/-- Where all ends of one line stand before all of another, they are in the order of the list. -/
theorem before_of_split {sten : List ReflineEnd} (hsorted : sten.Pairwise ReflineEnd.Before)
    {pre post : List Nat} (hsplit : sten.map ReflineEnd.r = pre ++ post) {x y : ReflineEnd} (hx : x ∈ sten) (hy : y ∈ sten)
    (hpost : x.r ∉ post) (hpre : y.r ∉ pre) : x.Before y := by
  obtain ⟨p, q, rfl, rfl, rfl⟩ := List.map_eq_append_iff.mp hsplit
  have hxp : x ∈ p := (List.mem_append.mp hx).resolve_right (fun h => hpost (List.mem_map_of_mem h))
  have hyq : y ∈ q := (List.mem_append.mp hy).resolve_left (fun h => hpre (List.mem_map_of_mem h))
  exact (List.pairwise_append.mp hsorted).2.2 x hxp y hyq

theorem levelOf_inj {c d : Option Nat} (h : levelOf c = levelOf d) : c = d := by
  cases c with
  | none => exact ((levelOf_eq_neg d).mp h.symm).symm
  | some c =>
    cases d with
    | none => exact (levelOf_eq_neg (some c)).mp h
    | some d =>
      have heq : (c : Int) + 1 = d + 1 := h
      exact congrArg some (by omega)

/-- Lines whose ends meet have different colours. -/
theorem meet_separates {sten : List ReflineEnd} (hsorted : sten.Pairwise ReflineEnd.Before)
    (hmem : ∀ el, el ∈ sten ↔ ∃ i line, lines[i]? = some line ∧ el ∈ lineEnds i line)
    (hcount : ∀ i < lines.length, (sten.map ReflineEnd.r).count i = 2) {i j : Nat} (hij : i < j)
    (ha : lines[i]? = some a) (hb : lines[j]? = some b) (h : Meet a b) :
    (firstFit (sten.map ReflineEnd.r)).colour i ≠ (firstFit (sten.map ReflineEnd.r)).colour j := by
  have hi := (List.getElem?_eq_some_iff.mp ha).1
  have hj := (List.getElem?_eq_some_iff.mp hb).1
  have hsten : ∀ {k line el}, lines[k]? = some line → el ∈ lineEnds k line → el ∈ sten :=
    fun hk hel => (hmem _).mpr ⟨_, _, hk, hel⟩
  refine firstFit_overlap (hcount i hi) (hcount j hj) (by omega) (fun hsplit => ?_) (fun hsplit => ?_)
  · obtain ⟨pre, post, hes, hpre, hpost⟩ := hsplit
    obtain ⟨x, hx, hxval⟩ := exists_highEnd i a
    obtain ⟨y, hy, hyval⟩ := exists_lowEnd j b
    have hbefore := before_of_split hsorted hes (hsten ha hx) (hsten hb hy) (by rwa [lineEnds_r hx]) (by rwa [lineEnds_r hy])
    have hle := h.1
    unfold ReflineEnd.Before at hbefore
    rw [lineEnds_r hx, lineEnds_r hy] at hbefore
    omega
  · obtain ⟨pre, post, hes, hpre, hpost⟩ := hsplit
    obtain ⟨x, hx, hxval⟩ := exists_highEnd j b
    obtain ⟨y, hy, hyval⟩ := exists_lowEnd i a
    have hbefore := before_of_split hsorted hes (hsten hb hx) (hsten ha hy) (by rwa [lineEnds_r hx]) (by rwa [lineEnds_r hy])
    have hlt := h.2
    unfold ReflineEnd.Before at hbefore
    omega

/-- Of two lines alone whose ends do not meet both have the same colour. -/
theorem apart_same {sten : List ReflineEnd} (hsorted : sten.Pairwise ReflineEnd.Before)
    (hmem : ∀ el, el ∈ sten ↔ ∃ i line, [a, b][i]? = some line ∧ el ∈ lineEnds i line)
    (hcount : ∀ i < [a, b].length, (sten.map ReflineEnd.r).count i = 2) (h : ¬Meet a b) :
    (firstFit (sten.map ReflineEnd.r)).colour 0 = (firstFit (sten.map ReflineEnd.r)).colour 1 := by
  have hends : ∀ x ∈ sten, (x.r = 0 ∧ intLow a ≤ x.val ∧ x.val ≤ intHigh a) ∨ (x.r = 1 ∧ intLow b ≤ x.val ∧ x.val ≤ intHigh b) := by
    intro x hx
    obtain ⟨i, line, hi, hel⟩ := (hmem x).mp hx
    have hr := lineEnds_r hel
    have hval := lineEnds_val hel
    match i with
    | 0 =>
      obtain rfl := Option.some.inj hi
      exact Or.inl ⟨hr, hval⟩
    | 1 =>
      obtain rfl := Option.some.inj hi
      exact Or.inr ⟨hr, hval⟩
    | i + 2 => cases hi
  have hids : ∀ e ∈ sten.map ReflineEnd.r, e = 0 ∨ e = 1 :=
    List.forall_mem_map.mpr (fun x hx => (hends x hx).imp And.left And.left)
  have h0 := hcount 0 Nat.zero_lt_two
  have h1 := hcount 1 Nat.one_lt_two
  have hmem0 : 0 ∈ sten.map ReflineEnd.r := List.count_pos_iff.mp (by omega)
  have hmem1 : 1 ∈ sten.map ReflineEnd.r := List.count_pos_iff.mp (by omega)
  rcases not_and_or.mp h with hlow | hhigh
  · -- the first line lies before the second
    refine firstFit_apart hids (by decide) h0 hmem1 (List.pairwise_map.mpr (hsorted.imp_of_mem ?_))
    intro x y hx hy hbefore hy0
    have hxends := hends x hx
    have hyends := hends y hy
    unfold ReflineEnd.Before at hbefore
    omega
  · refine (firstFit_apart (fun e he => (hids e he).symm) (by decide) h1 hmem0
      (List.pairwise_map.mpr (hsorted.imp_of_mem ?_))).symm
    intro x y hx hy hbefore hy1
    have hxends := hends x hx
    have hyends := hends y hy
    unfold ReflineEnd.Before at hbefore
    omega

/-- The levels are those of first fit, which needs no more than there are lines. -/
theorem reflineLevels_range {sten : List ReflineEnd} {out : List RAnalRefline} (hout : out.map RAnalRefline.ends = lines)
    (hmem : ∀ el, el ∈ sten ↔ ∃ i line, lines[i]? = some line ∧ el ∈ lineEnds i line)
    (hcount : ∀ i < lines.length, (sten.map ReflineEnd.r).count i = 2)
    (hlevel : ∀ r (hr : r < out.length), out[r].level = levelOf ((firstFit (sten.map ReflineEnd.r)).colour r)) :
    ∀ l ∈ out, 1 ≤ l.level ∧ l.level ≤ lines.length := by
  have hlen : out.length = lines.length := by rw [← hout, List.length_map]
  have hids : ∀ e ∈ sten.map ReflineEnd.r, e ∈ List.range lines.length := by
    refine List.forall_mem_map.mpr (fun x hx => ?_)
    obtain ⟨i, line, hi, hel⟩ := (hmem x).mp hx
    rw [lineEnds_r hel, List.mem_range]
    exact (List.getElem?_eq_some_iff.mp hi).1
  intro l hl
  obtain ⟨r, hr, rfl⟩ := List.getElem_of_mem hl
  have hseen : r ∈ sten.map ReflineEnd.r := by
    have htwo := hcount r (by omega)
    exact List.count_pos_iff.mp (by omega)
  obtain ⟨c, hc⟩ := Option.isSome_iff_exists.mp (((firstFit_coloured _).seen r).mpr hseen)
  have hlt := firstFit_lt hids hc
  rw [List.length_range] at hlt
  rw [hlevel r hr, hc]
  show 1 ≤ (c : Int) + 1 ∧ (c : Int) + 1 ≤ lines.length
  omega

end Radare
