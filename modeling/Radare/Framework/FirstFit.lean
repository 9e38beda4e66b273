import Radare.Framework.Marks
import Mathlib.Data.List.Count
import Mathlib.Data.Nat.Find
import Mathlib.Data.List.Perm.Subperm
import Mathlib.Data.List.Nodup
import Mathlib.Data.List.Range

namespace Radare.Framework

theorem exists_notMem (xs : List Nat) : ∃ c, c ∉ xs := by
  by_contra h
  push Not at h
  have hsub : (List.range (xs.length + 1)) ⊆ xs := fun c _ => h c
  have hle := (List.nodup_range.subperm hsub).length_le
  rw [List.length_range] at hle
  omega

/-- The least number that is not in a list. -/
def mex (xs : List Nat) : Nat := Nat.find (exists_notMem xs)

theorem mex_notMem (xs : List Nat) : mex xs ∉ xs := Nat.find_spec (exists_notMem xs)

theorem mem_of_lt_mex {xs : List Nat} {c : Nat} (h : c < mex xs) : c ∈ xs := not_not.mp (Nat.find_min _ h)

theorem mex_eq {xs : List Nat} {m : Nat} (hm : m ∉ xs) (hbelow : ∀ c < m, c ∈ xs) : mex xs = m := by
  rcases Nat.lt_trichotomy (mex xs) m with hlt | heq | hgt
  · exact absurd (hbelow _ hlt) (mex_notMem xs)
  · exact heq
  · exact absurd (mem_of_lt_mex hgt) hm

theorem mex_le_length (xs : List Nat) : mex xs ≤ xs.length := by
  have hsub : List.range (mex xs) ⊆ xs := fun c hc => mem_of_lt_mex (List.mem_range.mp hc)
  have hle := (List.nodup_range.subperm hsub).length_le
  rwa [List.length_range] at hle

variable {ι : Type} [DecidableEq ι] {es post ids : List ι} {a b e : ι}

theorem mex_nil : mex [] = 0 := mex_eq List.not_mem_nil (fun c hc => absurd hc (Nat.not_lt_zero c))

/-- The colours given so far, and the things that have begun and not ended. -/
structure Colours (ι : Type) where
  colour : ι → Option Nat
  opens : List ι

def Colours.taken (s : Colours ι) : List Nat := s.opens.filterMap s.colour

/-- What is met for the first time gets the least colour not taken, what is met again gives its up. -/
def Colours.step (s : Colours ι) (e : ι) : Colours ι :=
  match s.colour e with
  | none => ⟨Function.update s.colour e (some (mex s.taken)), e :: s.opens⟩
  | some _ => { s with opens := s.opens.erase e }

def firstFit (es : List ι) : Colours ι := es.foldl Colours.step ⟨fun _ => none, []⟩

/-- After these events. -/
structure Coloured (es : List ι) (s : Colours ι) : Prop where
  seen : ∀ a, (s.colour a).isSome ↔ a ∈ es
  isOpen : ∀ a, a ∈ s.opens ↔ es.count a = 1
  nodup : s.opens.Nodup
  distinct : ∀ a ∈ s.opens, ∀ b ∈ s.opens, s.colour a = s.colour b → a = b

theorem firstFit_snoc (es : List ι) (e : ι) : firstFit (es ++ [e]) = (firstFit es).step e := by
  simp [firstFit]

theorem Colours.step_none {s : Colours ι} (h : s.colour e = none) :
    s.step e = ⟨Function.update s.colour e (some (mex s.taken)), e :: s.opens⟩ := by
  unfold Colours.step
  rw [h]

theorem Colours.step_some {s : Colours ι} {c : Nat} (h : s.colour e = some c) :
    s.step e = { s with opens := s.opens.erase e } := by
  unfold Colours.step
  rw [h]

theorem Coloured.step {s : Colours ι} (h : Coloured es s) (e : ι) : Coloured (es ++ [e]) (s.step e) := by
  cases hc : s.colour e with
  | none =>
    have hnew : e ∉ es := fun hmem => by simpa [hc] using (h.seen e).mpr hmem
    have hzero : es.count e = 0 := List.count_eq_zero.mpr hnew
    have hopen : e ∉ s.opens := fun hmem => by have hone := (h.isOpen e).mp hmem; omega
    have hother : ∀ a ∈ s.opens, Function.update s.colour e (some (mex s.taken)) a = s.colour a :=
      fun a ha => Function.update_of_ne (fun heq => hopen (by rw [← heq]; exact ha)) _ _
    have hfresh : ∀ a ∈ s.opens, s.colour a ≠ some (mex s.taken) :=
      fun a ha heq => mex_notMem s.taken (List.mem_filterMap.mpr ⟨a, ha, heq⟩)
    rw [Colours.step_none hc]
    refine ⟨fun a => ?_, fun a => ?_, List.nodup_cons.mpr ⟨hopen, h.nodup⟩, ?_⟩
    · by_cases ha : a = e
      · simp [ha]
      · simp [h.seen, ha]
    · by_cases ha : a = e
      · simp [ha, List.count_append, hzero]
      · simp [ha, List.count_append, h.isOpen, Ne.symm ha]
    · intro a ha b hb hab
      simp only [List.mem_cons] at ha hb hab
      rcases ha with rfl | ha
      · rcases hb with rfl | hb
        · rfl
        · rw [hother b hb, Function.update_self] at hab
          exact absurd hab.symm (hfresh b hb)
      · rcases hb with rfl | hb
        · rw [hother a ha, Function.update_self] at hab
          exact absurd hab (hfresh a ha)
        · rw [hother a ha, hother b hb] at hab
          exact h.distinct a ha b hb hab
  | some c =>
    have hold : e ∈ es := (h.seen e).mp (by rw [hc]; rfl)
    have hpos := List.count_pos_iff.mpr hold
    rw [Colours.step_some hc]
    refine ⟨fun a => ?_, fun a => ?_, h.nodup.erase e, fun a ha b hb hab => ?_⟩
    · by_cases ha : a = e
      · simp [ha, hc]
      · simp [ha, h.seen]
    · rw [h.nodup.mem_erase_iff, h.isOpen, List.count_append]
      by_cases ha : a = e
      · simp [ha]
        omega
      · simp [ha, Ne.symm ha]
    · exact h.distinct a (List.mem_of_mem_erase ha) b (List.mem_of_mem_erase hb) hab

theorem firstFit_coloured (es : List ι) : Coloured es (firstFit es) := by
  induction es using List.reverseRecOn with
  | nil => exact ⟨fun a => by simp [firstFit], fun a => by simp [firstFit], List.nodup_nil, fun a ha => absurd ha List.not_mem_nil⟩
  | append_singleton es e ih =>
    rw [firstFit_snoc]
    exact ih.step e

/-- A colour that is given stays. -/
theorem firstFit_keeps {c : Nat} (h : (firstFit es).colour a = some c) (post : List ι) :
    (firstFit (es ++ post)).colour a = some c := by
  induction post using List.reverseRecOn with
  | nil => rwa [List.append_nil]
  | append_singleton post e ih =>
    rw [← List.append_assoc, firstFit_snoc]
    cases hc : (firstFit (es ++ post)).colour e with
    | none =>
      rw [Colours.step_none hc]
      have hne : a ≠ e := fun heq => by rw [heq, hc] at ih; cases ih
      exact (Function.update_of_ne hne _ _).trans ih
    | some d =>
      rw [Colours.step_some hc]
      exact ih

/-- What begins while another has not ended gets another colour. -/
theorem firstFit_separates (hb : b ∉ es) (ha : es.count a = 1) :
    (firstFit (es ++ b :: post)).colour a ≠ (firstFit (es ++ b :: post)).colour b := by
  have h := firstFit_coloured es
  have hopen : a ∈ (firstFit es).opens := (h.isOpen a).mpr ha
  have hnone : (firstFit es).colour b = none := by
    cases hc : (firstFit es).colour b with
    | none => rfl
    | some c => exact absurd ((h.seen b).mp (by rw [hc]; rfl)) hb
  obtain ⟨c, hcolour⟩ := Option.isSome_iff_exists.mp ((h.seen a).mpr (List.count_pos_iff.mp (by omega)))
  have hbcolour : (firstFit (es ++ [b])).colour b = some (mex (firstFit es).taken) := by
    rw [firstFit_snoc, Colours.step_none hnone]
    exact Function.update_self _ _ _
  rw [List.append_cons, firstFit_keeps (firstFit_keeps hcolour [b]) post, firstFit_keeps hbcolour post]
  intro heq
  rw [Option.some.inj heq] at hcolour
  exact mex_notMem _ (List.mem_filterMap.mpr ⟨a, hopen, hcolour⟩)

/-- What begins while nothing else has to end gets the first colour. -/
theorem firstFit_first (es : List ι) (hb : b ∉ es) (hended : ∀ a, es.count a ≠ 1) :
    (firstFit (es ++ b :: post)).colour b = some 0 := by
  have h := firstFit_coloured es
  have hnone : (firstFit es).colour b = none := by
    cases hc : (firstFit es).colour b with
    | none => rfl
    | some c => exact absurd ((h.seen b).mp (by rw [hc]; rfl)) hb
  have hopens : (firstFit es).opens = [] :=
    List.eq_nil_iff_forall_not_mem.mpr (fun a ha => hended a ((h.isOpen a).mp ha))
  have htaken : mex (firstFit es).taken = 0 := by
    rw [Colours.taken, hopens]
    exact mex_nil
  have hbcolour : (firstFit (es ++ [b])).colour b = some 0 := by
    rw [firstFit_snoc, Colours.step_none hnone, htaken]
    exact Function.update_self _ _ _
  rw [List.append_cons]
  exact firstFit_keeps hbcolour post

/-- Two things alone, one of which has ended when the other begins, get the same colour. -/
theorem firstFit_apart (hes : ∀ e ∈ es, e = a ∨ e = b) (hne : a ≠ b) (ha : es.count a = 2) (hb : b ∈ es)
    (horder : es.Pairwise (fun x y => y = a → x = a)) : (firstFit es).colour a = (firstFit es).colour b := by
  have hsplit := List.takeWhile_append_dropWhile (p := fun e => decide (e = a)) (l := es)
  have hpre : ∀ e ∈ es.takeWhile (fun e => decide (e = a)), e = a :=
    fun e he => of_decide_eq_true (List.mem_takeWhile_imp (p := fun e => decide (e = a)) he)
  have hpost : ∀ e ∈ es.dropWhile (fun e => decide (e = a)), e ≠ a :=
    fun e he => of_decide_eq_false (not_of_mem_dropWhile (p := fun e => decide (e = a))
      (fun x y hxy hy => decide_eq_true (hxy (of_decide_eq_true hy))) horder e he)
  have hrest : ∀ e ∈ es.dropWhile (fun e => decide (e = a)), e = b :=
    fun e he => (hes e ((List.dropWhile_suffix _).subset he)).resolve_left (hpost e he)
  generalize es.takeWhile (fun e => decide (e = a)) = pre at hsplit hpre
  generalize es.dropWhile (fun e => decide (e = a)) = post at hsplit hpost hrest
  obtain rfl := hsplit
  have hlen : pre.length = 2 := by
    rw [List.count_append, List.count_eq_length.mpr (fun e he => (hpre e he).symm),
      List.count_eq_zero.mpr (fun hmem => hpost a hmem rfl)] at ha
    exact ha
  have hpair : pre = [a, a] := (List.eq_replicate_of_mem hpre).trans (by rw [hlen]; rfl)
  have hmem : b ∈ post := (List.mem_append.mp hb).resolve_left (fun h => hne (hpre b h).symm)
  obtain ⟨c, post, rfl⟩ := List.exists_cons_of_ne_nil (List.ne_nil_of_mem hmem)
  obtain rfl := hrest c List.mem_cons_self
  have hfirst : (firstFit (pre ++ c :: post)).colour a = some 0 := by
    rw [hpair]
    exact firstFit_first [] List.not_mem_nil (fun _ h => by cases h)
  have hsecond : (firstFit (pre ++ c :: post)).colour c = some 0 := by
    refine firstFit_first pre (fun hmem => hne (hpre c hmem).symm) (fun e hone => ?_)
    rw [hpair] at hone
    by_cases hea : a = e
    · simp [hea] at hone
    · simp [hea] at hone
  rw [hfirst, hsecond]

/-- Two things that each begin before the other has ended get different colours. -/
theorem firstFit_overlap (ha : es.count a = 2) (hb : es.count b = 2) (hne : a ≠ b)
    (hab : ¬∃ pre post, es = pre ++ post ∧ b ∉ pre ∧ a ∉ post)
    (hba : ¬∃ pre post, es = pre ++ post ∧ a ∉ pre ∧ b ∉ post) :
    (firstFit es).colour a ≠ (firstFit es).colour b := by
  obtain ⟨pre, post, hes, hbpre⟩ := List.eq_append_cons_of_mem (List.count_pos_iff.mp (show 0 < es.count b by omega))
  obtain ⟨pre', post', hes', hapre⟩ :=
    List.eq_append_cons_of_mem (List.count_pos_iff.mp (show 0 < es.count a by omega))
  have hcount : pre.count a + post.count a = 2 := by
    rw [hes, List.count_append, List.count_cons_of_ne (Ne.symm hne)] at ha
    exact ha
  have hcount' : pre'.count b + post'.count b = 2 := by
    rw [hes', List.count_append, List.count_cons_of_ne hne] at hb
    exact hb
  have hafter : post.count a ≠ 0 := fun h => hab ⟨pre, b :: post, hes, hbpre,
    List.not_mem_cons_of_ne_of_not_mem hne (List.count_eq_zero.mp h)⟩
  have hafter' : post'.count b ≠ 0 := fun h => hba ⟨pre', a :: post', hes', hapre,
    List.not_mem_cons_of_ne_of_not_mem (Ne.symm hne) (List.count_eq_zero.mp h)⟩
  by_cases hone : pre.count a = 1
  · rw [hes]
    exact firstFit_separates hbpre hone
  · -- the other one begins first
    have hzero : a ∉ pre := List.count_eq_zero.mp (show pre.count a = 0 by omega)
    have hbpre' : b ∈ pre' := by
      rcases append_cons_cases (hes.symm.trans hes') with ⟨_, heq, _⟩ | ⟨hmem, _⟩ | ⟨hmem, _⟩
      · exact absurd heq.symm hne
      · exact hmem
      · exact absurd hmem hzero
    have hpos := List.count_pos_iff.mpr hbpre'
    rw [hes']
    exact (firstFit_separates hapre (show pre'.count b = 1 by omega)).symm

/-- There are no more colours taken than things. -/
theorem Coloured.mex_le {s : Colours ι} (h : Coloured es s) (hids : ∀ a ∈ es, a ∈ ids) : mex s.taken ≤ ids.length := by
  have hsub : s.opens ⊆ ids := by
    intro a ha
    refine hids a (List.count_pos_iff.mp ?_)
    rw [(h.isOpen a).mp ha]
    exact Nat.one_pos
  have hopens := (h.nodup.subperm hsub).length_le
  have htaken : s.taken.length ≤ s.opens.length := List.length_filterMap_le _ _
  have hmex := mex_le_length s.taken
  omega

theorem Coloured.notMem_opens {s : Colours ι} (h : Coloured es s) (hc : s.colour e = none) :
    e ∉ es ∧ e ∉ s.opens := by
  have hnew : e ∉ es := fun hmem => by simpa [hc] using (h.seen e).mpr hmem
  refine ⟨hnew, fun hmem => hnew (List.count_pos_iff.mp ?_)⟩
  rw [(h.isOpen e).mp hmem]
  exact Nat.one_pos

theorem Coloured.taken_new {s : Colours ι} (h : Coloured es s) (hc : s.colour e = none) :
    (s.step e).taken = mex s.taken :: s.taken := by
  have hopen := (h.notMem_opens hc).2
  rw [Colours.step_none hc]
  have hrest : s.opens.filterMap (Function.update s.colour e (some (mex s.taken))) = s.taken := by
    refine List.filterMap_congr (fun a ha => Function.update_of_ne (fun heq => hopen ?_) _ _)
    rw [← heq]
    exact ha
  exact (List.filterMap_cons_some (Function.update_self e _ _)).trans (congrArg _ hrest)

theorem Coloured.mem_taken_end {s : Colours ι} (h : Coloured es s) {c : Nat} (hc : s.colour e = some c)
    (he : e ∈ s.opens) (j : Nat) : j ∈ (s.step e).taken ↔ j ∈ s.taken ∧ j ≠ c := by
  rw [Colours.step_some hc]
  simp only [Colours.taken, List.mem_filterMap, h.nodup.mem_erase_iff]
  constructor
  · intro hj
    obtain ⟨a, ⟨hne, ha⟩, hcolour⟩ := hj
    refine ⟨⟨a, ha, hcolour⟩, fun heq => hne (h.distinct a ha e he ?_)⟩
    rw [hcolour, heq, hc]
  · intro hj
    obtain ⟨⟨a, ha, hcolour⟩, hne⟩ := hj
    refine ⟨a, ⟨fun heq => hne ?_, ha⟩, hcolour⟩
    rw [heq, hc] at hcolour
    exact (Option.some.inj hcolour).symm

/-- One thing more needs at most one colour more. -/
theorem Coloured.mex_lt {s : Colours ι} (h : Coloured es s) (hc : s.colour e = none)
    (hids : ∀ a ∈ es ++ [e], a ∈ ids) : mex s.taken < ids.length := by
  have hle := (h.step e).mex_le hids
  rw [h.taken_new hc] at hle
  have hne : mex (mex s.taken :: s.taken) ≠ mex s.taken :=
    fun heq => mex_notMem (mex s.taken :: s.taken) (by rw [heq]; exact List.mem_cons_self)
  rcases Nat.lt_or_ge (mex (mex s.taken :: s.taken)) (mex s.taken) with hlt | hge
  · exact absurd (List.mem_cons_of_mem _ (mem_of_lt_mex hlt)) (mex_notMem (mex s.taken :: s.taken))
  · omega

theorem firstFit_lt (hids : ∀ a ∈ es, a ∈ ids) {c : Nat} (hc : (firstFit es).colour a = some c) : c < ids.length := by
  induction es using List.reverseRecOn with
  | nil => simp [firstFit] at hc
  | append_singleton es e ih =>
    have hold : ∀ a ∈ es, a ∈ ids := fun a ha => hids a (List.mem_append_left _ ha)
    have h := firstFit_coloured es
    rw [firstFit_snoc] at hc
    cases he : (firstFit es).colour e with
    | none =>
      rw [Colours.step_none he] at hc
      by_cases ha : a = e
      · rw [ha] at hc
        rw [← Option.some.inj ((Function.update_self e _ _).symm.trans hc)]
        exact h.mex_lt he hids
      · exact ih hold ((Function.update_of_ne ha _ _).symm.trans hc)
    | some d =>
      rw [Colours.step_some he] at hc
      exact ih hold hc

end Radare.Framework
