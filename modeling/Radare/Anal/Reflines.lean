import Radare.Util.RListData
import Radare.Framework.FirstFit
import Radare.Framework.MachineInt

namespace Radare

open Framework

structure RAnalRefline where
  from_ : Ut64
  to_ : Ut64
  index : Int
  level : Int
  deriving DecidableEq

/-- `struct refline_end`; `r` is the place of the line in the list of all lines. -/
structure ReflineEnd where
  val : Int
  isFrom : Bool
  r : Nat
  deriving DecidableEq

def cmpAsc (a b : ReflineEnd) : Int := if b.val < a.val then 1 else 0

/-- The 64-bit value goes into an `int`. -/
def reflineEndNew (val : Ut64) (isFrom : Bool) (ref : Nat) : ReflineEnd := ⟨wrapInt val.toNat, isFrom, ref⟩

/-- `add_refline`: the line at the end of `list`, and its ends behind those that have been given to
`r_list_add_sorted` before. -/
def addRefline (s : List RAnalRefline × List ReflineEnd) (line : Ut64 × Ut64) :
    List RAnalRefline × List ReflineEnd :=
  (s.1 ++ [⟨line.1, line.2, s.1.length, -1⟩],
    s.2 ++ [reflineEndNew line.1 true s.1.length, reflineEndNew line.2 false s.1.length])

/-- The level loop: the lines, `free_levels` and `min`. -/
structure LevelState where
  lines : List RAnalRefline
  freeLevels : List Ut8
  min : Int

/-- `free_levels[i]`; `none` outside the array. -/
def loadLevel (freeLevels : List Ut8) (i : Int) : Option Ut8 := if 0 ≤ i then freeLevels[i.toNat]? else none

def storeLevel (freeLevels : List Ut8) (i : Int) (v : Ut8) : Option (List Ut8) :=
  if 0 ≤ i ∧ i < freeLevels.length then some (freeLevels.set i.toNat v) else none

/-- `while (free_levels[++min] == 1);`. -/
def nextLevel (freeLevels : List Ut8) : Nat → Int → Option Int
  | 0, _ => none
  | fuel + 1, min => do
    let v ← loadLevel freeLevels (min + 1)
    if v = 1 then nextLevel freeLevels fuel (min + 1) else some (min + 1)

/-- The body of the `r_list_foreach` over `sten`. -/
def assignLevel (s : LevelState) (el : ReflineEnd) : Option LevelState := do
  let r ← s.lines[el.r]?
  if (el.isFrom ∧ r.level = -1) ∨ (¬el.isFrom ∧ r.level = -1) then do
    let lines := s.lines.set el.r { r with level := s.min + 1 }
    let freeLevels ← storeLevel s.freeLevels s.min 1
    let min := if s.min < 0 then 0 else s.min
    let min ← nextLevel freeLevels freeLevels.length min
    some ⟨lines, freeLevels, min⟩
  else do
    let freeLevels ← storeLevel s.freeLevels (r.level - 1) 0
    some ⟨s.lines, freeLevels, if r.level - 1 < s.min then r.level - 1 else s.min⟩

/-- The lines of `r_anal_reflines_get` that have been added in this order, with their levels. -/
def reflineLevels (lines : List (Ut64 × Ut64)) : Option (List RAnalRefline) := do
  let added := lines.foldl addRefline ([], [])
  let sten ← addSortedData cmpAsc added.2
  let s ← sten.foldlM assignLevel ⟨added.1, List.replicate (added.1.length + 1) 0, 0⟩
  some s.lines

/-- The level of a line with this colour. -/
def levelOf : Option Nat → Int
  | none => -1
  | some c => c + 1

def RAnalRefline.ends (l : RAnalRefline) : Ut64 × Ut64 := (l.from_, l.to_)

/-- The loop has given the colours that first fit gives. -/
structure LevelState.Rep (pairs : List (Ut64 × Ut64)) (s : Colours Nat) (st : LevelState) : Prop where
  ends : st.lines.map RAnalRefline.ends = pairs
  level : ∀ r (hr : r < st.lines.length), st.lines[r].level = levelOf (s.colour r)
  array : st.freeLevels.length = pairs.length + 1
  free : ∀ j ≤ pairs.length, st.freeLevels[j]? = some (if j ∈ s.taken then 1 else 0)
  min : st.min = (mex s.taken : Nat)

theorem LevelState.Rep.lines {pairs : List (Ut64 × Ut64)} {s : Colours Nat} {st : LevelState} (h : st.Rep pairs s) :
    st.lines.length = pairs.length := by
  rw [← h.ends, List.length_map]

theorem levelOf_eq_neg (c : Option Nat) : levelOf c = -1 ↔ c = none := by
  cases c with
  | none => exact iff_of_true rfl rfl
  | some c => exact iff_of_false (by show ¬((c : Int) + 1 = -1); omega) (fun h => nomatch h)

/-- The search for the next level that is free. -/
theorem nextLevel_spec {freeLevels : List Ut8} {m : Nat} (hm : freeLevels[m]? = some 0) (k : Nat)
    (hones : ∀ j, k < j → j < m → freeLevels[j]? = some 1) (hk : k < m) {fuel : Nat} (hf : m - k ≤ fuel) :
    nextLevel freeLevels fuel k = some m := by
  induction fuel generalizing k with
  | zero => omega
  | succ fuel ih =>
    have hload : ∀ v, freeLevels[k + 1]? = some v → loadLevel freeLevels (k + 1) = some v := by
      intro v hv
      rw [loadLevel, if_pos (by omega), show ((k : Int) + 1).toNat = k + 1 by omega, hv]
    rcases Nat.eq_or_lt_of_le (show k + 1 ≤ m by omega) with rfl | hlt
    · rw [nextLevel, hload 0 hm]
      rfl
    · rw [nextLevel, hload 1 (hones (k + 1) (by omega) hlt)]
      exact ih (k + 1) (fun j hj hjm => hones j (by omega) hjm) hlt (by omega)

theorem storeLevel_eq {freeLevels : List Ut8} {i : Nat} (hi : i < freeLevels.length) (v : Ut8) :
    storeLevel freeLevels i v = some (freeLevels.set i v) := by
  rw [storeLevel, if_pos (by omega), Int.toNat_natCast]

variable {pairs : List (Ut64 × Ut64)} {s : Colours Nat} {es : List Nat} {st : LevelState}

/-- One turn of the loop does what one step of first fit does. -/
theorem assignLevel_rep (hs : Coloured es s) (hrep : st.Rep pairs s) (el : ReflineEnd)
    (hids : ∀ a ∈ es ++ [el.r], a ∈ List.range pairs.length) (hcount : es.count el.r ≤ 1)
    (hbound : ∀ c, s.colour el.r = some c → c < pairs.length) :
    ∃ st', assignLevel st el = some st' ∧ st'.Rep pairs (s.step el.r) := by
  have hr : el.r < st.lines.length := by
    rw [hrep.lines]
    exact List.mem_range.mp (hids el.r (List.mem_append_right _ (List.mem_singleton_self _)))
  have hlevel := hrep.level el.r hr
  have hstep := hs.step el.r
  unfold assignLevel
  rw [List.getElem?_eq_getElem hr]
  simp only [Option.bind_eq_bind, Option.bind_some, hlevel, levelOf_eq_neg, ← or_and_right]
  have hends : (el.isFrom = true ∨ ¬el.isFrom = true) := em _
  cases hc : s.colour el.r with
  | none =>
    have hmex := hs.mex_lt hc hids
    rw [List.length_range] at hmex
    have htaken := hs.taken_new hc
    have hmexTaken := hstep.mex_le hids
    rw [List.length_range] at hmexTaken
    rw [if_pos ⟨hends, rfl⟩, hrep.min, storeLevel_eq (by rw [hrep.array]; omega)]
    simp only [Option.bind_some]
    have hfree : ∀ j ≤ pairs.length, (st.freeLevels.set (mex s.taken) 1)[j]? =
        some (if j ∈ (s.step el.r).taken then 1 else 0) := by
      intro j hj
      rw [htaken]
      by_cases hjm : j = mex s.taken
      · rw [hjm, List.getElem?_set_self (by rw [hrep.array]; omega), if_pos List.mem_cons_self]
      · rw [List.getElem?_set_ne (Ne.symm hjm), hrep.free j hj]
        simp [hjm]
    have hnext : nextLevel (st.freeLevels.set (mex s.taken) 1) (st.freeLevels.set (mex s.taken) 1).length
        (mex s.taken) = some ((mex (s.step el.r).taken : Nat) : Int) := by
      refine nextLevel_spec ?_ _ ?_ ?_ ?_
      · rw [hfree _ hmexTaken, if_neg (mex_notMem _)]
      · intro j _ hj
        rw [hfree j (by omega), if_pos (mem_of_lt_mex hj)]
      · rw [htaken]
        by_contra hge
        rcases Nat.lt_or_ge (mex (mex s.taken :: s.taken)) (mex s.taken) with hlt | hge'
        · exact mex_notMem (mex s.taken :: s.taken) (List.mem_cons_of_mem _ (mem_of_lt_mex hlt))
        · refine mex_notMem (mex s.taken :: s.taken) ?_
          rw [show mex (mex s.taken :: s.taken) = mex s.taken by omega]
          exact List.mem_cons_self
      · rw [List.length_set, hrep.array]
        omega
    rw [if_neg (by omega), hnext]
    refine ⟨_, rfl, ?_, fun r hr' => ?_, ?_, hfree, rfl⟩
    · rw [← hrep.ends, List.map_set]
      have hin : el.r < (st.lines.map RAnalRefline.ends).length := by rwa [List.length_map]
      have hkeep := List.set_getElem_self hin
      rwa [List.getElem_map] at hkeep
    · rw [Colours.step_none hc]
      rw [List.length_set] at hr'
      by_cases heq : r = el.r
      · subst heq
        simp [levelOf]
      · simp only [List.getElem_set_ne (Ne.symm heq), Function.update_of_ne heq]
        exact hrep.level r hr'
    · rw [List.length_set]
      exact hrep.array
  | some c =>
    have hold : el.r ∈ es := (hs.seen el.r).mp (by rw [hc]; rfl)
    have hpos := List.count_pos_iff.mpr hold
    have hopen : el.r ∈ s.opens := (hs.isOpen el.r).mpr (by omega)
    have hcTaken : c ∈ s.taken := List.mem_filterMap.mpr ⟨el.r, hopen, hc⟩
    have hmem := hs.mem_taken_end hc hopen
    have hcn := hbound c hc
    rw [if_neg (fun h => nomatch h.2)]
    have hsub : levelOf (some c) - 1 = (c : Nat) := by
      show (c : Int) + 1 - 1 = c
      omega
    rw [hsub, storeLevel_eq (by rw [hrep.array]; omega)]
    simp only [Option.bind_some]
    refine ⟨_, rfl, hrep.ends, fun r hr' => ?_, ?_, fun j hj => ?_, ?_⟩
    · rw [Colours.step_some hc]
      exact hrep.level r hr'
    · rw [List.length_set]
      exact hrep.array
    · by_cases hjc : j = c
      · rw [hjc, List.getElem?_set_self (by rw [hrep.array]; omega), if_neg (fun h => ((hmem c).mp h).2 rfl)]
      · rw [List.getElem?_set_ne (Ne.symm hjc), hrep.free j hj]
        simp [hmem, hjc]
    · have hne : mex s.taken ≠ c := fun heq => mex_notMem s.taken (by rw [heq]; exact hcTaken)
      rw [hrep.min]
      by_cases hlt : c < mex s.taken
      · rw [if_pos (by omega), mex_eq (m := c) (fun h => ((hmem c).mp h).2 rfl)
          (fun j hj => (hmem j).mpr ⟨mem_of_lt_mex (by omega), by omega⟩)]
      · rw [if_neg (by omega), mex_eq (m := mex s.taken) (fun h => mex_notMem _ ((hmem _).mp h).1)
          (fun j hj => (hmem j).mpr ⟨mem_of_lt_mex hj, by omega⟩)]

/-- The whole loop, over a list in which no line occurs more than twice. -/
theorem assignLevels_rep {sten : List ReflineEnd} (hids : ∀ el ∈ sten, el.r < pairs.length)
    (hcount : ∀ r, (sten.map ReflineEnd.r).count r ≤ 2) (hrep : st.Rep pairs (firstFit [])) :
    ∃ st', sten.foldlM assignLevel st = some st' ∧ st'.Rep pairs (firstFit (sten.map ReflineEnd.r)) := by
  have hrun : ∀ (pre post : List ReflineEnd) (st : LevelState), sten = pre ++ post →
      st.Rep pairs (firstFit (pre.map ReflineEnd.r)) →
      ∃ st', post.foldlM assignLevel st = some st' ∧ st'.Rep pairs (firstFit (sten.map ReflineEnd.r)) := by
    intro pre post
    induction post generalizing pre with
    | nil =>
      intro st hsten hrep
      rw [List.append_nil] at hsten
      exact ⟨st, rfl, by rw [hsten]; exact hrep⟩
    | cons el post ih =>
      intro st hsten hrep
      have hmem : ∀ a ∈ pre.map ReflineEnd.r ++ [el.r], a ∈ List.range pairs.length := by
        intro a ha
        rw [List.mem_range]
        rcases List.mem_append.mp ha with ha | ha
        · obtain ⟨e, he, rfl⟩ := List.mem_map.mp ha
          exact hids e (by rw [hsten]; exact List.mem_append_left _ he)
        · rw [List.mem_singleton.mp ha]
          exact hids el (by rw [hsten]; exact List.mem_append_right _ List.mem_cons_self)
      have hbefore : (pre.map ReflineEnd.r).count el.r ≤ 1 := by
        have hall := hcount el.r
        rw [hsten, List.map_append, List.map_cons, List.count_append, List.count_cons_self] at hall
        omega
      have hbound : ∀ c, (firstFit (pre.map ReflineEnd.r)).colour el.r = some c → c < pairs.length := by
        intro c hc
        have hlt := firstFit_lt (fun a ha => hmem a (List.mem_append_left _ ha)) hc
        rwa [List.length_range] at hlt
      obtain ⟨st₁, hst₁, hrep₁⟩ := assignLevel_rep (firstFit_coloured _) hrep el hmem hbefore hbound
      rw [← firstFit_snoc] at hrep₁
      obtain ⟨st', hst', hrep'⟩ := ih (pre ++ [el]) st₁ (by rw [hsten, List.append_cons])
        (by rw [List.map_append]; exact hrep₁)
      refine ⟨st', ?_, hrep'⟩
      rw [List.foldlM_cons, hst₁]
      exact hst'
  exact hrun [] sten st rfl hrep

end Radare
