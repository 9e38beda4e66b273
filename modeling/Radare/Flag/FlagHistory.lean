import Radare.Flag.Flag

namespace Radare

open Framework

/-- `r_str_chop` and `r_name_filter` leave the name unchanged. -/
def CleanName (name : CStr) : Prop := rStrChop name = name ∧ rNameFilter name = name

instance (name : CStr) : Decidable (CleanName name) := inferInstanceAs (Decidable (_ ∧ _))

/-- The calls of a history. -/
inductive FlagOp where
  | set (name : CStr) (off : Ut64) (size : Ut32)
  | unsetName (name : CStr)
  | unsetOff (off : Ut64)
  | unsetGlob (glob : Option CStr)
  | move (at_ to_ : Ut64)
  | unsetAll

/-- Only a name that is set has to be clean. -/
def FlagOp.Clean : FlagOp → Prop
  | .set name _ _ => CleanName name
  | _ => True

/-- No item is an alias. -/
def RFlag.NoAlias (f : RFlag) : Prop := ∀ i ∈ f.flags, ∀ x, f.items i = some x → x.alias_ = none

/-- What every call keeps: the indexes, no aliases, addresses given out once, and no base. -/
structure RFlag.Ok (f : RFlag) : Prop where
  indexed : f.Indexed
  plain : f.NoAlias
  bound : ∀ i ∈ f.flags, i < f.fresh
  base : f.base = 0

theorem RFlag.Ok.new : rFlagNew.Ok := by
  refine ⟨Indexed.new, fun i hi => ?_, fun i hi => ?_, rfl⟩
  · cases hi
  · cases hi

section Calls

variable (numMath : RFlag → CStr → Ut64)

def RFlag.step (f : RFlag) : FlagOp → Option RFlag
  | .set name off size => (rFlagSet numMath f name off size).map Prod.fst
  | .unsetName name => (rFlagUnsetName f name).map Prod.fst
  | .unsetOff off => (rFlagUnsetOff numMath f off).map Prod.fst
  | .unsetGlob glob => (rFlagUnsetGlob f glob).map Prod.fst
  | .move at_ to_ => (rFlagMove numMath f at_ to_).map Prod.fst
  | .unsetAll => some (rFlagUnsetAll f)

def RFlag.run (f : RFlag) : List FlagOp → Option RFlag
  | [] => some f
  | op :: ops => do
    let f ← f.step numMath op
    f.run ops

theorem evalFlag_plain {f : RFlag} (h : f.Indexed) (hp : f.NoAlias) {item : Nat} (hi : item ∈ f.flags) :
    evalFlag numMath f (some item) = some (f, some item) := by
  obtain ⟨x, hx, -⟩ := h.live item hi
  exact evalFlag_eq numMath hx (hp item hi x hx)

/-- `r_flag_get_i` finds an item exactly where there is one, and one that is there. -/
theorem rFlagGetI_spec {f : RFlag} (h : f.Indexed) (hp : f.NoAlias) (off : Ut64) :
    ∃ r, rFlagGetI numMath f off = some (f, r) ∧
      (∀ item, r = some item → item ∈ f.flags ∧ f.offAt item = off) ∧
      (r = none → ∀ item ∈ f.flags, f.offAt item ≠ off) := by
  cases hl : f.htOff (xorOff off) with
  | none =>
    refine ⟨none, by rw [rFlagGetI, hl], ⟨fun item hr => ?_, ?_⟩⟩
    · cases hr
    rintro - item hi rfl
    have hmem := (h.byOff.mem (f.offKey item) item).mpr ⟨hi, rfl⟩
    rw [RFlag.offKey, hl] at hmem
    cases hmem
  | some l =>
    have hne : l ≠ [] := by
      rintro rfl
      exact h.byOff.full _ hl
    have hlast : l.getLast? = some (l.getLast hne) := List.getLast?_eq_some_getLast hne
    have hmem := h.byOff.mem (xorOff off) (l.getLast hne)
    rw [hl, Option.getD_some] at hmem
    obtain ⟨hin, hkey⟩ := hmem.mp (List.getLast_mem hne)
    refine ⟨some (l.getLast hne), ?_, ?_, by simp⟩
    · rw [rFlagGetI, hl]
      show evalFlag numMath f l.getLast? = _
      rw [hlast]
      exact evalFlag_plain numMath h hp hin
    · rintro item ⟨⟩
      exact ⟨hin, xorOff_inj hkey⟩

/-- A change to one item that leaves it in the list, and makes it no alias. -/
theorem RFlag.Ok.of_update {f g : RFlag} (h : f.Ok) (hidx : g.Indexed) {item : Nat} {y : RFlagItem}
    (hit : g.items = Function.update f.items item (some y)) (hfl : g.flags = f.flags)
    (hfr : g.fresh = f.fresh) (hb : g.base = f.base) (ha : y.alias_ = none) : g.Ok := by
  refine ⟨hidx, fun i hmem z hz => ?_, fun i hmem => ?_, by rw [hb]; exact h.base⟩
  · rw [hfl] at hmem
    rw [hit] at hz
    by_cases hne : i = item
    · subst hne
      rw [Function.update_self] at hz
      cases hz
      exact ha
    · rw [Function.update_of_ne hne] at hz
      exact h.plain i hmem z hz
  · rw [hfl] at hmem
    rw [hfr]
    exact h.bound i hmem

/-- `r_flag_set` of a name in use. -/
theorem rFlagSet_found {f : RFlag} (h : f.Ok) {name : CStr} {item : Nat} (hne : name.isEmpty = false)
    (hfound : f.htName (rStrHash64 name) = some item) (off : Ut64) (size : Ut32) :
    ∃ g, rFlagSet numMath f name off size = some (g, some item) ∧ g.Ok := by
  have hi := ((h.indexed.byName _ item).mp hfound).1
  obtain ⟨x, hx, -⟩ := h.indexed.live item hi
  have ha := h.plain item hi x hx
  by_cases ho : x.offset = off
  · subst ho
    have hidx := setSize_indexed h.indexed hi hx (size.setWidth 64)
    exact ⟨_, rFlagSet_stays numMath hne hfound hx ha size, h.of_update hidx rfl rfl rfl rfl ha⟩
  · obtain ⟨g, l, hg, hidx, hit, hfl, -, hfr, hb, -⟩ := rFlagSet_moves numMath h.indexed h.base hne hfound hx ha ho size
    exact ⟨g, hg, h.of_update hidx hit hfl hfr hb ha⟩

/-- `r_flag_set` of a new name. -/
theorem rFlagSet_new {f : RFlag} (h : f.Ok) {name : CStr} (hne : name.isEmpty = false)
    (hc : CleanName name) (hfree : f.htName (rStrHash64 name) = none) (off : Ut64) (size : Ut32) :
    ∃ g, rFlagSet numMath f name off size = some (g, some f.fresh) ∧ g.Ok := by
  have hhash : (setName RFlagItem.zero name).namehash = rStrHash64 name := by rw [setName, hc.1, hc.2]
  have hnot : f.fresh ∉ f.flags := fun hmem => lt_irrefl _ (h.bound _ hmem)
  obtain ⟨g, l, hg, hidx, hit, hfl, -, hfr, hb, -⟩ :=
    rFlagSet_adds numMath h.indexed h.base hnot hne hfree (by rw [hhash]; exact hfree) off size
  refine ⟨g, hg, hidx, fun i hmem x hx => ?_, fun i hmem => ?_, by rw [hb]; exact h.base⟩
  · rw [hfl, List.mem_append, List.mem_singleton] at hmem
    rw [hit] at hx
    by_cases hi : i = f.fresh
    · subst hi
      rw [Function.update_self] at hx
      cases hx
      rfl
    · rw [Function.update_of_ne hi] at hx
      exact h.plain i (hmem.resolve_right hi) x hx
  · rw [hfl, List.mem_append, List.mem_singleton] at hmem
    rcases hmem with hmem | rfl
    · have hlt := h.bound i hmem
      omega
    · omega

/-- `r_flag_set` keeps everything right. -/
theorem rFlagSet_ok {f : RFlag} (h : f.Ok) (name : CStr)
    (hc : f.htName (rStrHash64 name) = none → CleanName name) (off : Ut64) (size : Ut32) :
    ∃ g r, rFlagSet numMath f name off size = some (g, r) ∧ g.Ok := by
  cases hne : name.isEmpty with
  | true => exact ⟨f, none, by rw [rFlagSet, if_pos hne], h⟩
  | false =>
    cases hn : f.htName (rStrHash64 name) with
    | none =>
      obtain ⟨g, hg, hok⟩ := rFlagSet_new numMath h hne (hc hn) hn off size
      exact ⟨g, _, hg, hok⟩
    | some item =>
      obtain ⟨g, hg, hok⟩ := rFlagSet_found numMath h hne hn off size
      exact ⟨g, _, hg, hok⟩

/-- `r_flag_unset` followed by the `free` its callers make. -/
theorem unset_free_ok {f : RFlag} (h : f.Ok) {item : Nat} (hi : item ∈ f.flags) :
    ∃ g, rFlagUnset f item = some g ∧ (g.freeItem item).Ok ∧
      (g.freeItem item).flags = f.flags.erase item := by
  obtain ⟨g, hg, hidx, hfl, hit, hfr, hb⟩ := rFlagUnset_spec h.indexed hi
  have hnot : item ∉ g.flags := by
    rw [hfl]
    exact h.indexed.listed.not_mem_erase
  have hfl' : (g.freeItem item).flags = f.flags.erase item := hfl
  refine ⟨g, hg, ⟨hidx.freeItem hnot, ?_, ?_, hb.trans h.base⟩, hfl'⟩
  · intro i hmem x hx
    have hne : i ≠ item := by
      rintro rfl
      exact hnot hmem
    have hold : (g.freeItem item).items i = f.items i := by
      rw [RFlag.freeItem, ← hit]
      exact Function.update_of_ne hne _ _
    rw [hold] at hx
    rw [hfl'] at hmem
    exact h.plain i (List.mem_of_mem_erase hmem) x hx
  · intro i hmem
    rw [hfl'] at hmem
    show i < g.fresh
    rw [hfr]
    exact h.bound i (List.mem_of_mem_erase hmem)

theorem rFlagUnsetOff_ok {f : RFlag} (h : f.Ok) (off : Ut64) :
    ∃ g r, rFlagUnsetOff numMath f off = some (g, r) ∧ g.Ok := by
  obtain ⟨r, hr, hsome, -⟩ := rFlagGetI_spec numMath h.indexed h.plain off
  cases r with
  | none => exact ⟨f, false, by simp only [rFlagUnsetOff, hr, Option.bind_eq_bind, Option.bind_some], h⟩
  | some item =>
    obtain ⟨g, hg, hok, -⟩ := unset_free_ok h (hsome item rfl).1
    exact ⟨_, true, by simp only [rFlagUnsetOff, hr, Option.bind_eq_bind, Option.bind_some, hg], hok⟩

theorem rFlagUnsetName_ok {f : RFlag} (h : f.Ok) (name : CStr) :
    ∃ g r, rFlagUnsetName f name = some (g, r) ∧ g.Ok := by
  cases hn : f.htName (rStrHash64 name) with
  | none => exact ⟨f, false, by simp only [rFlagUnsetName, hn], h⟩
  | some item =>
    obtain ⟨g, hg, hok, -⟩ := unset_free_ok h ((h.indexed.byName _ item).mp hn).1
    exact ⟨_, true, by simp only [rFlagUnsetName, hn, Option.bind_eq_bind, Option.bind_some, hg], hok⟩

/-- The loop of `r_flag_unset_glob`: the nodes it has yet to visit stay in the list. -/
theorem unsetGlobLoop_ok (glob : Option CStr) (rest : List Nat) {f : RFlag} (h : f.Ok)
    (hsub : ∀ i ∈ rest, i ∈ f.flags) (hnd : rest.Nodup) (n : Nat) :
    ∃ g k, unsetGlobLoop glob rest f n = some (g, k) ∧ g.Ok := by
  induction rest generalizing f n with
  | nil => exact ⟨f, n, rfl, h⟩
  | cons flag rest ih =>
    obtain ⟨hnot, hnd⟩ := List.nodup_cons.mp hnd
    have hflag := hsub flag List.mem_cons_self
    have hrest : ∀ i ∈ rest, i ∈ f.flags := fun i hi => hsub i (List.mem_cons_of_mem _ hi)
    obtain ⟨x, hx, -⟩ := h.indexed.live flag hflag
    simp only [unsetGlobLoop, hx, Option.bind_eq_bind, Option.bind_some]
    split_ifs with hspace hglob
    · exact ih h hrest hnd n
    · obtain ⟨g, hg, hok, hfl⟩ := unset_free_ok h hflag
      simp only [hg, Option.bind_some]
      refine ih hok ?_ hnd (n + 1)
      intro i hi
      rw [hfl, h.indexed.listed.mem_erase_iff]
      refine ⟨?_, hrest i hi⟩
      rintro rfl
      exact hnot hi
    · exact ih h hrest hnd n

theorem rFlagMove_ok {f : RFlag} (h : f.Ok) (at_ to_ : Ut64) :
    ∃ g r, rFlagMove numMath f at_ to_ = some (g, r) ∧ g.Ok := by
  obtain ⟨r, hr, hsome, -⟩ := rFlagGetI_spec numMath h.indexed h.plain at_
  cases r with
  | none => exact ⟨f, false, by simp only [rFlagMove, hr, Option.bind_eq_bind, Option.bind_some], h⟩
  | some item =>
    have hi := (hsome item rfl).1
    obtain ⟨x, hx, -⟩ := h.indexed.live item hi
    have hfound : f.htName (rStrHash64 x.name) = some item := by
      have hkey := h.indexed.byName.find hi
      rwa [RFlag.nameKey, RFlag.nameAt_eq hx] at hkey
    obtain ⟨g, r, hg, hok⟩ := rFlagSet_ok numMath h x.name
      (fun hn => by rw [hfound] at hn; cases hn) to_ (x.size.setWidth 32)
    exact ⟨g, true, by simp only [rFlagMove, hr, hx, Option.bind_eq_bind, Option.bind_some, hg], hok⟩

theorem rFlagUnsetAll_ok {f : RFlag} (h : f.Ok) : (rFlagUnsetAll f).Ok := by
  refine ⟨⟨fun i hi => ?_, List.nodup_nil, Indexes.empty, Groups.empty⟩, fun i hi => ?_, fun i hi => ?_, h.base⟩
  · cases hi
  · cases hi
  · cases hi

/-- Every call keeps the indexes. -/
theorem RFlag.Ok.step {f : RFlag} (h : f.Ok) {op : FlagOp} (hc : op.Clean) :
    ∃ g, f.step numMath op = some g ∧ g.Ok := by
  cases op with
  | set name off size =>
    obtain ⟨g, r, hg, hok⟩ := rFlagSet_ok numMath h name (fun _ => hc) off size
    exact ⟨g, by rw [RFlag.step, hg]; rfl, hok⟩
  | unsetName name =>
    obtain ⟨g, r, hg, hok⟩ := rFlagUnsetName_ok h name
    exact ⟨g, by rw [RFlag.step, hg]; rfl, hok⟩
  | unsetOff off =>
    obtain ⟨g, r, hg, hok⟩ := rFlagUnsetOff_ok numMath h off
    exact ⟨g, by rw [RFlag.step, hg]; rfl, hok⟩
  | unsetGlob glob =>
    obtain ⟨g, r, hg, hok⟩ := unsetGlobLoop_ok glob f.flags h (fun _ hi => hi) h.indexed.listed 0
    exact ⟨g, by rw [RFlag.step, rFlagUnsetGlob, hg]; rfl, hok⟩
  | move at_ to_ =>
    obtain ⟨g, r, hg, hok⟩ := rFlagMove_ok numMath h at_ to_
    exact ⟨g, by rw [RFlag.step, hg]; rfl, hok⟩
  | unsetAll => exact ⟨_, rfl, rFlagUnsetAll_ok h⟩

theorem RFlag.Ok.run {f : RFlag} (h : f.Ok) (ops : List FlagOp) (hc : ∀ op ∈ ops, op.Clean) :
    ∃ g, f.run numMath ops = some g ∧ g.Ok := by
  induction ops generalizing f with
  | nil => exact ⟨f, rfl, h⟩
  | cons op ops ih =>
    obtain ⟨g, hg, hok⟩ := h.step numMath (hc op List.mem_cons_self)
    obtain ⟨g', hg', hok'⟩ := ih hok (fun op' hop => hc op' (List.mem_cons_of_mem _ hop))
    exact ⟨g', by simp only [RFlag.run, hg, Option.bind_eq_bind, Option.bind_some, hg'], hok'⟩

/-- After every history of calls the list and the two tables describe the same set. -/
theorem flag_run_consistent (ops : List FlagOp) (hc : ∀ op ∈ ops, op.Clean) :
    ∃ f, rFlagNew.run numMath ops = some f ∧ f.Consistent := by
  obtain ⟨f, hf, hok⟩ := RFlag.Ok.new.run numMath ops hc
  exact ⟨f, hf, hok.indexed.consistent⟩

end Calls

/-- Two flags at one offset, one of which moves; then the other one goes. -/
theorem flag_run_consistent_move : ∃ f, rFlagNew.run (fun _ _ => 0)
    [.set ['a'] 8 1, .set ['b'] 8 2, .move 8 16, .unsetOff 8] = some f ∧ f.Consistent := by
  refine flag_run_consistent (fun _ _ => 0) _ ?_
  intro op hop
  simp only [List.mem_cons, List.not_mem_nil, or_false] at hop
  rcases hop with rfl | rfl | rfl | rfl
  · exact ⟨by decide, by decide⟩
  · exact ⟨by decide, by decide⟩
  · trivial
  · trivial

end Radare
