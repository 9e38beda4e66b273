import Mathlib.Data.Set.Operations
import Radare.Flag.FlagRekey

namespace Radare

open Framework

variable {f g : RFlag} {item : Nat} {name : CStr} {x y : RFlagItem} {off : Ut64} {size : Ut32}

/-- The item is no alias. -/
def RFlag.Plain (f : RFlag) (item : Nat) : Prop := ∀ x, f.items item = some x → x.alias_ = none

/-- What is right after `item = r_flag_set (f, name, off, size)`: no two flags have one name, a flag is found
at the offset of the item, the item is in the list of this offset only, and the same call again changes nothing. -/
def SetMeets (numMath : RFlag → CStr → Ut64) (f : RFlag) (name : CStr) (off : Ut64) (size : Ut32) : Prop :=
  ∃ g item, rFlagSet numMath f name off size = some (g, some item) ∧
    (g.flags.map g.nameAt).Nodup ∧
    (∃ g' j, rFlagGetI numMath g (g.offAt item) = some (g', some j) ∧ g'.offAt j = g.offAt item) ∧
    (∃ l, g.htOff (xorOff (g.offAt item)) = some l ∧ item ∈ l) ∧
    (∀ o l, g.htOff (xorOff o) = some l → item ∈ l → o = g.offAt item) ∧
    rFlagSet numMath g name off size = some (g, some item)

/-- A flag of this name is no alias, and is at the offset already, where the last flag is no alias either, or
there is no base; or there is no such flag, no base, and `set_name` keeps the name. -/
def SetRight (f : RFlag) (name : CStr) (off : Ut64) : Prop :=
  (∃ i ∈ f.flags, f.nameAt i = name ∧ f.Plain i ∧
    ((f.offAt i = off ∧ ∀ l j, f.htOff (xorOff off) = some (l ++ [j]) → f.Plain j) ∨ (f.offAt i ≠ off ∧ f.base = 0))) ∨
  ((∀ i ∈ f.flags, f.nameAt i ≠ name) ∧ f.base = 0 ∧ rNameFilter (rStrChop name) = name)

/-- The names that the call looks up or finds in the table. -/
def namesMet (f : RFlag) (name : CStr) : Set CStr :=
  {s | s = name ∨ s = rNameFilter (rStrChop name) ∨ ∃ i ∈ f.flags, f.nameAt i = s}

theorem htName_iff (h : f.Indexed) (hinj : Set.InjOn rStrHash64 (namesMet f name)) {s : CStr} (hs : s ∈ namesMet f name)
    (i : Nat) : f.htName (rStrHash64 s) = some i ↔ i ∈ f.flags ∧ f.nameAt i = s := by
  rw [h.byName]
  constructor
  · intro hi
    exact ⟨hi.1, hinj (Or.inr (Or.inr ⟨i, hi.1, rfl⟩)) hs hi.2⟩
  · intro hi
    exact ⟨hi.1, congrArg rStrHash64 hi.2⟩

theorem setItem_self (hx : f.items item = some x) : f.setItem item x = f := by
  unfold RFlag.setItem
  rw [← hx, Function.update_eq_self]

section Calls

variable {numMath : RFlag → CStr → Ut64}

/-- The state that `r_flag_set` should leave. -/
theorem setMeets_of (hset : rFlagSet numMath f name off size = some (g, some item)) (h : g.Indexed)
    (hne : name.isEmpty = false) (hfound : g.htName (rStrHash64 name) = some item) (hy : g.items item = some y)
    (ha : y.alias_ = none) (hoff : y.offset = off) (hsize : y.size = size.setWidth 64) {l : List Nat} {j : Nat}
    (hlast : g.htOff (xorOff off) = some (l ++ [j])) (hj : g.Plain j) : SetMeets numMath f name off size := by
  have hi := ((h.byName _ item).mp hfound).1
  have hoffAt : g.offAt item = off := by rw [RFlag.offAt_eq hy, hoff]
  have hmem := h.byOff.mem (xorOff off)
  rw [hlast, Option.getD_some] at hmem
  obtain ⟨hjmem, hjkey⟩ := (hmem j).mp (List.mem_append_right _ (List.mem_singleton_self j))
  obtain ⟨z, hz, -⟩ := h.live j hjmem
  refine ⟨g, item, hset, ?_, ⟨g, j, ?_, ?_⟩, ⟨l ++ [j], ?_, ?_⟩, fun o l' hl' hil => ?_, ?_⟩
  · refine List.Nodup.map_on (fun a ha b hb hab => h.byName.key_inj ha hb ?_) h.listed
    rw [RFlag.nameKey, hab, RFlag.nameKey]
  · rw [hoffAt, rFlagGetI, hlast]
    show evalFlag numMath g (l ++ [j]).getLast? = _
    rw [List.getLast?_concat]
    exact evalFlag_eq numMath hz (hj z hz)
  · rw [hoffAt]
    exact xorOff_inj hjkey
  · rw [hoffAt]
    exact hlast
  · exact (hmem item).mpr ⟨hi, by rw [RFlag.offKey, hoffAt]⟩
  · have hkey := h.byOff.mem (xorOff o) item
    rw [hl', Option.getD_some] at hkey
    exact (xorOff_inj (hkey.mp hil).2).symm
  · have hagain := rFlagSet_stays numMath hne hfound hy ha size
    subst hoff
    rw [hagain, ← hsize]
    exact congrArg (fun s => some (s, some item)) (setItem_self hy)

/-- What comes out of the branch that moves an item, whatever its old offset was. -/
theorem rFlagSet_moved (numMath : RFlag → CStr → Ut64) {f' : RFlag} (hne : name.isEmpty = false) (hget : rFlagGet numMath f name = some (f', some item))
    (hx : f'.items item = some x) (ho : x.offset ≠ off) (size : Ut32) :
    ∃ g, rFlagSet numMath f name off size = some (g, some item) ∧ g.htName = f'.htName ∧
      g.items item = some { x with space := f'.spaceIdx, offset := off + f'.base, size := size.setWidth 64 } ∧
      g.htOff (xorOff off) = some ((f'.htOff (xorOff off)).getD [] ++ [item]) := by
  have hkey : xorOff off ≠ xorOff x.offset := fun heq => ho (xorOff_inj heq).symm
  obtain ⟨ht, hrm, hkeep⟩ : ∃ ht, removeOffsetmap f' item = some { f' with htOff := ht } ∧
      ht (xorOff off) = f'.htOff (xorOff off) := by
    cases hl : f'.htOff (xorOff x.offset) with
    | none => exact ⟨f'.htOff, by simp only [removeOffsetmap, hx, Option.bind_eq_bind, Option.bind_some, hl], rfl⟩
    | some l =>
      refine ⟨Function.update f'.htOff (xorOff x.offset) (shrink l item), ?_, Function.update_of_ne hkey _ _⟩
      simp only [removeOffsetmap, hx, Option.bind_eq_bind, Option.bind_some, hl]
  obtain ⟨g, hplace, hit, hoff, -, hn, -, -⟩ := placeItem_ends (f := { f' with htOff := ht }) hx off size
  refine ⟨g, ?_, hn, by rw [hit, Function.update_self], by rw [hoff, Function.update_self, ← hkeep]⟩
  simp only [rFlagSet, hne, Bool.false_eq_true, if_false, hget, Option.bind_eq_bind, Option.bind_some, hx,
    if_neg ho, hrm, hplace]

/-- An alias that leads elsewhere is put into the list of the offset by every call. -/
theorem alias_grows (hne : name.isEmpty = false) (hfound : f.htName (rStrHash64 name) = some item)
    (hx : f.items item = some x) (ha : x.alias_ ≠ none) {v : Ut64} (hv : v ≠ off) (size : Ut32) :
    ∃ g, rFlagSet (fun _ _ => v) f name off size = some (g, some item) ∧ g.htName (rStrHash64 name) = some item ∧
      (∃ y, g.items item = some y ∧ y.alias_ ≠ none) ∧
      g.htOff (xorOff off) = some ((f.htOff (xorOff off)).getD [] ++ [item]) := by
  obtain ⟨a, ha'⟩ := Option.ne_none_iff_exists'.mp ha
  have hget : rFlagGet (fun _ _ => v) f name = some (f.setItem item { x with offset := v }, some item) := by
    rw [rFlagGet, hfound]
    simp only [evalFlag, hx, Option.bind_eq_bind, Option.bind_some, ha']
  obtain ⟨g, hg, hgn, hgit, hgoff⟩ := rFlagSet_moved _ hne hget (Function.update_self item _ _) hv size
  exact ⟨g, hg, by rw [hgn]; exact hfound, ⟨_, hgit, ha⟩, hgoff⟩

/-- An alias at the end of a list does not stay at the offset of the list. -/
theorem rFlagGetI_alias {l : List Nat} {j : Nat} (hl : f.htOff (xorOff off) = some (l ++ [j])) (hx : f.items j = some x)
    (ha : x.alias_ ≠ none) {v : Ut64} :
    rFlagGetI (fun _ _ => v) f off = some (f.setItem j { x with offset := v }, some j) := by
  obtain ⟨a, ha'⟩ := Option.ne_none_iff_exists'.mp ha
  simp only [rFlagGetI, hl, List.getLast?_concat, evalFlag, hx, Option.bind_eq_bind, Option.bind_some, ha']

/-- Where there is no such flag yet. -/
theorem rFlagSet_fresh (numMath : RFlag → CStr → Ut64) (hne : name.isEmpty = false) (hfree : f.htName (rStrHash64 name) = none) (off : Ut64) (size : Ut32) :
    ∃ g, rFlagSet numMath f name off size = some (g, some f.fresh) ∧
      g.htName = Function.update f.htName (rStrHash64 (rNameFilter (rStrChop name))) (some f.fresh) ∧
      g.offAt f.fresh = off + f.base ∧ g.fresh = f.fresh + 1 ∧
      g.htOff (xorOff off) = some ((f.htOff (xorOff off)).getD [] ++ [f.fresh]) := by
  have hitem : (newItem f name).items f.fresh = some (setName RFlagItem.zero name) := Function.update_self _ _ _
  obtain ⟨g, hplace, hit, hoff, -, hn, hfr, -⟩ := placeItem_ends hitem off size
  refine ⟨g, ?_, hn, RFlag.offAt_eq (by rw [hit, Function.update_self]), hfr, by rw [hoff, Function.update_self]; rfl⟩
  simp only [rFlagSet, hne, Bool.false_eq_true, if_false, rFlagGet_none numMath hfree, Option.bind_eq_bind,
    Option.bind_some, hplace]

/-- Under the condition everything is right. -/
theorem SetRight.meets (hr : SetRight f name off) (h : f.Indexed) (hfresh : f.fresh ∉ f.flags) (hne : name.isEmpty = false)
    (hinj : Set.InjOn rStrHash64 (namesMet f name)) (size : Ut32) : SetMeets numMath f name off size := by
  rcases hr with ⟨i, hi, hname, hplain, hoff⟩ | ⟨hnew, hb, hfilter⟩
  · have hfound := (htName_iff h hinj (Or.inl rfl) i).mpr ⟨hi, hname⟩
    obtain ⟨x, hx, -⟩ := h.live i hi
    have ha := hplain x hx
    rw [RFlag.offAt_eq hx] at hoff
    rcases hoff with ⟨rfl, hlast⟩ | ⟨ho, hb⟩
    · obtain ⟨l, hl, hil⟩ := h.byOff.find hi
      rw [RFlag.offKey, RFlag.offAt_eq hx] at hl
      obtain ⟨l, j, rfl⟩ := (List.eq_nil_or_concat l).resolve_left (List.ne_nil_of_mem hil)
      rw [List.concat_eq_append] at hl
      have hset := rFlagSet_stays numMath hne hfound hx ha size
      refine setMeets_of hset (setSize_indexed h hi hx _) hne hfound (Function.update_self i _ _) ha rfl rfl hl (fun z hz => ?_)
      by_cases hji : j = i
      · subst hji
        rw [Option.some.inj (hz.symm.trans (Function.update_self j _ _))]
        exact ha
      · exact hlast l j hl z ((Function.update_of_ne hji _ _).symm.trans hz)
    · obtain ⟨g, l, hset, hidx, hit, -, hn, -, -, hlast⟩ := rFlagSet_moves numMath h hb hne hfound hx ha ho size
      have hself : g.items i = some { x with space := f.spaceIdx, offset := off, size := size.setWidth 64 } := by
        rw [hit, Function.update_self]
      refine setMeets_of hset hidx hne (by rw [hn]; exact hfound) hself ha rfl rfl hlast (fun z hz => ?_)
      rw [Option.some.inj (hz.symm.trans hself)]
      exact ha
  · have hfree : f.htName (rStrHash64 name) = none :=
      Option.eq_none_iff_forall_ne_some.mpr (fun i hi => hnew i ((htName_iff h hinj (Or.inl rfl) i).mp hi).1
        ((htName_iff h hinj (Or.inl rfl) i).mp hi).2)
    have hhash : (setName RFlagItem.zero name).namehash = rStrHash64 name := congrArg rStrHash64 hfilter
    obtain ⟨g, l, hset, hidx, hit, -, hn, -, -, hlast⟩ :=
      rFlagSet_adds numMath h hb hfresh hne hfree (by rw [hhash]; exact hfree) off size
    have hself : g.items f.fresh = some { setName RFlagItem.zero name with
        space := f.spaceIdx, offset := off, size := size.setWidth 64 } := by rw [hit, Function.update_self]
    have hfound : g.htName (rStrHash64 name) = some f.fresh := by rw [hn, hhash, Function.update_self]
    refine setMeets_of hset hidx hne hfound hself rfl rfl rfl hlast (fun z hz => ?_)
    rw [Option.some.inj (hz.symm.trans hself)]
    rfl

theorem add_base_eq {off base : Ut64} (h : off = off + base) : base = 0 := by
  have hzero := BitVec.sub_self off
  bv_omega

/-- Where the item is put with the base, its list is the one of another offset. -/
theorem base_zero_of_meets (hset : rFlagSet numMath f name off size = some (g, some item))
    (hlist : ∃ l, g.htOff (xorOff off) = some l ∧ item ∈ l) (hoff : g.offAt item = off + f.base)
    (h : SetMeets numMath f name off size) : f.base = 0 := by
  obtain ⟨g', item', hset', -, -, -, honly, -⟩ := h
  rw [hset] at hset'
  cases hset'
  obtain ⟨l, hl, hmem⟩ := hlist
  exact add_base_eq ((honly off l hl hmem).trans hoff)

/-- Where everything is right whatever the aliases evaluate to, the condition holds. -/
theorem SetRight.of_meets (hall : ∀ numMath, SetMeets numMath f name off size) (h : f.Indexed)
    (hne : name.isEmpty = false) (hinj : Set.InjOn rStrHash64 (namesMet f name)) : SetRight f name off := by
  have hmet := htName_iff h hinj (Or.inl rfl)
  cases hn : f.htName (rStrHash64 name) with
  | none =>
    refine Or.inr ⟨fun i hi hname => ?_, ?_, ?_⟩
    · rw [(hmet i).mpr ⟨hi, hname⟩] at hn
      cases hn
    · obtain ⟨g, hset, -, hoffAt, -, hlist⟩ := rFlagSet_fresh (fun _ _ => 0) hne hn off size
      exact base_zero_of_meets hset ⟨_, hlist, List.mem_append_right _ (List.mem_singleton_self _)⟩ hoffAt (hall _)
    · -- otherwise the second call does not find what the first has made
      by_contra hfilter
      obtain ⟨g, hset, htab, -, hfr, -⟩ := rFlagSet_fresh (fun _ _ => 0) hne hn off size
      have hhash : rStrHash64 name ≠ rStrHash64 (rNameFilter (rStrChop name)) :=
        fun heq => hfilter (hinj (Or.inl rfl) (Or.inr (Or.inl rfl)) heq).symm
      have hfree : g.htName (rStrHash64 name) = none := by rw [htab, Function.update_of_ne hhash, hn]
      obtain ⟨g₂, hset₂, -⟩ := rFlagSet_fresh (fun _ _ => 0) hne hfree off size
      obtain ⟨g', item', hset', -, -, -, -, hagain⟩ := hall (fun _ _ => 0)
      rw [hset] at hset'
      cases hset'
      rw [hset₂, hfr] at hagain
      have hitems := congrArg Prod.snd (Option.some.inj hagain)
      have heq : f.fresh + 1 = f.fresh := Option.some.inj hitems
      omega
  | some i =>
    obtain ⟨hi, hname⟩ := (hmet i).mp hn
    obtain ⟨x, hx, -⟩ := h.live i hi
    have hv : off + 1#64 ≠ off := fun heq => absurd (add_base_eq heq.symm) (by decide)
    have hplain : x.alias_ = none := by
      by_contra ha
      obtain ⟨g, hset, hn', ⟨y, hy, hya⟩, hlist⟩ := alias_grows hne hn hx ha hv size
      obtain ⟨g₂, hset₂, -, -, hlist₂⟩ := alias_grows hne hn' hy hya hv size
      obtain ⟨g', item', hset', -, -, -, -, hagain⟩ := hall (fun _ _ => off + 1#64)
      rw [hset] at hset'
      cases hset'
      rw [hset₂] at hagain
      cases hagain
      rw [hlist] at hlist₂
      have hlen := congrArg List.length (Option.some.inj hlist₂)
      simp at hlen
    have hplain' : f.Plain i := fun z hz => by rw [Option.some.inj (hz.symm.trans hx)]; exact hplain
    refine Or.inl ⟨i, hi, hname, hplain', ?_⟩
    rw [RFlag.offAt_eq hx]
    by_cases ho : x.offset = off
    · subst ho
      refine Or.inl ⟨rfl, fun l j hl z hz => ?_⟩
      by_contra ha
      have hji : j ≠ i := fun heq => ha (hplain' z (by rw [← heq]; exact hz))
      obtain ⟨g', item', hset', -, ⟨g₂, j', hget, hoff₂⟩, -⟩ := hall (fun _ _ => x.offset + 1#64)
      rw [rFlagSet_stays _ hne hn hx hplain size] at hset'
      cases hset'
      have hself : (f.setItem i { x with size := size.setWidth 64 }).offAt i = x.offset :=
        RFlag.offAt_eq (x := { x with size := size.setWidth 64 }) (Function.update_self i _ _)
      have hzj := (Function.update_of_ne hji (some { x with size := size.setWidth 64 }) f.items).trans hz
      rw [hself] at hget hoff₂
      rw [rFlagGetI_alias (f := f.setItem i { x with size := size.setWidth 64 }) hl hzj ha] at hget
      cases hget
      rw [RFlag.offAt_eq (Function.update_self j _ _)] at hoff₂
      exact hv hoff₂
    · obtain ⟨g, hset, -, hself, hlist⟩ := rFlagSet_moved (fun _ _ => 0) hne
        (rFlagGet_found _ hn hx hplain) hx ho size
      exact Or.inr ⟨ho, base_zero_of_meets hset ⟨_, hlist, List.mem_append_right _ (List.mem_singleton_self _)⟩
        (RFlag.offAt_eq hself) (hall _)⟩

end Calls

/-- From every consistent state, for every base, name, offset and size: all is right, whatever the aliases
evaluate to, exactly under the condition. -/
theorem flagSet_iff (h : f.Consistent) (hfresh : f.fresh ∉ f.flags) (hne : name ≠ [])
    (hinj : Set.InjOn rStrHash64 (namesMet f name)) (off : Ut64) (size : Ut32) :
    (∀ numMath, SetMeets numMath f name off size) ↔ SetRight f name off := by
  have hne' : name.isEmpty = false := by
    rw [List.isEmpty_eq_false_iff]
    exact hne
  exact ⟨fun hall => SetRight.of_meets hall h.indexed hne' hinj,
    fun hr numMath => hr.meets h.indexed hfresh hne' hinj size⟩

/-- Where there is the flag `a` at 8, a flag `b` may be set there. -/
theorem flagSet_iff_second : ∃ f, rFlagNew.run (fun _ _ => 0) [.set ['a'] 8 1] = some f ∧
    ∀ numMath, SetMeets numMath f ['b'] 8 4 := by
  obtain ⟨f, hf, hok, hflags, hname, hoff⟩ := oneFlag_run
  have hfresh : f.fresh ∉ f.flags := fun hmem => lt_irrefl _ (hok.bound _ hmem)
  have hnames : ∀ s ∈ namesMet f ['b'], s = ['b'] ∨ s = ['a'] := by
    rintro s (rfl | rfl | ⟨i, hi, rfl⟩)
    · exact Or.inl rfl
    · exact Or.inl (by decide)
    · rw [hflags, List.mem_singleton] at hi
      rw [hi]
      exact Or.inr hname
  have hinj : Set.InjOn rStrHash64 (namesMet f ['b']) := by
    intro s hs t ht heq
    rcases hnames s hs with rfl | rfl <;> rcases hnames t ht with rfl | rfl
    · rfl
    · exact absurd heq (by decide)
    · exact absurd heq (by decide)
    · rfl
  refine ⟨f, hf, (flagSet_iff hok.indexed.consistent hfresh (by decide) hinj 8 4).mpr (Or.inr ⟨?_, hok.base, by decide⟩)⟩
  intro i hi heq
  rw [hflags, List.mem_singleton] at hi
  rw [hi, hname] at heq
  exact absurd heq (by decide)

/-- The flag `a b` is stored as `a_b` and not found again: the second call makes another one. -/
theorem flagSet_twice : rFlagNew.Consistent ∧ ¬SetMeets (fun _ _ => 0) rFlagNew ['a', ' ', 'b'] 8 1 := by
  refine ⟨RFlag.Indexed.new.consistent, fun h => ?_⟩
  obtain ⟨g, item, hset, -, -, -, -, hagain⟩ := h
  have hfirst : (rFlagSet (fun _ _ => 0) rFlagNew ['a', ' ', 'b'] 8 1).map Prod.snd = some (some 0) := by
    decide
  have hsecond : ((rFlagSet (fun _ _ => 0) rFlagNew ['a', ' ', 'b'] 8 1).bind
      (fun r => rFlagSet (fun _ _ => 0) r.1 ['a', ' ', 'b'] 8 1)).map Prod.snd = some (some 1) := by
    decide
  rw [hset] at hfirst hsecond
  rw [Option.bind_some, hagain] at hsecond
  have hsame := hfirst.symm.trans hsecond
  exact absurd hsame (by decide)

end Radare
