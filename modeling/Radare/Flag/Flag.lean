import Radare.Framework.KeyIndex
import Radare.Util.Str

namespace Radare

/-- `RFlagItem`; `color` and `comment` are read by nothing here. -/
@[ext] structure RFlagItem where
  name : CStr
  realname : CStr
  namehash : Ut64
  offset : Ut64
  size : Ut64
  space : Int
  alias_ : Option CStr

/-- What `R_NEW0` gives. -/
def RFlagItem.zero : RFlagItem := ⟨[], [], 0, 0, 0, 0, none⟩

/-- `RFlag`. An item is known by its address; `items` is the memory the addresses point to, `none`
once it is freed. The two hash tables are exact maps. -/
structure RFlag where
  items : Nat → Option RFlagItem
  fresh : Nat
  flags : List Nat
  htName : Ut64 → Option Nat
  htOff : Ut64 → Option (List Nat)
  spaceIdx : Int
  spaces : Nat → Option CStr
  base : Ut64

/-- `XOROFF`. -/
def xorOff (x : Ut64) : Ut64 := x ^^^ 0x12345678#64

def rFlagNew : RFlag := ⟨fun _ => none, 0, [], fun _ => none, fun _ => none, -1, fun _ => none, 0⟩

/-- An assignment through a pointer to an item. -/
def RFlag.setItem (f : RFlag) (item : Nat) (x : RFlagItem) : RFlag :=
  { f with items := Function.update f.items item (some x) }

def RFlag.freeItem (f : RFlag) (item : Nat) : RFlag :=
  { f with items := Function.update f.items item none }

/-- `IS_IN_SPACE`, which holds of the items that are not. -/
def RFlag.isInSpace (f : RFlag) (x : RFlagItem) : Bool := f.spaceIdx ≠ -1 && x.space ≠ f.spaceIdx

def removeOffsetmap (f : RFlag) (item : Nat) : Option RFlag := do
  let x ← f.items item
  match f.htOff (xorOff x.offset) with
  | none => some f
  | some fsOff =>
    some { f with htOff := Function.update f.htOff (xorOff x.offset) (Framework.shrink fsOff item) }

/-- `set_name`. -/
def setName (x : RFlagItem) (name : CStr) : RFlagItem :=
  let name := rNameFilter (rStrChop name)
  { x with name := name, namehash := rStrHash64 name, realname := name }

section Calls

-- `r_num_math (f->num, ...)`, which only an alias asks for.
variable (numMath : RFlag → CStr → Ut64)

def evalFlag (f : RFlag) : Option Nat → Option (RFlag × Option Nat)
  | none => some (f, none)
  | some item => do
    let x ← f.items item
    match x.alias_ with
    | none => some (f, some item)
    | some a => some (f.setItem item { x with offset := numMath f a }, some item)

def rFlagGet (f : RFlag) (name : CStr) : Option (RFlag × Option Nat) :=
  evalFlag numMath f (f.htName (rStrHash64 name))

/-- `r_flag_get_i`: the last item of the list. -/
def rFlagGetI (f : RFlag) (off : Ut64) : Option (RFlag × Option Nat) :=
  match f.htOff (xorOff off) with
  | none => some (f, none)
  | some list => evalFlag numMath f list.getLast?

/-- The end of `r_flag_set`: the item takes its place and its offset list. -/
def placeItem (f : RFlag) (item : Nat) (off : Ut64) (size : Ut32) : Option RFlag := do
  let x ← f.items item
  let f := f.setItem item
    { x with space := f.spaceIdx, offset := off + f.base, size := size.setWidth 64 }
  let list := (f.htOff (xorOff off)).getD []
  some { f with htOff := Function.update f.htOff (xorOff off) (some (list ++ [item])) }

/-- The branch of `r_flag_set` for a new name. -/
def newItem (f : RFlag) (name : CStr) : RFlag :=
  let item := f.fresh
  let x := setName RFlagItem.zero name
  { f.setItem item x with
    fresh := item + 1, flags := f.flags ++ [item]
    htName := Function.update f.htName x.namehash (some item) }

def rFlagSet (f : RFlag) (name : CStr) (off : Ut64) (size : Ut32) : Option (RFlag × Option Nat) :=
  if name.isEmpty then some (f, none)
  else do
    let (f, found) ← rFlagGet numMath f name
    match found with
    | some item => do
      let x ← f.items item
      if x.offset = off then some (f.setItem item { x with size := size.setWidth 64 }, some item)
      else do
        let f ← removeOffsetmap f item
        let f ← placeItem f item off size
        some (f, some item)
    | none => do
      let item := f.fresh
      let f ← placeItem (newItem f name) item off size
      some (f, some item)

/-- `r_flag_unset`; the item is not freed. -/
def rFlagUnset (f : RFlag) (item : Nat) : Option RFlag := do
  let f ← removeOffsetmap f item
  let x ← f.items item
  some { f with htName := Function.update f.htName x.namehash none, flags := f.flags.erase item }

def rFlagUnsetOff (f : RFlag) (off : Ut64) : Option (RFlag × Bool) := do
  let (f, found) ← rFlagGetI numMath f off
  match found with
  | none => some (f, false)
  | some item => do
    let f ← rFlagUnset f item
    some (f.freeItem item, true)

/-- The loop of `r_flag_unset_glob`. The next node is read before the item goes, and the only node
that goes is the current one. -/
def unsetGlobLoop (glob : Option CStr) : List Nat → RFlag → Nat → Option (RFlag × Nat)
  | [], f, n => some (f, n)
  | flag :: rest, f, n => do
    let x ← f.items flag
    if f.isInSpace x then unsetGlobLoop glob rest f n
    else if rStrGlob x.name glob then do
      let f ← rFlagUnset f flag
      unsetGlobLoop glob rest (f.freeItem flag) (n + 1)
    else unsetGlobLoop glob rest f n

def rFlagUnsetGlob (f : RFlag) (glob : Option CStr) : Option (RFlag × Nat) :=
  unsetGlobLoop glob f.flags f 0

def rFlagUnsetName (f : RFlag) (name : CStr) : Option (RFlag × Bool) :=
  match f.htName (rStrHash64 name) with
  | none => some (f, false)
  | some item => do
    let f ← rFlagUnset f item
    some (f.freeItem item, true)

/-- `r_flag_space_unset (f, NULL)`: every space goes, and the items forget it. -/
def rFlagSpaceUnset (f : RFlag) : RFlag :=
  { f with
    spaceIdx := if 0 ≤ f.spaceIdx ∧ (f.spaces f.spaceIdx.toNat).isSome then -1 else f.spaceIdx
    spaces := fun _ => none
    items := fun a =>
      if a ∈ f.flags then
        (f.items a).map (fun x =>
          if 0 ≤ x.space ∧ (f.spaces x.space.toNat).isSome then { x with space := -1 } else x)
      else f.items a }

/-- `r_flag_unset_all`; `f->flags->free` frees the items. -/
def rFlagUnsetAll (f : RFlag) : RFlag :=
  rFlagSpaceUnset
    { f with
      items := fun a => if a ∈ f.flags then none else f.items a
      spaceIdx := -1, flags := [], htName := fun _ => none, htOff := fun _ => none }

/-- `r_flag_move`; the size is cut to the `ut32` that `r_flag_set` takes. -/
def rFlagMove (f : RFlag) (at_ to_ : Ut64) : Option (RFlag × Bool) := do
  let (f, found) ← rFlagGetI numMath f at_
  match found with
  | none => some (f, false)
  | some item => do
    let x ← f.items item
    let (f, _) ← rFlagSet numMath f x.name to_ (x.size.setWidth 32)
    some (f, true)

end Calls

/-- `r_flag_rename`. -/
def rFlagRename (f : RFlag) (item : Nat) (name : CStr) : Option (RFlag × Bool) :=
  if name.isEmpty then some (f, false)
  else
    let hash := rStrHash64 name
    if (f.htName hash).isSome then some (f, false)
    else do
      let x ← f.items item
      let x := setName x name
      let f := f.setItem item x
      let htName := Function.update f.htName hash none
      some ({ f with htName := Function.update htName x.namehash (some item) }, true)

/-- The offset `r_flag_relocate` gives to an item. -/
def relocatedOffset (off offMask to_ : Ut64) (offset : Ut64) : Ut64 :=
  let negMask := ~~~offMask
  if offset &&& negMask = off &&& negMask then
    (to_ &&& negMask) + (offset &&& offMask) + (to_ &&& offMask)
  else offset

/-- The loop of `r_flag_relocate`. -/
def relocateLoop (off offMask to_ : Ut64) : List Nat → RFlag → Nat → Option (RFlag × Nat)
  | [], f, n => some (f, n)
  | item :: rest, f, n => do
    let x ← f.items item
    if x.offset &&& ~~~offMask = off &&& ~~~offMask then
      relocateLoop off offMask to_ rest
        (f.setItem item { x with offset := relocatedOffset off offMask to_ x.offset }) (n + 1)
    else relocateLoop off offMask to_ rest f n

def rFlagRelocate (f : RFlag) (off offMask to_ : Ut64) : Option (RFlag × Nat) :=
  relocateLoop off offMask to_ f.flags f 0

end Radare

namespace Radare

open Framework

def RFlag.nameAt (f : RFlag) (item : Nat) : CStr := ((f.items item).map (·.name)).getD []

def RFlag.offAt (f : RFlag) (item : Nat) : Ut64 := ((f.items item).map (·.offset)).getD 0

/-- The keys under which the two tables hold an item. -/
def RFlag.nameKey (f : RFlag) (item : Nat) : Ut64 := rStrHash64 (f.nameAt item)

def RFlag.offKey (f : RFlag) (item : Nat) : Ut64 := xorOff (f.offAt item)

/-- The list and the two tables describe the same set of items. -/
structure RFlag.Consistent (f : RFlag) : Prop where
  live : ∀ i ∈ f.flags, ∃ x, f.items i = some x ∧ x.namehash = rStrHash64 x.name
  listed : f.flags.Nodup
  unique : ∀ i ∈ f.flags, ∀ j ∈ f.flags, f.nameAt i = f.nameAt j → i = j
  found : ∀ i ∈ f.flags, f.htName (rStrHash64 (f.nameAt i)) = some i
  placed : ∀ i ∈ f.flags, ∃ l, f.htOff (xorOff (f.offAt i)) = some l ∧ l.count i = 1
  named : ∀ k i, f.htName k = some i → i ∈ f.flags ∧ rStrHash64 (f.nameAt i) = k
  grouped : ∀ k l, f.htOff k = some l → l ≠ [] ∧ ∀ i ∈ l, i ∈ f.flags ∧ xorOff (f.offAt i) = k

/-- The same, as two indexes of one list. -/
structure RFlag.Indexed (f : RFlag) : Prop where
  live : ∀ i ∈ f.flags, ∃ x, f.items i = some x ∧ x.namehash = rStrHash64 x.name
  listed : f.flags.Nodup
  byName : Indexes f.nameKey f.flags f.htName
  byOff : Groups f.offKey f.flags f.htOff

theorem RFlag.nameAt_eq {f : RFlag} {i : Nat} {x : RFlagItem} (hx : f.items i = some x) :
    f.nameAt i = x.name := by
  rw [RFlag.nameAt, hx]
  rfl

theorem RFlag.offAt_eq {f : RFlag} {i : Nat} {x : RFlagItem} (hx : f.items i = some x) :
    f.offAt i = x.offset := by
  rw [RFlag.offAt, hx]
  rfl

theorem RFlag.nameKey_eq {f g : RFlag} {i : Nat} (h : g.items i = f.items i) : g.nameKey i = f.nameKey i := by
  rw [RFlag.nameKey, RFlag.nameKey, RFlag.nameAt, RFlag.nameAt, h]

theorem RFlag.offKey_eq {f g : RFlag} {i : Nat} (h : g.items i = f.items i) : g.offKey i = f.offKey i := by
  rw [RFlag.offKey, RFlag.offKey, RFlag.offAt, RFlag.offAt, h]

theorem xorOff_inj {x y : Ut64} (h : xorOff x = xorOff y) : x = y := by
  unfold xorOff at h
  have hx := congrArg (· ^^^ 0x12345678#64) h
  simpa [BitVec.xor_assoc] using hx

theorem RFlag.Consistent.group_nodup {f : RFlag} (h : f.Consistent) {k : Ut64} {l : List Nat}
    (hl : f.htOff k = some l) : l.Nodup := by
  rw [List.nodup_iff_count_le_one]
  intro i
  by_cases hi : i ∈ l
  · obtain ⟨hf, hk⟩ := (h.grouped k l hl).2 i hi
    obtain ⟨l', hl', hc⟩ := h.placed i hf
    rw [hk, hl] at hl'
    cases hl'
    omega
  · rw [List.count_eq_zero_of_not_mem hi]
    omega

theorem RFlag.Consistent.indexed {f : RFlag} (h : f.Consistent) : f.Indexed := by
  refine ⟨h.live, h.listed, ?_, ?_⟩
  · intro k i
    constructor
    · exact h.named k i
    · rintro ⟨hi, rfl⟩
      exact h.found i hi
  · refine ⟨fun k i => ?_, fun k => ?_, fun k hk => (h.grouped k [] hk).1 rfl⟩
    · constructor
      · intro hi
        cases hl : f.htOff k with
        | none => simp [hl] at hi
        | some l => exact (h.grouped k l hl).2 i (by simpa [hl] using hi)
      · rintro ⟨hi, rfl⟩
        obtain ⟨l, hl, hc⟩ := h.placed i hi
        rw [RFlag.offKey, hl, Option.getD_some]
        exact List.count_pos_iff.mp (by omega)
    · cases hl : f.htOff k with
      | none => exact List.nodup_nil
      | some l => exact h.group_nodup hl

theorem RFlag.Indexed.consistent {f : RFlag} (h : f.Indexed) : f.Consistent := by
  have hmem : ∀ k l, f.htOff k = some l → ∀ i, i ∈ l ↔ i ∈ f.flags ∧ f.offKey i = k := by
    intro k l hl i
    have := h.byOff.mem k i
    rwa [hl, Option.getD_some] at this
  refine ⟨h.live, h.listed, ?_, fun i hi => h.byName.find hi, ?_, fun k i => (h.byName k i).mp, ?_⟩
  · intro i hi j hj hn
    refine h.byName.key_inj hi hj ?_
    rw [RFlag.nameKey, hn, RFlag.nameKey]
  · intro i hi
    obtain ⟨l, hl, hil⟩ := h.byOff.find hi
    have hnd := h.byOff.nodup (f.offKey i)
    rw [hl, Option.getD_some] at hnd
    exact ⟨l, hl, List.count_eq_one_of_mem hnd hil⟩
  · intro k l hl
    refine ⟨?_, fun i hi => (hmem k l hl i).mp hi⟩
    rintro rfl
    exact h.byOff.full k hl

theorem RFlag.Indexed.new : rFlagNew.Indexed := by
  refine ⟨fun i hi => ?_, List.nodup_nil, Indexes.empty, Groups.empty⟩
  cases hi

/-- A change to the other items, or to fields that are no key, is not noticed. -/
theorem RFlag.Indexed.congr {f g : RFlag} (h : f.Indexed) (hfl : g.flags = f.flags)
    (hn : g.htName = f.htName) (ho : g.htOff = f.htOff)
    (hit : ∀ i ∈ f.flags, ∀ x, f.items i = some x →
      ∃ y, g.items i = some y ∧ y.name = x.name ∧ y.namehash = x.namehash ∧ y.offset = x.offset) :
    g.Indexed := by
  have hkeys : ∀ i ∈ f.flags, g.nameKey i = f.nameKey i ∧ g.offKey i = f.offKey i := by
    intro i hi
    obtain ⟨x, hx, -⟩ := h.live i hi
    obtain ⟨y, hy, hyn, -, hyo⟩ := hit i hi x hx
    rw [RFlag.nameKey, RFlag.nameKey, RFlag.offKey, RFlag.offKey, RFlag.nameAt_eq hx,
      RFlag.nameAt_eq hy, RFlag.offAt_eq hx, RFlag.offAt_eq hy, hyn, hyo]
    exact ⟨rfl, rfl⟩
  refine ⟨?_, by rw [hfl]; exact h.listed, ?_, ?_⟩
  · intro i hi
    rw [hfl] at hi
    obtain ⟨x, hx, hxh⟩ := h.live i hi
    obtain ⟨y, hy, hyn, hyh, -⟩ := hit i hi x hx
    exact ⟨y, hy, by rw [hyh, hxh, hyn]⟩
  · rw [hn, hfl]
    exact h.byName.congr (fun _ => Iff.rfl) (fun i hi => (hkeys i hi).1)
  · rw [ho, hfl]
    exact h.byOff.congr (fun _ => Iff.rfl) (fun i hi => (hkeys i hi).2)

/-- `remove_offsetmap` takes a listed item out of its group. -/
theorem removeOffsetmap_spec {f : RFlag} (h : f.Indexed) {item : Nat} (hi : item ∈ f.flags) :
    ∃ ht, removeOffsetmap f item = some { f with htOff := ht } ∧
      Groups f.offKey (f.flags.erase item) ht := by
  obtain ⟨x, hx, -⟩ := h.live item hi
  obtain ⟨l, hl, -⟩ := h.byOff.find hi
  have hg := h.byOff.remove h.listed hl
  have hkey : f.offKey item = xorOff x.offset := by rw [RFlag.offKey, RFlag.offAt_eq hx]
  rw [hkey] at hl hg
  refine ⟨_, ?_, hg⟩
  simp only [removeOffsetmap, hx, Option.bind_eq_bind, Option.bind_some, hl]

/-- `r_flag_unset` of a listed item: it leaves the list and both tables. -/
theorem rFlagUnset_spec {f : RFlag} (h : f.Indexed) {item : Nat} (hi : item ∈ f.flags) :
    ∃ g, rFlagUnset f item = some g ∧ g.Indexed ∧ g.flags = f.flags.erase item ∧
      g.items = f.items ∧ g.fresh = f.fresh ∧ g.base = f.base := by
  obtain ⟨ht, hrm, hoff⟩ := removeOffsetmap_spec h hi
  obtain ⟨x, hx, hxh⟩ := h.live item hi
  have hkey : f.nameKey item = x.namehash := by rw [RFlag.nameKey, RFlag.nameAt_eq hx, hxh]
  have hname := h.byName.erase h.listed hi
  rw [hkey] at hname
  refine ⟨{ f with
    htOff := ht, htName := Function.update f.htName x.namehash none, flags := f.flags.erase item },
    ?_, ⟨?_, h.listed.erase item, hname, hoff⟩, rfl, rfl, rfl, rfl⟩
  · simp only [rFlagUnset, hrm, Option.bind_eq_bind, Option.bind_some, hx]
  intro i hmem
  exact h.live i (List.mem_of_mem_erase hmem)

/-- Freeing an item that is listed no more. -/
theorem RFlag.Indexed.freeItem {f : RFlag} (h : f.Indexed) {item : Nat} (hi : item ∉ f.flags) :
    (f.freeItem item).Indexed := by
  refine h.congr rfl rfl rfl ?_
  intro i hmem x hx
  have hne : i ≠ item := by
    rintro rfl
    exact hi hmem
  refine ⟨x, ?_, rfl, rfl, rfl⟩
  rw [RFlag.freeItem]
  exact (Function.update_of_ne hne _ _).trans hx

variable {f g : RFlag} {item : Nat} {name : CStr} {x y : RFlagItem}

/-- What the end of `r_flag_set` leaves. -/
theorem placeItem_ends (hx : f.items item = some x) (off : Ut64) (size : Ut32) :
    ∃ g, placeItem f item off size = some g ∧
      g.items = Function.update f.items item
        (some { x with space := f.spaceIdx, offset := off + f.base, size := size.setWidth 64 }) ∧
      g.htOff = Function.update f.htOff (xorOff off) (some ((f.htOff (xorOff off)).getD [] ++ [item])) ∧
      g.flags = f.flags ∧ g.htName = f.htName ∧ g.fresh = f.fresh ∧ g.base = f.base := by
  refine ⟨{ f with
    items := Function.update f.items item
      (some { x with space := f.spaceIdx, offset := off + f.base, size := size.setWidth 64 })
    htOff := Function.update f.htOff (xorOff off) (some ((f.htOff (xorOff off)).getD [] ++ [item])) },
    ?_, rfl, rfl, rfl, rfl, rfl, rfl⟩
  simp only [placeItem, hx, Option.bind_eq_bind, Option.bind_some, RFlag.setItem]

/-- Without a base it adds the item to the group of its new offset. -/
theorem placeItem_spec {xs : List Nat} (hg : Groups f.offKey xs f.htOff) (hi : item ∉ xs)
    (hx : f.items item = some x) (hb : f.base = 0) (off : Ut64) (size : Ut32) :
    ∃ g, placeItem f item off size = some g ∧ Groups g.offKey (xs ++ [item]) g.htOff ∧
      g.items = Function.update f.items item
        (some { x with space := f.spaceIdx, offset := off, size := size.setWidth 64 }) ∧
      g.flags = f.flags ∧ g.htName = f.htName ∧ g.fresh = f.fresh ∧ g.base = f.base ∧
      g.htOff (xorOff off) = some ((f.htOff (xorOff off)).getD [] ++ [item]) := by
  obtain ⟨g, hplace, hit, hoff, hfl, hn, hfr, hbase⟩ := placeItem_ends hx off size
  have hzero : off + f.base = off := by rw [hb]; exact BitVec.add_zero off
  rw [hzero] at hit
  have hself : g.items item = some { x with space := f.spaceIdx, offset := off, size := size.setWidth 64 } := by
    rw [hit, Function.update_self]
  have hkey : g.offKey item = xorOff off := by rw [RFlag.offKey, RFlag.offAt_eq hself]
  have hold : ∀ i ∈ xs, g.offKey i = f.offKey i := by
    intro i hmem
    have hne : i ≠ item := by
      rintro rfl
      exact hi hmem
    refine RFlag.offKey_eq ?_
    rw [hit, Function.update_of_ne hne]
  have hadd := (hg.congr (fun _ => Iff.rfl) hold).add hi
  rw [hkey, ← hoff] at hadd
  refine ⟨g, hplace, hadd, hit, hfl, hn, hfr, hbase, ?_⟩
  rw [hoff, Function.update_self]

/-- The items of `r_flag_set` besides the one it sets are untouched, and this one keeps its name. -/
theorem RFlag.Indexed.of_update (h : f.Indexed) (hit : g.items = Function.update f.items item (some y))
    (hfl : g.flags = f.flags) (hn : g.htName = f.htName) (hi : item ∈ f.flags)
    (hy : ∀ x, f.items item = some x → y.name = x.name ∧ y.namehash = x.namehash)
    (hoff : Groups g.offKey f.flags g.htOff) : g.Indexed := by
  have hself : g.items item = some y := by rw [hit, Function.update_self]
  have hother : ∀ i, i ≠ item → g.items i = f.items i := by
    intro i hne
    rw [hit, Function.update_of_ne hne]
  obtain ⟨x, hx, hxh⟩ := h.live item hi
  obtain ⟨hyn, hyh⟩ := hy x hx
  have hname : ∀ i ∈ f.flags, g.nameKey i = f.nameKey i := by
    intro i hmem
    by_cases hne : i = item
    · subst hne
      rw [RFlag.nameKey, RFlag.nameKey, RFlag.nameAt_eq hself, RFlag.nameAt_eq hx, hyn]
    · exact RFlag.nameKey_eq (hother i hne)
  refine ⟨?_, by rw [hfl]; exact h.listed, ?_, by rw [hfl]; exact hoff⟩
  · intro i hmem
    rw [hfl] at hmem
    by_cases hne : i = item
    · subst hne
      exact ⟨y, hself, by rw [hyh, hxh, hyn]⟩
    · rw [hother i hne]
      exact h.live i hmem
  · rw [hfl, hn]
    exact h.byName.congr (fun _ => Iff.rfl) hname

section Calls

variable (numMath : RFlag → CStr → Ut64)

/-- An item that is no alias is found as it is. -/
theorem evalFlag_eq (hx : f.items item = some x) (ha : x.alias_ = none) :
    evalFlag numMath f (some item) = some (f, some item) := by
  simp only [evalFlag, hx, Option.bind_eq_bind, Option.bind_some, ha]

theorem rFlagGet_none (h : f.htName (rStrHash64 name) = none) : rFlagGet numMath f name = some (f, none) := by
  rw [rFlagGet, h]
  rfl

theorem rFlagGet_found (h : f.htName (rStrHash64 name) = some item) (hx : f.items item = some x)
    (ha : x.alias_ = none) : rFlagGet numMath f name = some (f, some item) := by
  rw [rFlagGet, h]
  exact evalFlag_eq numMath hx ha

/-- `r_flag_set` of a name that is known at this offset. -/
theorem rFlagSet_stays (hne : name.isEmpty = false) (hfound : f.htName (rStrHash64 name) = some item)
    (hx : f.items item = some x) (ha : x.alias_ = none) (size : Ut32) :
    rFlagSet numMath f name x.offset size =
      some (f.setItem item { x with size := size.setWidth 64 }, some item) := by
  simp only [rFlagSet, hne, Bool.false_eq_true, if_false, rFlagGet_found numMath hfound hx ha,
    Option.bind_eq_bind, Option.bind_some, hx, if_true]

theorem setSize_indexed (h : f.Indexed) (hi : item ∈ f.flags) (hx : f.items item = some x) (size : Ut64) :
    (f.setItem item { x with size := size }).Indexed := by
  refine h.of_update rfl rfl rfl hi ?_ (h.byOff.congr (fun _ => Iff.rfl) ?_)
  · intro z hz
    rw [hx] at hz
    cases hz
    exact ⟨rfl, rfl⟩
  · intro i hmem
    by_cases hii : i = item
    · subst hii
      rw [RFlag.offKey, RFlag.offKey, RFlag.offAt_eq hx, RFlag.offAt_eq (Function.update_self i _ f.items)]
    · exact RFlag.offKey_eq (Function.update_of_ne hii _ _)

/-- `r_flag_set` of a name that is known at another offset. -/
theorem rFlagSet_moves (h : f.Indexed) (hb : f.base = 0) (hne : name.isEmpty = false)
    (hfound : f.htName (rStrHash64 name) = some item) (hx : f.items item = some x) (ha : x.alias_ = none)
    {off : Ut64} (ho : x.offset ≠ off) (size : Ut32) :
    ∃ g l, rFlagSet numMath f name off size = some (g, some item) ∧ g.Indexed ∧
      g.items = Function.update f.items item
        (some { x with space := f.spaceIdx, offset := off, size := size.setWidth 64 }) ∧
      g.flags = f.flags ∧ g.htName = f.htName ∧ g.fresh = f.fresh ∧ g.base = f.base ∧
      g.htOff (xorOff off) = some (l ++ [item]) := by
  have hi := ((h.byName _ item).mp hfound).1
  obtain ⟨ht, hrm, hoff⟩ := removeOffsetmap_spec h hi
  have hnotin : item ∉ f.flags.erase item := h.listed.not_mem_erase
  obtain ⟨g, hg, hgoff, hgit, hgfl, hgn, hgfr, hgb, hglast⟩ :=
    placeItem_spec (f := { f with htOff := ht }) hoff hnotin hx hb off size
  refine ⟨g, _, ?_, ?_, hgit, hgfl, hgn, hgfr, hgb, hglast⟩
  · simp only [rFlagSet, hne, Bool.false_eq_true, if_false, rFlagGet_found numMath hfound hx ha,
      Option.bind_eq_bind, Option.bind_some, hx, if_neg ho, hrm, hg]
  · refine h.of_update hgit hgfl hgn hi ?_ (hgoff.congr ?_ (fun _ _ => rfl))
    · intro z hz
      rw [hx] at hz
      cases hz
      exact ⟨rfl, rfl⟩
    · intro i
      rw [List.mem_append, List.mem_singleton, h.listed.mem_erase_iff]
      constructor
      · intro hmem
        by_cases hii : i = item
        · exact Or.inr hii
        · exact Or.inl ⟨hii, hmem⟩
      · rintro (⟨-, hmem⟩ | rfl)
        · exact hmem
        · exact hi

/-- `r_flag_set` of a new name whose filtered name is free too. -/
theorem rFlagSet_adds (h : f.Indexed) (hb : f.base = 0) (hnot : f.fresh ∉ f.flags) (hne : name.isEmpty = false)
    (hfree : f.htName (rStrHash64 name) = none) (hfree' : f.htName (setName RFlagItem.zero name).namehash = none)
    (off : Ut64) (size : Ut32) :
    ∃ g l, rFlagSet numMath f name off size = some (g, some f.fresh) ∧ g.Indexed ∧
      g.items = Function.update f.items f.fresh (some { setName RFlagItem.zero name with
        space := f.spaceIdx, offset := off, size := size.setWidth 64 }) ∧
      g.flags = f.flags ++ [f.fresh] ∧
      g.htName = Function.update f.htName (setName RFlagItem.zero name).namehash (some f.fresh) ∧
      g.fresh = f.fresh + 1 ∧ g.base = f.base ∧ g.htOff (xorOff off) = some (l ++ [f.fresh]) := by
  have hne' : ∀ i ∈ f.flags, i ≠ f.fresh := by
    rintro i hmem rfl
    exact hnot hmem
  have hitem : (newItem f name).items f.fresh = some (setName RFlagItem.zero name) :=
    Function.update_self _ _ _
  have hgroups : Groups (newItem f name).offKey f.flags (newItem f name).htOff :=
    h.byOff.congr (fun _ => Iff.rfl) (fun i hmem => RFlag.offKey_eq (Function.update_of_ne (hne' i hmem) _ _))
  obtain ⟨g, hg, hgoff, hgit, hgfl, hgn, hgfr, hgb, hglast⟩ :=
    placeItem_spec hgroups hnot hitem (show (newItem f name).base = 0 from hb) off size
  have hits : g.items = Function.update f.items f.fresh (some { setName RFlagItem.zero name with
      space := f.spaceIdx, offset := off, size := size.setWidth 64 }) := by
    rw [hgit]
    exact Function.update_idem _ _ _
  have hself : g.items f.fresh = some { setName RFlagItem.zero name with
      space := f.spaceIdx, offset := off, size := size.setWidth 64 } := by rw [hits, Function.update_self]
  have hold : ∀ i ∈ f.flags, g.items i = f.items i := by
    intro i hmem
    rw [hits, Function.update_of_ne (hne' i hmem)]
  have hkey : g.nameKey f.fresh = (setName RFlagItem.zero name).namehash := by
    rw [RFlag.nameKey, RFlag.nameAt_eq hself]
    rfl
  have hfl : g.flags = f.flags ++ [f.fresh] := hgfl
  refine ⟨g, _, ?_, ⟨?_, ?_, ?_, ?_⟩, hits, hfl, hgn, hgfr, hgb, hglast⟩
  · simp only [rFlagSet, hne, Bool.false_eq_true, if_false, rFlagGet_none numMath hfree,
      Option.bind_eq_bind, Option.bind_some, hg]
  · intro i hmem
    rw [hfl, List.mem_append, List.mem_singleton] at hmem
    rcases hmem with hmem | rfl
    · rw [hold i hmem]
      exact h.live i hmem
    · exact ⟨_, hself, rfl⟩
  · rw [hfl]
    refine List.nodup_append.mpr ⟨h.listed, List.nodup_singleton _, ?_⟩
    intro a ha b hb hab
    rw [List.mem_singleton] at hb
    rw [hab, hb] at ha
    exact hnot ha
  · have hidx : Indexes g.nameKey f.flags f.htName :=
      h.byName.congr (fun _ => Iff.rfl) (fun i hmem => RFlag.nameKey_eq (hold i hmem))
    have hins := hidx.insert (i := f.fresh) (by rw [hkey]; exact hfree')
    rw [hkey] at hins
    rw [hfl, hgn]
    exact hins
  · rw [hfl]
    exact hgoff

end Calls

end Radare
