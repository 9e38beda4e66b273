import Radare.Util.RList
import Radare.Util.Tinyrange
import Radare.Framework.Marks

namespace Radare

open Framework

/-- `RAnalBlock`: its range. -/
structure RAnalBlock where
  addr : Ut64
  size : Int
  deriving DecidableEq

/-- `RAnalFunction`: its blocks, and the ranges they take up. -/
structure RAnalFunction where
  bbs : RList
  bbr : RRangeTiny

def cmpaddr (a b : RAnalBlock) : Int := if b.addr < a.addr then 1 else 0

/-- The `r_list_foreach` of `update_tinyrange_bbs`. -/
def addBlocks (c : Cells RAnalBlock) : Nat → Option Nat → RRangeTiny → Option RRangeTiny
  | _, none, bbr => some bbr
  | 0, some _, _ => none
  | fuel + 1, some iter, bbr => do
    let x ← c iter
    let bb ← x.data
    let bbr ← rTinyrangeAdd bbr bb.addr (bb.addr + BitVec.ofInt 64 bb.size)
    addBlocks c fuel x.n bbr

def updateTinyrangeBbs (h : ListMem RAnalBlock) (fcn : RAnalFunction) :
    Option (ListMem RAnalBlock × RAnalFunction) := do
  let s ← rListSort h fcn.bbs cmpaddr
  let bbr ← addBlocks s.mem.cells s.mem.fresh s.list.head rTinyrangeInit
  some (s.mem, ⟨s.list, bbr⟩)

def rAnalFcnIn (fuel : Nat) (fcn : Option RAnalFunction) (addr : Ut64) : Option Bool :=
  match fcn with
  | some fcn => rTinyrangeIn fuel fcn.bbr addr
  | none => some false

abbrev Ut16 := BitVec 16

def ut16Max : Ut16 := 0xffff

/-- `RAnalBlock` with its edges and the offsets of its instructions; what `realloc` has added to
`op_pos` and nobody has written yet is `none`. -/
structure RAnalBb extends RAnalBlock where
  jump : Ut64
  fail : Ut64
  type : Ut32
  conditional : Int
  ninstr : Int
  opPos : List (Option Ut16)
  deriving DecidableEq

def dfltNinstr : Nat := 3

def rAnalBbNew : RAnalBb := ⟨⟨ut64Max, 0⟩, ut64Max, ut64Max, 0, 0, 0, List.replicate dfltNinstr (some 0)⟩

def rAnalBbIsInOffset (bb : RAnalBlock) (off : Ut64) : Bool :=
  decide (bb.addr ≤ off ∧ off < bb.addr + BitVec.ofInt 64 bb.size)

/-- `r_anal_bb_offset_inst`; `none` for a place of `op_pos` that is not there or not written. -/
def rAnalBbOffsetInst (bb : RAnalBb) (i : Int) : Option Ut16 :=
  if i < 0 ∨ bb.ninstr ≤ i then some ut16Max
  else if 0 < i then bb.opPos[(i - 1).toNat]?.join
  else some 0

/-- The `realloc` of `op_pos`; the size in bytes of a negative `int` is more than there is. -/
def reallocOpPos (opPos : List (Option Ut16)) (n : Int) : Option (List (Option Ut16)) :=
  if n < 0 then none else some (opPos.take n.toNat ++ List.replicate (n.toNat - opPos.length) none)

def rAnalBbSetOffset (bb : RAnalBb) (i : Int) (v : Ut16) : Bool × RAnalBb :=
  if 0 < i ∧ 0 < v then
    if bb.opPos.length ≤ i then
      match reallocOpPos bb.opPos (wrapInt (i * 2)) with
      | none => (false, bb)
      | some opPos => (true, { bb with opPos := opPos.set (i - 1).toNat (some v) })
    else (true, { bb with opPos := bb.opPos.set (i - 1).toNat (some v) })
  else (true, bb)

/-- `r_anal_bb_set_offset (bb, bb->ninstr++, v)`. -/
def recordInstr (bb : RAnalBb) (v : Ut16) : RAnalBb :=
  { (rAnalBbSetOffset bb bb.ninstr v).2 with ninstr := bb.ninstr + 1 }

/-- The `for` of `r_anal_bb_opaddr_at`. -/
def opaddrLoop (bb : RAnalBb) (deltaOff : Ut16) : Nat → Int → Ut16 → Option Ut64
  | 0, _, _ => none
  | fuel + 1, i, lastDelta =>
    if i < bb.ninstr then do
      let delta ← rAnalBbOffsetInst bb i
      if deltaOff < delta then some (bb.addr + lastDelta.setWidth 64)
      else opaddrLoop bb deltaOff fuel (i + 1) delta
    else some ut64Max

def rAnalBbOpaddrAt (bb : RAnalBb) (off : Ut64) : Option Ut64 :=
  if rAnalBbIsInOffset bb.toRAnalBlock off then
    opaddrLoop bb ((off - bb.addr).setWidth 16) (bb.ninstr.toNat + 1) 0 0
  else some ut64Max

/-- The block holds these offsets of its instructions. -/
structure RAnalBb.Records (bb : RAnalBb) (offs : List Ut16) : Prop where
  ninstr : bb.ninstr = offs.length
  stored : ∀ i (hi : i < offs.length), rAnalBbOffsetInst bb i = some offs[i]

/-- Offsets in increasing order from 0 on. -/
structure Offsets (offs : List Ut16) : Prop where
  increasing : offs.Pairwise (fun a b => a.toNat < b.toNat)
  first : ∀ v ∈ offs.head?, v = 0

variable {bb : RAnalBb} {offs : List Ut16}

theorem Offsets.length_le (h : Offsets offs) : offs.length ≤ 65536 := by
  have hmap : (offs.map BitVec.toNat).Pairwise (· < ·) := List.pairwise_map.mpr h.increasing
  have hle := length_le_of_increasing hmap (n := 65536) (by
    intro m hm
    obtain ⟨v, _, rfl⟩ := List.mem_map.mp hm
    exact v.isLt)
  rwa [List.length_map] at hle

theorem Offsets.of_append {offs₁ offs₂ : List Ut16} (h : Offsets (offs₁ ++ offs₂)) : Offsets offs₁ := by
  refine ⟨(List.pairwise_append.mp h.increasing).1, fun v hv => h.first v ?_⟩
  cases offs₁ with
  | nil => cases hv
  | cons a offs₁ => exact hv

theorem RAnalBb.Records.nil (h : bb.ninstr = 0) : bb.Records [] := ⟨h, fun _ hi => absurd hi (Nat.not_lt_zero _)⟩

theorem RAnalBb.Records.offset_end (h : bb.Records offs) : rAnalBbOffsetInst bb offs.length = some ut16Max := by
  rw [rAnalBbOffsetInst, if_pos (Or.inr (by rw [h.ninstr]))]

/-- What the loops over the instructions read at the next place. -/
theorem RAnalBb.Records.next {pre post : List Ut16} {v : Ut16} (h : bb.Records (pre ++ v :: post)) :
    (pre.length : Int) < bb.ninstr ∧ rAnalBbOffsetInst bb pre.length = some v := by
  have hlen : (pre ++ v :: post).length = pre.length + (post.length + 1) := by
    rw [List.length_append, List.length_cons]
  refine ⟨by rw [h.ninstr]; omega, ?_⟩
  rw [h.stored pre.length (by omega)]
  simp

theorem setOffset_other (bb : RAnalBb) (i : Int) (v : Ut16) :
    (rAnalBbSetOffset bb i v).2.toRAnalBlock = bb.toRAnalBlock ∧ (rAnalBbSetOffset bb i v).2.jump = bb.jump ∧
      (rAnalBbSetOffset bb i v).2.fail = bb.fail ∧ (rAnalBbSetOffset bb i v).2.type = bb.type ∧
      (rAnalBbSetOffset bb i v).2.conditional = bb.conditional ∧ (rAnalBbSetOffset bb i v).2.ninstr = bb.ninstr := by
  unfold rAnalBbSetOffset
  split_ifs
  · split
    · exact ⟨rfl, rfl, rfl, rfl, rfl, rfl⟩
    · exact ⟨rfl, rfl, rfl, rfl, rfl, rfl⟩
  · exact ⟨rfl, rfl, rfl, rfl, rfl, rfl⟩
  · exact ⟨rfl, rfl, rfl, rfl, rfl, rfl⟩

theorem recordInstrs_other (bb : RAnalBb) (new : List Ut16) :
    (new.foldl recordInstr bb).toRAnalBlock = bb.toRAnalBlock ∧ (new.foldl recordInstr bb).jump = bb.jump ∧
      (new.foldl recordInstr bb).fail = bb.fail ∧ (new.foldl recordInstr bb).conditional = bb.conditional := by
  induction new generalizing bb with
  | nil => exact ⟨rfl, rfl, rfl, rfl⟩
  | cons v new ih =>
    obtain ⟨hblock, hjump, hfail, _, hcond, _⟩ := setOffset_other bb bb.ninstr v
    obtain ⟨hblock', hjump', hfail', hcond'⟩ := ih (recordInstr bb v)
    exact ⟨hblock'.trans hblock, hjump'.trans hjump, hfail'.trans hfail, hcond'.trans hcond⟩

/-- The array afterwards: long enough, the new offset in its place and the places before it as they
were. -/
theorem setOffset_opPos {i : Nat} {v : Ut16} (hi : 0 < i) (hv : 0 < v) (hlt : i < 1073741824) (bb : RAnalBb) :
    (rAnalBbSetOffset bb i v).2.opPos[i - 1]? = some (some v) ∧
      ∀ j, j < i - 1 → ∀ w, bb.opPos[j]? = some (some w) → (rAnalBbSetOffset bb i v).2.opPos[j]? = some (some w) := by
  have hpred : ((i : Int) - 1).toNat = i - 1 := by omega
  have hwrap : wrapInt ((i : Int) * 2) = (2 * i : Nat) := by
    rw [wrapInt_of_range (by omega) (by omega)]
    omega
  rw [rAnalBbSetOffset, if_pos ⟨by omega, hv⟩, hpred]
  by_cases hroom : (bb.opPos.length : Int) ≤ i
  · rw [if_pos hroom, hwrap, reallocOpPos, if_neg (by omega), Int.toNat_natCast]
    have htake : bb.opPos.take (2 * i) = bb.opPos := List.take_of_length_le (by omega)
    rw [htake]
    refine ⟨?_, fun j hj w hw => ?_⟩
    · rw [List.getElem?_set_self (by rw [List.length_append, List.length_replicate]; omega)]
    · rw [List.getElem?_set_ne (by omega)]
      obtain ⟨hlen, _⟩ := List.getElem?_eq_some_iff.mp hw
      rw [List.getElem?_append_left hlen, hw]
  · rw [if_neg hroom]
    refine ⟨?_, fun j hj w hw => ?_⟩
    · rw [List.getElem?_set_self (by omega)]
    · rw [List.getElem?_set_ne (by omega), hw]

/-- The next instruction comes behind those that are there. -/
theorem recordInstr_records {v : Ut16} (h : bb.Records offs) (hoffs : Offsets (offs ++ [v])) :
    (recordInstr bb v).Records (offs ++ [v]) := by
  have hlen := hoffs.length_le
  rw [List.length_append, List.length_singleton] at hlen
  have hnext : (recordInstr bb v).ninstr = offs.length + 1 := by
    show bb.ninstr + 1 = _
    rw [h.ninstr]
  refine ⟨by rw [hnext, List.length_append, List.length_singleton]; omega, fun i hi => ?_⟩
  rw [List.length_append, List.length_singleton] at hi
  rw [rAnalBbOffsetInst, hnext, if_neg (by omega)]
  rcases Nat.eq_zero_or_pos i with rfl | hpos
  · rw [if_neg (by omega)]
    have hfirst := hoffs.first
    cases offs with
    | nil => exact congrArg some (hfirst v rfl).symm
    | cons a offs => exact congrArg some (hfirst a rfl).symm
  rw [if_pos (by omega), show ((i : Int) - 1).toNat = i - 1 by omega]
  have hv : 0 < v := by
    have hlast := (List.pairwise_append.mp hoffs.increasing).2.2 offs[0] (List.getElem_mem (by omega)) v
      (List.mem_singleton_self v)
    rw [BitVec.lt_def]
    show 0 < v.toNat
    omega
  have harray := setOffset_opPos (i := offs.length) (by omega) hv (by omega) bb
  show ((rAnalBbSetOffset bb bb.ninstr v).2.opPos[i - 1]?).join = _
  rw [h.ninstr]
  by_cases hlast : i = offs.length
  · subst hlast
    rw [harray.1, List.getElem_append_right (Nat.le_refl _)]
    simp
  · have hold := h.stored i (by omega)
    rw [rAnalBbOffsetInst, h.ninstr, if_neg (by omega), if_pos (by omega),
      show ((i : Int) - 1).toNat = i - 1 by omega, Option.join_eq_some_iff] at hold
    rw [harray.2 (i - 1) (by omega) _ hold, List.getElem_append_left (by omega)]
    rfl

/-- A run of `r_anal_bb_set_offset` over a block. -/
theorem recordInstrs_records (bb : RAnalBb) {new : List Ut16} (h : bb.Records offs) (hoffs : Offsets (offs ++ new)) :
    (new.foldl recordInstr bb).Records (offs ++ new) := by
  induction new generalizing bb offs with
  | nil => simpa using h
  | cons v new ih =>
    rw [List.append_cons] at hoffs ⊢
    exact ih _ (recordInstr_records h hoffs.of_append) hoffs

end Radare
