import Radare.Util.RListData
import Radare.Anal.Block
import Radare.Anal.FcnMembership

namespace Radare

open Framework

/-- `RAnalFunction`: its blocks in the order of the list, the flag of the list, and the index of the
ranges they take up, `none` once an index has run behind its array. -/
structure RAnalFcn where
  addr : Ut64
  size : Ut32
  bbs : List RAnalBb
  sorted : Bool
  bbr : Option RRangeTiny
  deriving DecidableEq

def retDup : Int := -2

def retNew : Int := -3

def retEnd : Int := -4

def bbTypeHead : Ut32 := 1

def bbTypeBody : Ut32 := 2

/-- `update_tinyrange_bbs`. -/
def RAnalFcn.updateTinyrange (fcn : RAnalFcn) : Option RAnalFcn := do
  let (bbs, sorted) ← sortData (fun a b => cmpaddr a.toRAnalBlock b.toRAnalBlock) fcn.bbs fcn.sorted
  some { fcn with bbs := bbs, sorted := sorted, bbr := addAll rTinyrangeInit (bbs.map RAnalBb.toRAnalBlock) }

/-- `r_list_append` unsets the flag. -/
def rAnalFcnBbadd (fcn : RAnalFcn) (bb : RAnalBb) : RAnalFcn := { fcn with bbs := fcn.bbs ++ [bb], sorted := false }

/-- The block that `appendBasicBlock` appends. -/
def basicBlock (addr : Ut64) : RAnalBb := { rAnalBbNew with addr := addr }

/-- The first `while` of `r_anal_fcn_split_bb`. -/
def instrsBelow (bbi : RAnalBb) : Nat → Int → Option Int
  | 0, _ => none
  | fuel + 1, i =>
    if i < bbi.ninstr then do
      let off ← rAnalBbOffsetInst bbi i
      if off.toNat < bbi.size then instrsBelow bbi fuel (i + 1) else some i
    else some i

/-- The second `while` of `r_anal_fcn_split_bb`. -/
def moveInstrs (bbi : RAnalBb) : Nat → Int → RAnalBb → Option RAnalBb
  | 0, _, _ => none
  | fuel + 1, i, bb =>
    if i < bbi.ninstr then do
      let offOp ← rAnalBbOffsetInst bbi i
      if wrapInt (bbi.size + bb.size) ≤ offOp.toNat then some bb
      else moveInstrs bbi fuel (i + 1) (recordInstr bb (BitVec.ofInt 16 (offOp.toNat - bbi.size)))
    else some bb

/-- The new block from the address on, before its instructions. -/
def secondPart (bbi : RAnalBb) (addr : Ut64) : RAnalBb :=
  { basicBlock addr with
    size := wrapInt (bbi.addr + BitVec.ofInt 64 bbi.size - addr).toNat
    jump := bbi.jump
    fail := bbi.fail
    conditional := bbi.conditional
    type := if bbi.type &&& bbTypeHead ≠ 0 then bbi.type ^^^ bbTypeHead else bbi.type }

/-- The block up to the address, still with all instructions. -/
def firstPart (bbi : RAnalBb) (addr : Ut64) : RAnalBb :=
  { bbi with
    size := wrapInt (addr - bbi.addr).toNat
    jump := addr
    fail := ut64Max
    conditional := 0
    type := if bbi.type &&& bbTypeHead ≠ 0 then bbTypeHead else bbTypeBody }

/-- The second half of the body of `r_anal_fcn_split_bb`, which shares the instructions out. -/
def shareInstrs (bbi bb : RAnalBb) : Option (RAnalBb × RAnalBb) := do
  let i ← instrsBelow bbi (bbi.ninstr.toNat + 1) 0
  let off ← rAnalBbOffsetInst bbi i
  let bb ← if bb.addr - bbi.addr = off.setWidth 64 then moveInstrs bbi (bbi.ninstr.toNat + 1) i { bb with ninstr := 0 }
    else some bb
  some ({ bbi with ninstr := i }, bb)

def splitBlock (bbi : RAnalBb) (addr : Ut64) : Option (RAnalBb × RAnalBb) :=
  shareInstrs (firstPart bbi addr) (secondPart bbi addr)

/-- The `r_list_foreach` of `r_anal_fcn_split_bb`, behind the blocks it has seen. -/
def splitBbLoop (fcn : RAnalFcn) (addr : Ut64) (seen : List RAnalBb) : List RAnalBb → Option (Int × RAnalFcn)
  | [] => some (retNew, fcn)
  | bbi :: rest =>
    if addr = bbi.addr then some (retDup, fcn)
    else if bbi.addr < addr ∧ addr < bbi.addr + BitVec.ofInt 64 bbi.size then do
      let (bbi', bb) ← splitBlock bbi addr
      some (retEnd, rAnalFcnBbadd { fcn with bbs := seen ++ bbi' :: rest } bb)
    else splitBbLoop fcn addr (seen ++ [bbi]) rest

def rAnalFcnSplitBb (fcn : RAnalFcn) (addr : Ut64) : Option (Int × RAnalFcn) :=
  if addr = ut64Max then some (0, fcn) else splitBbLoop fcn addr [] fcn.bbs

/-- The `r_list_foreach` of `r_anal_fcn_add_bb`: the place of the block that starts at the address, and
whether the address is inside another one. -/
def findBlock (addr : Ut64) : Nat → Bool → List RAnalBb → Option Nat × Bool
  | _, mid, [] => (none, mid)
  | i, mid, bbi :: rest =>
    if addr = bbi.addr then (some i, false)
    else if bbi.addr < addr ∧ addr < bbi.addr + BitVec.ofInt 64 bbi.size then findBlock addr (i + 1) true rest
    else findBlock addr (i + 1) mid rest

/-- The shrinking of an overlapped block. -/
def cutBlock (bbi : RAnalBb) (addr : Ut64) : RAnalBb := { bbi with size := wrapInt (addr - bbi.addr).toNat }

/-- The loop variable is left with the last block of the list, and that one is shrunk. -/
def shrinkLast (fcn : RAnalFcn) (addr : Ut64) : Option RAnalFcn :=
  match fcn.bbs.getLast? with
  | none => some fcn
  | some bbi => RAnalFcn.updateTinyrange { fcn with bbs := fcn.bbs.dropLast ++ [cutBlock bbi addr] }

def setBlock (addr size jump fail : Ut64) (type : Ut32) (bb : RAnalBb) : RAnalBb :=
  { bb with addr := addr, size := wrapInt size.toNat, jump := jump, fail := fail, type := type }

/-- `r_anal_fcn_add_bb` without a diff. -/
def rAnalFcnAddBb (fcn : RAnalFcn) (addr size jump fail : Ut64) (type : Ut32) : Option (Bool × RAnalFcn) := do
  let (place, mid) := findBlock addr 0 false fcn.bbs
  let fcn ← if mid then shrinkLast fcn addr else some fcn
  let (place, fcn) := match place with
    | some i => (i, fcn)
    | none => (fcn.bbs.length, rAnalFcnBbadd fcn (basicBlock addr))
  let fcn ← RAnalFcn.updateTinyrange { fcn with
    bbs := fcn.bbs.modify place (setBlock addr size jump fail type) }
  some (true, fcn)

/-- A block that starts before the new end of the function, and its edges. -/
def trimBlock (eof : Ut64) (bb : RAnalBb) : RAnalBb :=
  { bb with
    size := if eof ≤ bb.addr + BitVec.ofInt 64 bb.size then wrapInt (eof - bb.addr).toNat else bb.size
    jump := if bb.jump ≠ ut64Max ∧ eof ≤ bb.jump then ut64Max else bb.jump
    fail := if bb.fail ≠ ut64Max ∧ eof ≤ bb.fail then ut64Max else bb.fail }

/-- The body of the loop of `r_anal_fcn_resize`; `none` when it deletes the block. -/
def resizeBlock (eof : Ut64) (bb : RAnalBb) : Option RAnalBb :=
  if eof ≤ bb.addr then none else some (trimBlock eof bb)

def rAnalFcnResize (fcn : RAnalFcn) (newsize : Int) : Option (Bool × RAnalFcn) :=
  if newsize < 1 then some (false, fcn)
  else do
    let fcn := { fcn with size := BitVec.ofInt 32 newsize }
    let eof := fcn.addr + fcn.size.setWidth 64
    let fcn ← RAnalFcn.updateTinyrange { fcn with bbs := fcn.bbs.filterMap (resizeBlock eof) }
    some (true, fcn)

/-- Blocks whose sizes are those of an `int` and that do not overlap. -/
structure BlocksDisjoint (bs : List RAnalBlock) : Prop where
  size : ∀ b ∈ bs, 0 ≤ b.size ∧ b.size < 2147483648
  apart : bs.Pairwise (fun a b => ∀ at_, ¬(a.Contains at_ ∧ b.Contains at_))

/-- The address is in the block and not its first one. -/
def RAnalBlock.Inside (b : RAnalBlock) (at_ : Ut64) : Prop := b.Contains at_ ∧ b.addr ≠ at_

instance RAnalBlock.decidableInside (b : RAnalBlock) (at_ : Ut64) : Decidable (b.Inside at_) := inferInstanceAs (Decidable (_ ∧ _))

/-- The block ends before the address space does. -/
def RAnalBlock.NoWrap (b : RAnalBlock) : Prop := b.addr.toNat + b.size.toNat < 18446744073709551616

instance RAnalBlock.decidableNoWrap (b : RAnalBlock) : Decidable b.NoWrap := inferInstanceAs (Decidable (_ < _))

section Parts

variable (bbi : RAnalBb) (addr : Ut64)

@[simp] theorem firstPart_addr : (firstPart bbi addr).addr = bbi.addr := by
  obtain ⟨⟨a, s⟩, j, f, t, c, n, o⟩ := bbi
  show a = a
  rfl

@[simp] theorem firstPart_size : (firstPart bbi addr).size = wrapInt (addr - bbi.addr).toNat := by
  obtain ⟨⟨a, s⟩, j, f, t, c, n, o⟩ := bbi
  show wrapInt (addr - a).toNat = wrapInt (addr - a).toNat
  rfl

@[simp] theorem firstPart_edges : (firstPart bbi addr).jump = addr ∧ (firstPart bbi addr).fail = ut64Max := by
  obtain ⟨⟨a, s⟩, j, f, t, c, n, o⟩ := bbi
  exact ⟨rfl, rfl⟩

@[simp] theorem firstPart_ninstr : (firstPart bbi addr).ninstr = bbi.ninstr := by
  obtain ⟨⟨a, s⟩, j, f, t, c, n, o⟩ := bbi
  show n = n
  rfl

@[simp] theorem firstPart_opPos : (firstPart bbi addr).opPos = bbi.opPos := by
  obtain ⟨⟨a, s⟩, j, f, t, c, n, o⟩ := bbi
  show o = o
  rfl

@[simp] theorem secondPart_addr : (secondPart bbi addr).addr = addr := rfl

@[simp] theorem secondPart_size :
    (secondPart bbi addr).size = wrapInt (bbi.addr + BitVec.ofInt 64 bbi.size - addr).toNat := rfl

@[simp] theorem secondPart_edges : (secondPart bbi addr).jump = bbi.jump ∧ (secondPart bbi addr).fail = bbi.fail ∧
    (secondPart bbi addr).conditional = bbi.conditional := by
  obtain ⟨⟨a, s⟩, j, f, t, c, n, o⟩ := bbi
  show (j = j) ∧ (f = f) ∧ (c = c)
  exact ⟨rfl, rfl, rfl⟩

end Parts

variable {b : RAnalBlock} {at_ : Ut64}

theorem toNat_ofInt_size (h0 : 0 ≤ b.size) (hlt : b.size < 2147483648) :
    (BitVec.ofInt 64 b.size).toNat = b.size.toNat := by
  rw [BitVec.toNat_ofInt]
  omega

/-- The test of the loops over the blocks. -/
theorem inside_test_iff (h0 : 0 ≤ b.size) (hlt : b.size < 2147483648) :
    (b.addr < at_ ∧ at_ < b.addr + BitVec.ofInt 64 b.size) ↔ b.Inside at_ ∧ b.NoWrap := by
  have hat := at_.isLt
  have haddr := b.addr.isLt
  have hne : b.addr ≠ at_ ↔ b.addr.toNat ≠ at_.toNat := not_congr BitVec.toNat_inj.symm
  rw [RAnalBlock.Inside, RAnalBlock.NoWrap, RAnalBlock.Contains, hne, BitVec.lt_def, BitVec.lt_def, BitVec.toNat_add,
    toNat_ofInt_size h0 hlt]
  omega

theorem RAnalBlock.Inside.lt (h : b.Inside at_) : b.addr.toNat < at_.toNat := by
  have hle := h.1.1
  have hne : b.addr.toNat ≠ at_.toNat := fun h' => h.2 (BitVec.eq_of_toNat_eq h')
  omega

/-- Two blocks of the list that hold an address are one. -/
theorem BlocksDisjoint.position {bs : List RAnalBb} {s t s' t' : List RAnalBb} {B B' : RAnalBb}
    (h : BlocksDisjoint (bs.map RAnalBb.toRAnalBlock)) (hB : bs = s ++ B :: t) (hB' : bs = s' ++ B' :: t')
    (hin : B.Contains at_) (hin' : B'.Contains at_) : s = s' ∧ B = B' ∧ t = t' := by
  have hpair := List.pairwise_map.mp h.apart
  rcases append_cons_cases (hB.symm.trans hB') with hsame | ⟨_, hmem⟩ | ⟨hmem, _⟩
  · exact hsame
  · rw [hB] at hpair
    exact absurd ⟨hin, hin'⟩ ((List.pairwise_cons.mp (List.pairwise_append.mp hpair).2.1).1 B' hmem at_)
  · rw [hB] at hpair
    exact absurd ⟨hin', hin⟩ ((List.pairwise_append.mp hpair).2.2 B' hmem B List.mem_cons_self at_)

end Radare
