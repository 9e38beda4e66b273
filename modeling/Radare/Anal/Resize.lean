import Radare.Anal.FcnBlocks

namespace Radare

open Framework

variable {fcn : RAnalFcn} {eof at_ : Ut64} {b : RAnalBb} {bbs : List RAnalBb}

theorem trimBlock_addr (eof : Ut64) (bb : RAnalBb) : (trimBlock eof bb).addr = bb.addr := by
  obtain ⟨⟨a, s⟩, j, f, t, c, n, o⟩ := bb
  show a = a
  rfl

theorem trimBlock_size (eof : Ut64) (bb : RAnalBb) :
    (trimBlock eof bb).size =
      if eof ≤ bb.addr + BitVec.ofInt 64 bb.size then wrapInt (eof - bb.addr).toNat else bb.size := by
  obtain ⟨⟨a, s⟩, j, f, t, c, n, o⟩ := bb
  show (if eof ≤ a + BitVec.ofInt 64 s then wrapInt (eof - a).toNat else s) = _
  rfl

theorem trimBlock_edges (eof : Ut64) (bb : RAnalBb) :
    (trimBlock eof bb).jump = (if bb.jump ≠ ut64Max ∧ eof ≤ bb.jump then ut64Max else bb.jump) ∧
      (trimBlock eof bb).fail = (if bb.fail ≠ ut64Max ∧ eof ≤ bb.fail then ut64Max else bb.fail) := by
  obtain ⟨⟨a, s⟩, j, f, t, c, n, o⟩ := bb
  show (if j ≠ ut64Max ∧ eof ≤ j then ut64Max else j) = _ ∧ (if f ≠ ut64Max ∧ eof ≤ f then ut64Max else f) = _
  exact ⟨rfl, rfl⟩

/-- A trimmed block ends where it did or at the new end, whichever comes first. -/
theorem trimBlock_end (h0 : 0 ≤ b.size) (hlt : b.size < 2147483648) (hwrap : b.NoWrap) (hb : b.addr < eof) :
    (trimBlock eof b).size = min b.size ((eof.toNat : Int) - b.addr.toNat) := by
  have hw : b.addr.toNat + b.size.toNat < 18446744073709551616 := hwrap
  have hsum : (b.addr + BitVec.ofInt 64 b.size).toNat = b.addr.toNat + b.size.toNat := by
    rw [BitVec.toNat_add, toNat_ofInt_size h0 hlt]
    omega
  rw [BitVec.lt_def] at hb
  rw [trimBlock_size]
  split_ifs with hend
  · rw [BitVec.le_def, hsum] at hend
    have hlen : ((eof.toNat - b.addr.toNat : Nat) : Int) = min b.size ((eof.toNat : Int) - b.addr.toNat) := by omega
    exact (wrapInt_sub (by omega) rfl (by omega)).trans hlen
  · rw [BitVec.le_def, hsum] at hend
    omega

/-- The blocks that start before the end, trimmed. -/
theorem resize_bbs (eof : Ut64) (bbs : List RAnalBb) :
    bbs.filterMap (resizeBlock eof) = (bbs.filter (fun b => b.addr < eof)).map (trimBlock eof) := by
  induction bbs with
  | nil => rfl
  | cons b bbs ih =>
    by_cases hb : b.addr < eof
    · have hnot : ¬eof ≤ b.addr := by
        rw [BitVec.lt_def] at hb
        rw [BitVec.le_def]
        omega
      rw [List.filterMap_cons_some (show resizeBlock eof b = some (trimBlock eof b) from if_neg hnot), ih,
        List.filter_cons_of_pos (by simpa using hb), List.map_cons]
    · have hle : eof ≤ b.addr := by
        rw [BitVec.lt_def] at hb
        rw [BitVec.le_def]
        omega
      rw [List.filterMap_cons_none (show resizeBlock eof b = none from if_pos hle), ih,
        List.filter_cons_of_neg (by simpa using hb)]

/-- The start and the edges of a block. -/
def RAnalBb.startEdges (b : RAnalBb) : Ut64 × Ut64 × Ut64 := (b.addr, b.jump, b.fail)

/-- The start of a block and those of its edges that lead before the end. -/
def RAnalBb.edgesBefore (eof : Ut64) (b : RAnalBb) : Ut64 × Ut64 × Ut64 :=
  (b.addr, if b.jump < eof then b.jump else ut64Max, if b.fail < eof then b.fail else ut64Max)

/-- The index holds ranges in order, apart from one another, that cover what the blocks do. -/
def IndexRight (bbr : Option RRangeTiny) (bbs : List RAnalBb) : Prop :=
  ∃ r ps, bbr = some r ∧ r.Holds ps ∧ Separated ps ∧
    ∀ at_ : Ut64, Covered ps at_.toNat ↔ ∃ b ∈ bbs, b.Contains at_

def resizeEof (fcn : RAnalFcn) (newsize : Int) : Ut64 := fcn.addr + BitVec.ofInt 64 newsize

/-- The blocks of a function cut off at an address: they cover what they covered before it, none of them is empty, and
no edge leads behind it. -/
structure Resized (fcn fcn' : RAnalFcn) (eof : Ut64) : Prop where
  covers : ∀ at_, (∃ b ∈ fcn'.bbs, b.Contains at_) ↔ (∃ b ∈ fcn.bbs, b.Contains at_) ∧ at_ < eof
  nonempty : ∀ b ∈ fcn'.bbs, b.size ≠ 0
  edges : ∀ b ∈ fcn'.bbs, (b.jump = ut64Max ∨ b.jump < eof) ∧ (b.fail = ut64Max ∨ b.fail < eof)
  kept : (fcn'.bbs.map RAnalBb.startEdges).Perm
    ((fcn.bbs.filter (fun b => b.addr < eof)).map (RAnalBb.edgesBefore eof))
  index : IndexRight fcn'.bbr fcn'.bbs

def ResizeRight (fcn : RAnalFcn) (newsize : Int) : Prop :=
  ∃ fcn', rAnalFcnResize fcn newsize = some (true, fcn') ∧ Resized fcn fcn' (resizeEof fcn newsize)

/-- Of the blocks before the new end none is empty; they are in order if the list says so; and they make
up no more runs than there are indices for. -/
def ResizeFits (fcn : RAnalFcn) (newsize : Int) : Prop :=
  let kept := (fcn.bbs.filter (fun b => b.addr < resizeEof fcn newsize)).map RAnalBb.toRAnalBlock
  (∀ b ∈ kept, b.size ≠ 0) ∧ (fcn.sorted = true → kept.Pairwise (fun a b => a.addr.toNat ≤ b.addr.toNat)) ∧
    (runStarts (kept.map RAnalBlock.range)).length ≤ 1073741824

theorem trimBlock_contains (h0 : 0 ≤ b.size) (hlt : b.size < 2147483648) (hwrap : b.NoWrap) (hb : b.addr < eof)
    (at_ : Ut64) : (trimBlock eof b).Contains at_ ↔ b.Contains at_ ∧ at_ < eof := by
  have hend := trimBlock_end h0 hlt hwrap hb
  rw [BitVec.lt_def] at hb ⊢
  rw [RAnalBlock.Contains, RAnalBlock.Contains, hend, trimBlock_addr]
  omega

theorem trimBlock_startEdges (eof : Ut64) (b : RAnalBb) : (trimBlock eof b).startEdges = b.edgesBefore eof := by
  have hedge : ∀ e : Ut64, (if e ≠ ut64Max ∧ eof ≤ e then ut64Max else e) = if e < eof then e else ut64Max := by
    intro e
    by_cases hlt : e < eof
    · rw [if_pos hlt, if_neg (fun h => absurd hlt (BitVec.not_lt.mpr h.2))]
    · rw [if_neg hlt]
      split_ifs with h
      · rfl
      · by_contra hne
        exact h ⟨hne, BitVec.not_lt.mp hlt⟩
  obtain ⟨hjump, hfail⟩ := trimBlock_edges eof b
  rw [RAnalBb.startEdges, RAnalBb.edgesBefore, trimBlock_addr, hjump, hfail, hedge, hedge]

/-- Trimming leaves the runs of adjacent blocks. -/
theorem runStarts_trim (hbs : ∀ b ∈ bbs, 0 ≤ b.size ∧ b.size < 2147483648 ∧ b.NoWrap ∧ b.addr < eof) :
    (runStarts (((bbs.map (trimBlock eof)).map RAnalBb.toRAnalBlock).map RAnalBlock.range)).length =
      (runStarts ((bbs.map RAnalBb.toRAnalBlock).map RAnalBlock.range)).length := by
  rw [runStarts, runStarts, List.map_map, List.map_map, List.map_map, List.filter_map, List.filter_map, List.length_map, List.length_map]
  congr 1
  refine List.filter_congr (fun b hb => ?_)
  simp only [Function.comp, decide_eq_decide, List.forall_mem_map]
  refine forall₂_congr (fun c hc => not_congr ?_)
  obtain ⟨h0, hlt, hwrap, hbelow⟩ := hbs c hc
  have hend := trimBlock_end h0 hlt hwrap hbelow
  have hbelow' := (hbs b hb).2.2.2
  rw [BitVec.lt_def] at hbelow hbelow'
  show (trimBlock eof c).addr.toNat + (trimBlock eof c).size.toNat = (trimBlock eof b).addr.toNat ↔
    c.addr.toNat + c.size.toNat = b.addr.toNat
  rw [hend, trimBlock_addr, trimBlock_addr]
  omega

/-- The index is right when the blocks are added in order and there are indices for the runs. -/
theorem indexRight_iff (hapart : BlocksApart (bbs.map RAnalBb.toRAnalBlock)) :
    IndexRight (addAll rTinyrangeInit (bbs.map RAnalBb.toRAnalBlock)) bbs ↔
      Ascending ((bbs.map RAnalBb.toRAnalBlock).map RAnalBlock.range) ∧
        (runStarts ((bbs.map RAnalBb.toRAnalBlock).map RAnalBlock.range)).length ≤ 1073741824 := by
  have hadd := addAll_spec hapart
  have hcovers := covered_range (bbs.map RAnalBb.toRAnalBlock)
  have hnonempty : ∀ r ∈ (bbs.map RAnalBb.toRAnalBlock).map RAnalBlock.range, r.1 < r.2 := by
    intro r hr
    obtain ⟨b, hb, rfl⟩ := List.mem_map.mp hr
    have hpos := hapart.size b hb
    show b.addr.toNat < b.addr.toNat + b.size.toNat
    omega
  have hblocks : ∀ at_ : Ut64, (∃ b ∈ bbs.map RAnalBb.toRAnalBlock, b.Contains at_) ↔ ∃ b ∈ bbs, b.Contains at_ := by
    intro at_
    simp only [List.mem_map, exists_exists_and_eq_and]
  generalize (bbs.map RAnalBb.toRAnalBlock).map RAnalBlock.range = rs at hadd hcovers hnonempty ⊢
  constructor
  · intro h
    obtain ⟨r, ps, hr, hholds, hsep, _⟩ := h
    rw [hr] at hadd
    split_ifs at hadd with hroom
    · obtain ⟨bbr, hbbr, hbbrHolds⟩ := hadd
      cases hbbr
      have hps : ps = coalesce rs := flat_injective (hholds.ranges.symm.trans hbbrHolds.ranges)
      rw [hps] at hsep
      have hasc := ascending_of_separated hnonempty hsep
      have hstarts := congrArg List.length (coalesce_spec hasc).2.2.1
      rw [List.length_map, List.length_map] at hstarts
      exact ⟨hasc, by omega⟩
  · intro h
    obtain ⟨hasc, hroom⟩ := h
    obtain ⟨hsep, hcov, hstarts, _⟩ := coalesce_spec hasc
    have hlen := congrArg List.length hstarts
    rw [List.length_map, List.length_map] at hlen
    rw [if_pos (by omega)] at hadd
    obtain ⟨bbr, hbbr, hholds⟩ := hadd
    exact ⟨bbr, _, hbbr, hholds, hsep, fun at_ => by rw [hcov, hcovers, hblocks]⟩

section Kept

variable (hbs : ∀ b ∈ bbs, 0 ≤ b.size ∧ b.size < 2147483648 ∧ b.NoWrap ∧ b.addr < eof)
include hbs

theorem trim_covers (at_ : Ut64) :
    (∃ b ∈ bbs.map (trimBlock eof), b.Contains at_) ↔ (∃ b ∈ bbs, b.Contains at_) ∧ at_ < eof := by
  simp only [List.mem_map, exists_exists_and_eq_and]
  constructor
  · intro h
    obtain ⟨b, hb, hin⟩ := h
    obtain ⟨h0, hlt, hwrap, hbelow⟩ := hbs b hb
    rw [trimBlock_contains h0 hlt hwrap hbelow] at hin
    exact ⟨⟨b, hb, hin.1⟩, hin.2⟩
  · intro h
    obtain ⟨⟨b, hb, hin⟩, hat⟩ := h
    obtain ⟨h0, hlt, hwrap, hbelow⟩ := hbs b hb
    exact ⟨b, hb, (trimBlock_contains h0 hlt hwrap hbelow at_).mpr ⟨hin, hat⟩⟩

theorem trim_nonempty : (∀ b ∈ bbs.map (trimBlock eof), b.size ≠ 0) ↔ ∀ b ∈ bbs, b.size ≠ 0 := by
  rw [List.forall_mem_map]
  refine forall₂_congr (fun b hb => ?_)
  obtain ⟨h0, hlt, hwrap, hbelow⟩ := hbs b hb
  have hend := trimBlock_end h0 hlt hwrap hbelow
  rw [BitVec.lt_def] at hbelow
  rw [hend]
  omega

/-- Blocks that are not empty are still apart from one another when trimmed. -/
theorem trim_apart (hne : ∀ b ∈ bbs, b.size ≠ 0)
    (hpair : bbs.Pairwise (fun a b => ∀ at_, ¬(a.Contains at_ ∧ b.Contains at_))) :
    BlocksApart ((bbs.map (trimBlock eof)).map RAnalBb.toRAnalBlock) := by
  refine ⟨?_, ?_, ?_⟩
  · simp only [List.forall_mem_map]
    intro b hb
    obtain ⟨h0, hlt, hwrap, hbelow⟩ := hbs b hb
    have hend := trimBlock_end h0 hlt hwrap hbelow
    have hsize := hne b hb
    rw [BitVec.lt_def] at hbelow
    rw [hend]
    omega
  · simp only [List.forall_mem_map]
    intro b hb
    obtain ⟨h0, hlt, hwrap, hbelow⟩ := hbs b hb
    have hend := trimBlock_end h0 hlt hwrap hbelow
    have hw : b.addr.toNat + b.size.toNat < 18446744073709551616 := hwrap
    rw [hend, trimBlock_addr]
    omega
  · rw [List.pairwise_map, List.pairwise_map]
    refine hpair.imp_of_mem (fun {a b} ha hb hab at_ hboth => ?_)
    obtain ⟨h0, hlt, hwrap, hbelow⟩ := hbs a ha
    obtain ⟨h0', hlt', hwrap', hbelow'⟩ := hbs b hb
    exact hab at_ ⟨((trimBlock_contains h0 hlt hwrap hbelow at_).mp hboth.1).1,
      ((trimBlock_contains h0' hlt' hwrap' hbelow' at_).mp hboth.2).1⟩

end Kept

theorem cmpaddr_pairwise (bs : List RAnalBlock) :
    bs.Pairwise (fun a b => cmpaddr a b ≤ 0) ↔ bs.Pairwise (fun a b => a.addr.toNat ≤ b.addr.toNat) := by
  simp only [cmpaddr_le]

/-- The index made of blocks as the sort leaves them. -/
theorem sorted_index_iff {ys : List RAnalBb} {sorted : Bool} (hapart : BlocksApart (bbs.map RAnalBb.toRAnalBlock))
    (hperm : ys.Perm bbs) (htrusted : sorted = true → ys = bbs)
    (hsorted : sorted = false → (ys.map RAnalBb.toRAnalBlock).Pairwise (fun a b => cmpaddr a b ≤ 0)) :
    IndexRight (addAll rTinyrangeInit (ys.map RAnalBb.toRAnalBlock)) ys ↔
      (sorted = true → (bbs.map RAnalBb.toRAnalBlock).Pairwise (fun a b => a.addr.toNat ≤ b.addr.toNat)) ∧
        (runStarts ((bbs.map RAnalBb.toRAnalBlock).map RAnalBlock.range)).length ≤ 1073741824 := by
  have hapart' := hapart.perm (hperm.map RAnalBb.toRAnalBlock)
  rw [indexRight_iff hapart', (runStarts_perm ((hperm.map RAnalBb.toRAnalBlock).map RAnalBlock.range)).length_eq]
  refine and_congr_left (fun _ => ?_)
  cases sorted with
  | false => exact iff_of_true (hapart'.ascending (hsorted rfl)) (fun h => Bool.noConfusion h)
  | true =>
    rw [htrusted rfl, show (true = true → _) ↔ _ from forall_prop_of_true rfl]
    constructor
    · intro hasc
      have horder := hasc.order
      rw [List.pairwise_map] at horder
      refine horder.imp (fun {a b} hab => ?_)
      have hle : a.addr.toNat + a.size.toNat ≤ b.addr.toNat := hab
      omega
    · intro h
      exact hapart.ascending ((cmpaddr_pairwise _).mpr h)

theorem edge_before (eof e : Ut64) :
    (if e < eof then e else ut64Max) = ut64Max ∨ (if e < eof then e else ut64Max) < eof := by
  split_ifs with h
  · exact Or.inr h
  · exact Or.inl rfl

theorem exists_perm {ys : List RAnalBb} (hperm : ys.Perm bbs) (at_ : Ut64) :
    (∃ b ∈ ys, b.Contains at_) ↔ ∃ b ∈ bbs, b.Contains at_ := by
  simp only [hperm.mem_iff]

/-- Blocks of ten bytes at 300 and at 100, in a list with this flag. -/
def downwards (sorted : Bool) : RAnalFcn :=
  ⟨100, 210, [{ rAnalBbNew with addr := 300, size := 10 }, { rAnalBbNew with addr := 100, size := 10 }], sorted,
    some rTinyrangeInit⟩

theorem downwards_disjoint (sorted : Bool) :
    BlocksDisjoint ((downwards sorted).bbs.map RAnalBb.toRAnalBlock) ∧ ∀ b ∈ (downwards sorted).bbs, b.NoWrap := by
  refine ⟨⟨by decide +revert, List.pairwise_pair.mpr (fun at_ hboth => ?_)⟩, by decide +revert⟩
  have hhigh : 300 ≤ at_.toNat := hboth.1.1
  have hlow : at_.toNat < 100 + 10 := hboth.2.2
  omega

end Radare
