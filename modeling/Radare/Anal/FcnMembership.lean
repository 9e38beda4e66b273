import Radare.Util.RListSort
import Radare.Util.Tinyrange
import Radare.Anal.Block

namespace Radare

open Framework

/-- The range of a block. -/
def RAnalBlock.range (b : RAnalBlock) : Nat × Nat := (b.addr.toNat, b.addr.toNat + b.size.toNat)

def RAnalBlock.Contains (b : RAnalBlock) (at_ : Ut64) : Prop :=
  b.addr.toNat ≤ at_.toNat ∧ at_.toNat < b.addr.toNat + b.size.toNat

instance (b : RAnalBlock) (at_ : Ut64) : Decidable (b.Contains at_) := inferInstanceAs (Decidable (_ ∧ _))

/-- Blocks that are not empty, end before the address space does, and do not overlap. -/
structure BlocksApart (bs : List RAnalBlock) : Prop where
  size : ∀ b ∈ bs, 0 < b.size
  noWrap : ∀ b ∈ bs, b.addr.toNat + b.size.toNat < 18446744073709551616
  apart : bs.Pairwise (fun a b => ∀ at_, ¬(a.Contains at_ ∧ b.Contains at_))

theorem cmpaddr_le (a b : RAnalBlock) : cmpaddr a b ≤ 0 ↔ a.addr.toNat ≤ b.addr.toNat := by
  unfold cmpaddr
  split_ifs with h
  · rw [BitVec.lt_def] at h
    omega
  · rw [BitVec.lt_def] at h
    omega

theorem cmpaddr_preorder : TotalPreorder cmpaddr := by
  refine ⟨fun a b => ?_, fun a b c hab hbc => ?_⟩
  · rw [cmpaddr_le, cmpaddr_le]
    exact Nat.le_total _ _
  · rw [cmpaddr_le] at hab hbc ⊢
    exact hab.trans hbc

theorem BlocksApart.perm {bs bs' : List RAnalBlock} (h : BlocksApart bs) (hp : bs'.Perm bs) : BlocksApart bs' := by
  refine ⟨fun b hb => h.size b (hp.mem_iff.mp hb), fun b hb => h.noWrap b (hp.mem_iff.mp hb), ?_⟩
  refine (hp.pairwise_iff ?_).mpr h.apart
  intro a b hab at_ hboth
  exact hab at_ hboth.symm

/-- Blocks in the order of their addresses are ranges in increasing order. -/
theorem BlocksApart.ascending {bs : List RAnalBlock} (h : BlocksApart bs)
    (hsort : bs.Pairwise (fun a b => cmpaddr a b ≤ 0)) : Ascending (bs.map RAnalBlock.range) := by
  refine ⟨?_, ?_⟩
  · intro r hr
    obtain ⟨b, hb, rfl⟩ := List.mem_map.mp hr
    have hpos := h.size b hb
    show b.addr.toNat < b.addr.toNat + b.size.toNat
    omega
  · rw [List.pairwise_map]
    refine List.Pairwise.imp_of_mem ?_ (h.apart.and hsort)
    intro a b ha hb hab
    have hpos := h.size b hb
    rw [cmpaddr_le] at hab
    show a.addr.toNat + a.size.toNat ≤ b.addr.toNat
    by_contra hlt
    refine hab.1 b.addr ⟨⟨hab.2, by omega⟩, Nat.le_refl _, by omega⟩

theorem covered_range (bs : List RAnalBlock) (at_ : Ut64) :
    Covered (bs.map RAnalBlock.range) at_.toNat ↔ ∃ b ∈ bs, b.Contains at_ := by
  constructor
  · intro h
    obtain ⟨r, hr, hx⟩ := h
    obtain ⟨b, hb, rfl⟩ := List.mem_map.mp hr
    exact ⟨b, hb, hx⟩
  · intro h
    obtain ⟨b, hb, hx⟩ := h
    exact ⟨b.range, List.mem_map_of_mem hb, hx⟩

/-- The calls of `r_tinyrange_add` for a list of blocks. -/
def addAll (bbr : RRangeTiny) (bs : List RAnalBlock) : Option RRangeTiny :=
  bs.foldlM (fun bbr bb => rTinyrangeAdd bbr bb.addr (bb.addr + BitVec.ofInt 64 bb.size)) bbr

/-- The loop adds the data of the nodes in their order. -/
theorem addBlocks_eq {c : Cells RAnalBlock} {p : Option Nat} {xs : List (Nat × RAnalBlock)} {fuel : Nat}
    (hx : Linked c p xs none) (hf : xs.length ≤ fuel) (bbr : RRangeTiny) :
    addBlocks c fuel (firstPtr xs none) bbr = addAll bbr (xs.map Prod.snd) := by
  induction xs generalizing p fuel bbr with
  | nil =>
    cases fuel with
    | zero => rfl
    | succ fuel => rfl
  | cons x xs ih =>
    obtain ⟨m, rfl⟩ : ∃ m, fuel = m + 1 := ⟨fuel - 1, by rw [List.length_cons] at hf; omega⟩
    have hcell := hx.1
    have hrest := hx.2
    show addBlocks c (m + 1) (some x.1) bbr = _
    rw [addBlocks, hcell]
    simp only [Option.bind_eq_bind, Option.bind_some, addAll, List.map_cons, List.foldlM_cons]
    congr 1
    funext bbr'
    exact ih hrest (by rw [List.length_cons] at hf; omega) bbr'

theorem toNat_end {bs : List RAnalBlock} (h : BlocksApart bs) {b : RAnalBlock} (hb : b ∈ bs) :
    (b.addr + BitVec.ofInt 64 b.size).toNat = b.addr.toNat + b.size.toNat := by
  have hpos := h.size b hb
  have hlt := h.noWrap b hb
  rw [BitVec.toNat_add, BitVec.toNat_ofInt]
  omega

/-- All blocks are added while there are indices for their ranges. -/
theorem addAll_spec {bs : List RAnalBlock} (h : BlocksApart bs) :
    if (coalesce (bs.map RAnalBlock.range)).length ≤ 1073741824 then
      ∃ bbr, addAll rTinyrangeInit bs = some bbr ∧ bbr.Holds (coalesce (bs.map RAnalBlock.range))
    else addAll rTinyrangeInit bs = none := by
  induction bs using List.reverseRecOn with
  | nil =>
    rw [if_pos (by decide)]
    exact ⟨_, rfl, rfl, rfl⟩
  | append_singleton bs b ih =>
    have hmem : b ∈ bs ++ [b] := List.mem_append_right _ (List.mem_singleton_self b)
    have hend := toNat_end h hmem
    have hpos := h.size b hmem
    have hold : BlocksApart bs := ⟨fun x hx => h.size x (List.mem_append_left _ hx),
      fun x hx => h.noWrap x (List.mem_append_left _ hx), (List.pairwise_append.mp h.apart).1⟩
    rw [List.map_append, List.map_singleton]
    have hrec := ih hold
    have hstep : addAll rTinyrangeInit (bs ++ [b]) = (addAll rTinyrangeInit bs).bind
        (fun bbr => rTinyrangeAdd bbr b.addr (b.addr + BitVec.ofInt 64 b.size)) := by
      simp [addAll, List.foldlM_append]
    rw [coalesce_snoc, hstep]
    generalize coalesce (bs.map RAnalBlock.range) = ps at hrec ⊢
    by_cases hps : ps.length ≤ 1073741824
    · rw [if_pos hps] at hrec
      obtain ⟨bbr, hbbr, hholds⟩ := hrec
      rw [hbbr, Option.bind_some]
      have hlt : b.addr.toNat < (b.addr + BitVec.ofInt 64 b.size).toNat := by
        rw [hend]
        omega
      have hadd := tinyrangeAdd_spec hholds hps hlt
      rw [hend] at hadd
      exact hadd
    · rw [if_neg hps] at hrec
      have hle := length_addRange_le ps b.range
      rw [if_neg (by omega), hrec, Option.bind_none]

theorem updateTinyrange_eq {h : ListMem RAnalBlock} {fcn : RAnalFunction} {xs post : List (Nat × RAnalBlock)}
    (hv : h.Valid) (hl : ListAt h fcn.bbs xs post)
    (hsorted : fcn.bbs.sorted = true → ((xs ++ post).map Prod.snd).Pairwise (fun a b => cmpaddr a b ≤ 0)) :
    ∃ (s : ListResult RAnalBlock Unit) (bs : List RAnalBlock), bs.Perm ((xs ++ post).map Prod.snd) ∧
      bs.Pairwise (fun a b => cmpaddr a b ≤ 0) ∧
      updateTinyrangeBbs h fcn = (addAll rTinyrangeInit bs).map (fun bbr => (s.mem, ⟨s.list, bbr⟩)) := by
  obtain ⟨s, xs', post', hrun, hs⟩ := sort_sorts hv hl cmpaddr
  refine ⟨s, (xs' ++ post').map Prod.snd, hs.perm, ?_, ?_⟩
  · cases hflag : fcn.bbs.sorted with
    | false => exact hs.ordered hflag cmpaddr_preorder
    | true =>
      obtain ⟨rfl, rfl⟩ := hs.trusted hflag
      exact hsorted hflag
  · have hat := hs.turns.listAt
    have hblocks := addBlocks_eq hat.linked (hat.length_le_fresh (hs.turns.valid hv hl)) rTinyrangeInit
    rw [← hat.head] at hblocks
    rw [updateTinyrangeBbs, hrun]
    simp only [Option.bind_eq_bind, Option.bind_some, hblocks]
    cases addAll rTinyrangeInit ((xs' ++ post').map Prod.snd) with
    | none => rfl
    | some bbr => rfl

/-- The condition on blocks and address: there are indices for the ends of all runs of adjacent
blocks, and the address is not in the second of exactly two. -/
def MembershipFound (bs : List RAnalBlock) (at_ : Ut64) : Prop :=
  (runStarts (bs.map RAnalBlock.range)).length ≤ 1073741824 ∧
    ¬((runStarts (bs.map RAnalBlock.range)).length = 2 ∧ (∃ b ∈ bs, b.Contains at_) ∧
      ∀ r ∈ runStarts (bs.map RAnalBlock.range), r.1 ≤ at_.toNat)

instance (bs : List RAnalBlock) (at_ : Ut64) : Decidable (MembershipFound bs at_) :=
  inferInstanceAs (Decidable (_ ∧ ¬_))

/-- `update_tinyrange_bbs` has made an index that tells of the address whether a block holds it. -/
def MembershipRight (h : ListMem RAnalBlock) (fcn : RAnalFunction) (bs : List RAnalBlock) (at_ : Ut64) : Prop :=
  ∃ h' fcn', updateTinyrangeBbs h fcn = some (h', fcn') ∧ ∃ n, ∀ fuel, n ≤ fuel →
    rTinyrangeIn fuel fcn'.bbr at_ = some (decide (∃ b ∈ bs, b.Contains at_)) ∧
    rAnalFcnIn fuel (some fcn') at_ = some (decide (∃ b ∈ bs, b.Contains at_))

/-- Of two ranges the search sees all unless the address is in the second. -/
theorem searched_iff {ps : List (Nat × Nat)} (hs : Separated ps) (x : Nat) :
    (Covered (searchedRanges ps) x ↔ Covered ps x) ↔
      ¬(ps.length = 2 ∧ Covered ps x ∧ ∀ a ∈ ps.map Prod.fst, a ≤ x) := by
  by_cases h2 : ps.length = 2
  · obtain ⟨p, q, rfl⟩ := List.length_eq_two.mp h2
    have hgap := hs.lt (i := 0) (j := 1) (by simp) (by simp) (by omega)
    have hp := hs.nonempty p List.mem_cons_self
    simp only [List.getElem_cons_zero, List.getElem_cons_succ] at hgap
    simp [searchedRanges, Covered]
    omega
  · rw [searchedRanges, if_neg h2]
    simp [h2]

/-- For blocks apart from one another the index is right on an address exactly when the condition
holds. -/
theorem fcn_membership_iff (h : ListMem RAnalBlock) (fcn : RAnalFunction) (xs post : List (Nat × RAnalBlock))
    (hv : h.Valid) (hl : ListAt h fcn.bbs xs post)
    (hsorted : fcn.bbs.sorted = true → ((xs ++ post).map Prod.snd).Pairwise (fun a b => cmpaddr a b ≤ 0))
    (hapart : BlocksApart ((xs ++ post).map Prod.snd)) (at_ : Ut64) :
    MembershipRight h fcn ((xs ++ post).map Prod.snd) at_ ↔
      MembershipFound ((xs ++ post).map Prod.snd) at_ := by
  obtain ⟨s, bs, hperm, hsort, hupdate⟩ := updateTinyrange_eq hv hl hsorted
  generalize (xs ++ post).map Prod.snd = blocks at hapart hperm ⊢
  have hasc := (hapart.perm hperm).ascending hsort
  obtain ⟨hsep, hcov, hstarts, -⟩ := coalesce_spec hasc
  have hadd := addAll_spec (hapart.perm hperm)
  have hruns : (runStarts (bs.map RAnalBlock.range)).Perm (runStarts (blocks.map RAnalBlock.range)) :=
    runStarts_perm (hperm.map _)
  have hlen : (coalesce (bs.map RAnalBlock.range)).length = (runStarts (blocks.map RAnalBlock.range)).length := by
    rw [← hruns.length_eq, ← List.length_map (f := Prod.fst), hstarts, List.length_map]
  have hholds : Covered (coalesce (bs.map RAnalBlock.range)) at_.toNat ↔ ∃ b ∈ blocks, b.Contains at_ := by
    rw [hcov, covered_range]
    simp only [hperm.mem_iff]
  have hlow : (∀ a ∈ (coalesce (bs.map RAnalBlock.range)).map Prod.fst, a ≤ at_.toNat) ↔
      ∀ r ∈ runStarts (blocks.map RAnalBlock.range), r.1 ≤ at_.toNat := by
    rw [hstarts]
    simp only [List.forall_mem_map, hruns.mem_iff]
  have hsearch := searched_iff hsep at_.toNat
  rw [hlen, hholds, hlow] at hsearch
  rw [MembershipRight, MembershipFound, hupdate, ← hsearch, ← hlen]
  generalize coalesce (bs.map RAnalBlock.range) = ps at hadd hsep
  by_cases hroom : ps.length ≤ 1073741824
  · rw [if_pos hroom] at hadd
    obtain ⟨bbr, hbbr, hbbrHolds⟩ := hadd
    obtain ⟨n, hin⟩ := tinyrangeIn_spec hbbrHolds hsep hroom at_
    rw [hbbr]
    constructor
    · intro hright
      obtain ⟨h', fcn', heq, m, hm⟩ := hright
      cases heq
      have hboth := (hin (n + m) (by omega)).symm.trans (hm (n + m) (by omega)).1
      rw [Option.some.injEq, decide_eq_decide] at hboth
      exact ⟨hroom, hboth⟩
    · intro hcond
      refine ⟨s.mem, ⟨s.list, bbr⟩, rfl, n, fun fuel hfuel => ?_⟩
      have hres := hin fuel hfuel
      rw [decide_eq_decide.mpr hcond.2] at hres
      exact ⟨hres, hres⟩
  · rw [if_neg hroom] at hadd
    rw [hadd]
    constructor
    · intro hright
      obtain ⟨h', fcn', heq, -⟩ := hright
      cases heq
    · intro hcond
      exact absurd hcond.1 hroom

/-- A function with two blocks, the one at the higher address first in the list. -/
def twoBlocks : ListMem RAnalBlock :=
  ⟨Function.update (Function.update (fun _ => none) 0 (some ⟨some ⟨300, 100⟩, some 1, none⟩)) 1
    (some ⟨some ⟨100, 100⟩, none, some 0⟩), 2⟩

def twoBlocksFcn : RAnalFunction := ⟨⟨some 0, some 1, 2, false⟩, rTinyrangeInit⟩

theorem twoBlocks_valid : twoBlocks.Valid := by
  intro a ha
  have h2 : 2 ≤ a := ha
  simp only [twoBlocks]
  rw [Function.update_of_ne (by omega), Function.update_of_ne (by omega)]

theorem twoBlocks_listAt : ListAt twoBlocks twoBlocksFcn.bbs [(0, ⟨300, 100⟩), (1, ⟨100, 100⟩)] [] :=
  ⟨⟨rfl, rfl, trivial⟩, by decide, rfl, rfl, nofun⟩

theorem twoBlocks_apart : BlocksApart [⟨300, 100⟩, ⟨100, 100⟩] := by
  refine ⟨by decide, by decide, ?_⟩
  rw [List.pairwise_pair]
  intro at_ hboth
  have h1 : 300 ≤ at_.toNat := hboth.1.1
  have h2 : at_.toNat < 100 + 100 := hboth.2.2
  omega

/-- An address in no block and one in the first of two runs. -/
theorem fcn_membership_iff_first :
    MembershipRight twoBlocks twoBlocksFcn [⟨300, 100⟩, ⟨100, 100⟩] 250 ∧
      MembershipRight twoBlocks twoBlocksFcn [⟨300, 100⟩, ⟨100, 100⟩] 199 :=
  ⟨(fcn_membership_iff twoBlocks twoBlocksFcn _ [] twoBlocks_valid twoBlocks_listAt nofun twoBlocks_apart 250).mpr
      (by decide),
    (fcn_membership_iff twoBlocks twoBlocksFcn _ [] twoBlocks_valid twoBlocks_listAt nofun twoBlocks_apart 199).mpr
      (by decide)⟩

/-- An address in the second of two runs is not found. -/
theorem fcn_membership_misses_second :
    twoBlocks.Valid ∧ ListAt twoBlocks twoBlocksFcn.bbs [(0, ⟨300, 100⟩), (1, ⟨100, 100⟩)] [] ∧
      twoBlocksFcn.bbs.sorted = false ∧ BlocksApart [⟨300, 100⟩, ⟨100, 100⟩] ∧
      ¬MembershipRight twoBlocks twoBlocksFcn [⟨300, 100⟩, ⟨100, 100⟩] 350 := by
  refine ⟨twoBlocks_valid, twoBlocks_listAt, rfl, twoBlocks_apart, fun hright => ?_⟩
  obtain ⟨h', fcn', heq, n, hn⟩ := hright
  have hbbr : (updateTinyrangeBbs twoBlocks twoBlocksFcn).map (fun r => r.2.bbr) =
      some ⟨2, 2, [100, 200, 300, 400]⟩ := by decide
  rw [heq, Option.map_some, Option.some.injEq] at hbbr
  have hfound := (hn (n + 1) (by omega)).1
  rw [hbbr] at hfound
  have hmiss : rTinyrangeIn (n + 1) ⟨2, 2, [100, 200, 300, 400]⟩ 350 = some false := rfl
  rw [hmiss] at hfound
  revert hfound
  decide

end Radare
