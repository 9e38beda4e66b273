import Radare.Anal.FcnBlocks

namespace Radare

open Framework

variable {fcn : RAnalFcn} {addr size jump fail at_ : Ut64} {type : Ut32} {b last : RAnalBb} {bbs s t : List RAnalBb}

theorem setBlock_fields (addr size jump fail : Ut64) (type : Ut32) (bb : RAnalBb) :
    (setBlock addr size jump fail type bb).addr = addr ∧
      (setBlock addr size jump fail type bb).size = wrapInt size.toNat ∧
      (setBlock addr size jump fail type bb).jump = jump ∧ (setBlock addr size jump fail type bb).fail = fail :=
  ⟨rfl, rfl, rfl, rfl⟩

/-- The sort changes the order of the blocks only. -/
theorem updateTinyrange_perm (fcn : RAnalFcn) :
    ∃ fcn', fcn.updateTinyrange = some fcn' ∧ fcn'.bbs.Perm fcn.bbs := by
  obtain ⟨ys, hsort, hperm, _⟩ :=
    sortData_spec (fun a b : RAnalBb => cmpaddr a.toRAnalBlock b.toRAnalBlock) fcn.bbs fcn.sorted
  refine ⟨{ fcn with bbs := ys, sorted := true, bbr := addAll rTinyrangeInit (ys.map RAnalBb.toRAnalBlock) }, ?_, hperm⟩
  rw [RAnalFcn.updateTinyrange, hsort]
  rfl

/-- The loop goes on past a block that does not start at the address. -/
theorem findBlock_cons {i : Nat} {mid : Bool} (hb : 0 ≤ b.size ∧ b.size < 2147483648) (hne : b.addr ≠ addr) :
    findBlock addr i mid (b :: bbs) = findBlock addr (i + 1) (mid || decide (b.Inside addr ∧ b.NoWrap)) bbs := by
  rw [findBlock, if_neg (fun h => hne h.symm)]
  by_cases hin : b.Inside addr ∧ b.NoWrap
  · rw [if_pos ((inside_test_iff hb.1 hb.2).mpr hin), decide_eq_true hin, Bool.or_true]
  · rw [if_neg (fun h => hin ((inside_test_iff hb.1 hb.2).mp h)), decide_eq_false hin, Bool.or_false]

/-- The first block at the address ends the loop. -/
theorem findBlock_found {i : Nat} {mid : Bool} (hsize : ∀ b ∈ s, 0 ≤ b.size ∧ b.size < 2147483648)
    (hs : ∀ b ∈ s, b.addr ≠ addr) (hb : b.addr = addr) :
    findBlock addr i mid (s ++ b :: t) = (some (i + s.length), false) := by
  induction s generalizing i mid with
  | nil => rw [List.nil_append, findBlock, if_pos hb.symm, List.length_nil, Nat.add_zero]
  | cons c s ih =>
    rw [List.cons_append, findBlock_cons (hsize c List.mem_cons_self) (hs c List.mem_cons_self),
      ih (fun b hb => hsize b (List.mem_cons_of_mem _ hb)) (fun b hb => hs b (List.mem_cons_of_mem _ hb)),
      List.length_cons, Nat.add_right_comm, Nat.add_assoc]

/-- Without a block at the address the loop tells whether some block has it inside. -/
theorem findBlock_none {i : Nat} {mid : Bool} (hsize : ∀ b ∈ bbs, 0 ≤ b.size ∧ b.size < 2147483648)
    (hnone : ∀ b ∈ bbs, b.addr ≠ addr) :
    findBlock addr i mid bbs = (none, mid || bbs.any (fun b => decide (b.Inside addr ∧ b.NoWrap))) := by
  induction bbs generalizing i mid with
  | nil => rw [findBlock, List.any_nil, Bool.or_false]
  | cons c bbs ih =>
    rw [findBlock_cons (hsize c List.mem_cons_self) (hnone c List.mem_cons_self),
      ih (fun b hb => hsize b (List.mem_cons_of_mem _ hb)) (fun b hb => hnone b (List.mem_cons_of_mem _ hb)),
      List.any_cons, Bool.or_assoc]

theorem modify_middle {α : Type} (s : List α) (x : α) (t : List α) (f : α → α) :
    (s ++ x :: t).modify s.length f = s ++ f x :: t := by
  induction s with
  | nil => rfl
  | cons a s ih => rw [List.cons_append, List.length_cons, List.modify_succ_cons, ih, List.cons_append]

/-- The block at the address is set in its place. -/
theorem addBb_found (size jump fail : Ut64) (type : Ut32) (hsize : ∀ b ∈ fcn.bbs, 0 ≤ b.size ∧ b.size < 2147483648) (hbbs : fcn.bbs = s ++ b :: t)
    (hs : ∀ b ∈ s, b.addr ≠ addr) (hb : b.addr = addr) :
    ∃ fcn', rAnalFcnAddBb fcn addr size jump fail type = some (true, fcn') ∧
      fcn'.bbs.Perm (setBlock addr size jump fail type b :: (s ++ t)) := by
  have hfind : findBlock addr 0 false fcn.bbs = (some (0 + s.length), false) := by
    rw [hbbs]
    exact findBlock_found (fun b hb => hsize b (by rw [hbbs]; exact List.mem_append_left _ hb)) hs hb
  obtain ⟨fcn', hupdate, hperm⟩ := updateTinyrange_perm
    { fcn with bbs := fcn.bbs.modify (0 + s.length) (setBlock addr size jump fail type) }
  refine ⟨fcn', ?_, hperm.trans ?_⟩
  · rw [rAnalFcnAddBb, hfind]
    simp only [Bool.false_eq_true, if_false, Option.bind_eq_bind, Option.bind_some]
    rw [hupdate]
    rfl
  · show (fcn.bbs.modify (0 + s.length) _).Perm _
    rw [hbbs, Nat.zero_add, modify_middle]
    exact List.perm_middle

/-- A block is appended and set. -/
theorem append_update (fcn : RAnalFcn) (addr size jump fail : Ut64) (type : Ut32) :
    ∃ fcn', RAnalFcn.updateTinyrange { rAnalFcnBbadd fcn (basicBlock addr) with
        bbs := (rAnalFcnBbadd fcn (basicBlock addr)).bbs.modify fcn.bbs.length (setBlock addr size jump fail type) } =
          some fcn' ∧
      fcn'.bbs.Perm (setBlock addr size jump fail type (basicBlock addr) :: fcn.bbs) := by
  obtain ⟨fcn', hupdate, hperm⟩ := updateTinyrange_perm { rAnalFcnBbadd fcn (basicBlock addr) with
    bbs := (rAnalFcnBbadd fcn (basicBlock addr)).bbs.modify fcn.bbs.length (setBlock addr size jump fail type) }
  refine ⟨fcn', hupdate, hperm.trans ?_⟩
  show ((fcn.bbs ++ [basicBlock addr]).modify fcn.bbs.length _).Perm _
  rw [modify_middle]
  exact List.perm_append_singleton _ _

theorem addBb_append (size jump fail : Ut64) (type : Ut32) (hsize : ∀ b ∈ fcn.bbs, 0 ≤ b.size ∧ b.size < 2147483648)
    (hnone : ∀ b ∈ fcn.bbs, b.addr ≠ addr) (hmid : ∀ b ∈ fcn.bbs, ¬(b.Inside addr ∧ b.NoWrap)) :
    ∃ fcn', rAnalFcnAddBb fcn addr size jump fail type = some (true, fcn') ∧
      fcn'.bbs.Perm (setBlock addr size jump fail type (basicBlock addr) :: fcn.bbs) := by
  obtain ⟨fcn', hupdate, hperm⟩ := append_update fcn addr size jump fail type
  refine ⟨fcn', ?_, hperm⟩
  have hfalse : fcn.bbs.any (fun b => decide (b.Inside addr ∧ b.NoWrap)) = false := by
    rw [List.any_eq_false]
    intro b hb h
    exact hmid b hb (of_decide_eq_true h)
  rw [rAnalFcnAddBb, findBlock_none hsize hnone, hfalse]
  simp only [Bool.or_false, Bool.false_eq_true, if_false, Option.bind_eq_bind, Option.bind_some]
  rw [hupdate]
  rfl

theorem addBb_shrink (size jump fail : Ut64) (type : Ut32) (hsize : ∀ b ∈ fcn.bbs, 0 ≤ b.size ∧ b.size < 2147483648)
    (hnone : ∀ b ∈ fcn.bbs, b.addr ≠ addr) (hbbs : fcn.bbs = s ++ [last])
    (hmid : ∃ b ∈ fcn.bbs, b.Inside addr ∧ b.NoWrap) :
    ∃ fcn', rAnalFcnAddBb fcn addr size jump fail type = some (true, fcn') ∧
      fcn'.bbs.Perm (setBlock addr size jump fail type (basicBlock addr) :: (s ++ [cutBlock last addr])) := by
  have htrue : fcn.bbs.any (fun b => decide (b.Inside addr ∧ b.NoWrap)) = true := by
    obtain ⟨b, hb, hin⟩ := hmid
    exact List.any_eq_true.mpr ⟨b, hb, decide_eq_true hin⟩
  obtain ⟨fcn₁, hshrink, hperm₁⟩ := updateTinyrange_perm { fcn with bbs := s ++ [cutBlock last addr] }
  obtain ⟨fcn', hupdate, hperm⟩ := append_update fcn₁ addr size jump fail type
  have hlast : shrinkLast fcn addr = some fcn₁ := by
    rw [shrinkLast, hbbs, List.getLast?_append_of_ne_nil _ (List.cons_ne_nil _ _), List.getLast?_singleton,
      List.dropLast_concat]
    exact hshrink
  refine ⟨fcn', ?_, hperm.trans (hperm₁.cons _)⟩
  rw [rAnalFcnAddBb, findBlock_none hsize hnone, htrue]
  simp only [Bool.or_true, if_true, Option.bind_eq_bind, hlast, Option.bind_some]
  rw [hupdate]
  rfl

/-- A block with the address inside, ending there. -/
def shrinkTo (addr : Ut64) (b : RAnalBb) : RAnalBb :=
  if b.Inside addr then { b with size := (addr.toNat : Int) - b.addr.toNat } else b

/-- The blocks besides the new one. -/
def keptBlocks (addr : Ut64) (bbs : List RAnalBb) : List RAnalBb :=
  (bbs.filter (fun b => b.addr ≠ addr)).map (shrinkTo addr)

/-- One block at the address with this size and these edges; of the others the one with the address
inside now ends there, and the rest are as they were. -/
def AddRight (fcn : RAnalFcn) (addr size jump fail : Ut64) (type : Ut32) : Prop :=
  ∃ fcn' bb, rAnalFcnAddBb fcn addr size jump fail type = some (true, fcn') ∧ bb.addr = addr ∧
    bb.size = (size.toNat : Int) ∧ bb.jump = jump ∧ bb.fail = fail ∧ fcn'.bbs.Perm (bb :: keptBlocks addr fcn.bbs)

/-- The size is one of an `int`, at most one block starts at the address, and a block with the address
inside is the last of the list and below the top of the address space, with no block that starts at the
address before it. -/
def AddFits (fcn : RAnalFcn) (addr size : Ut64) : Prop :=
  size.toNat < 2147483648 ∧ (fcn.bbs.filter (fun b => b.addr = addr)).length ≤ 1 ∧
    ∀ s B t, fcn.bbs = s ++ B :: t → B.Inside addr → t = [] ∧ B.NoWrap ∧ ∀ b ∈ s, b.addr ≠ addr

theorem shrinkTo_addr (addr : Ut64) (b : RAnalBb) : (shrinkTo addr b).addr = b.addr := by
  unfold shrinkTo
  split_ifs
  · rfl
  · rfl

theorem shrinkTo_outside (h : ¬b.Inside addr) : shrinkTo addr b = b := if_neg h

theorem not_inside_shrinkTo (addr : Ut64) (b : RAnalBb) : ¬(shrinkTo addr b).Inside addr := by
  unfold shrinkTo
  split_ifs with h
  · intro hin
    have hlt := h.lt
    have hend : addr.toNat < b.addr.toNat + ((addr.toNat : Int) - b.addr.toNat).toNat := hin.1.2
    omega
  · exact h

/-- No kept block starts at the address or has it inside. -/
theorem mem_keptBlocks (h : b ∈ keptBlocks addr bbs) : b.addr ≠ addr ∧ ¬b.Inside addr := by
  obtain ⟨c, hc, rfl⟩ := List.mem_map.mp h
  rw [List.mem_filter, decide_eq_true_iff] at hc
  exact ⟨by rw [shrinkTo_addr]; exact hc.2, not_inside_shrinkTo addr c⟩

/-- All blocks are kept as they are exactly when none starts at the address or has it inside. -/
theorem perm_keptBlocks_iff (addr : Ut64) (bbs : List RAnalBb) :
    bbs.Perm (keptBlocks addr bbs) ↔ ∀ b ∈ bbs, b.addr ≠ addr ∧ ¬b.Inside addr := by
  constructor
  · intro hperm b hb
    exact mem_keptBlocks (hperm.mem_iff.mp hb)
  · intro h
    have hkept : keptBlocks addr bbs = bbs := by
      rw [keptBlocks, List.filter_eq_self.mpr (fun b hb => decide_eq_true (h b hb).1)]
      conv_rhs => rw [← List.map_id bbs]
      exact List.map_congr_left (fun b hb => shrinkTo_outside (h b hb).2)
    rw [hkept]

theorem addRight_iff_perm {fcn' : RAnalFcn} {rest : List RAnalBb}
    (hrun : rAnalFcnAddBb fcn addr size jump fail type = some (true, fcn'))
    (hperm : fcn'.bbs.Perm (setBlock addr size jump fail type b :: rest)) :
    AddRight fcn addr size jump fail type ↔ size.toNat < 2147483648 ∧ rest.Perm (keptBlocks addr fcn.bbs) := by
  obtain ⟨haddr, hsize, hjump, hfail⟩ := setBlock_fields addr size jump fail type b
  generalize setBlock addr size jump fail type b = new at hperm haddr hsize hjump hfail
  constructor
  · intro hright
    obtain ⟨fcn₁, bb, hrun₁, haddr₁, hsize₁, _, _, hperm₁⟩ := hright
    rw [hrun, Option.some.injEq, Prod.mk.injEq] at hrun₁
    rw [← hrun₁.2] at hperm₁
    have hboth := hperm.symm.trans hperm₁
    have hnew : new = bb := by
      rcases List.mem_cons.mp (hboth.mem_iff.mp List.mem_cons_self) with heq | hkept
      · exact heq
      · exact absurd haddr (mem_keptBlocks hkept).1
    rw [← hnew] at hboth hsize₁
    have hrange := wrapInt_range size.toNat
    rw [← hsize, hsize₁] at hrange
    exact ⟨by omega, hboth.cons_inv⟩
  · intro h
    obtain ⟨hlt, hrest⟩ := h
    refine ⟨fcn', new, hrun, haddr, ?_, hjump, hfail, hperm.trans (hrest.cons _)⟩
    rw [hsize, wrapInt_of_range (by omega) (by omega)]

theorem keptBlocks_middle (hb : b.addr = addr) (s t : List RAnalBb) :
    keptBlocks addr (s ++ b :: t) = keptBlocks addr (s ++ t) := by
  unfold keptBlocks
  rw [List.filter_append, List.filter_cons_of_neg (by simp [hb]), ← List.filter_append]

theorem cutBlock_shrinkTo (hin : b.Inside addr) (hlt : b.size < 2147483648) : cutBlock b addr = shrinkTo addr b := by
  have hless := hin.lt
  have hend := hin.1.2
  have hlen : ((addr.toNat - b.addr.toNat : Nat) : Int) = (addr.toNat : Int) - b.addr.toNat := by omega
  have hcut : wrapInt (addr - b.addr).toNat = (addr.toNat : Int) - b.addr.toNat :=
    (wrapInt_sub (by omega) rfl (by omega)).trans hlen
  rw [shrinkTo, if_pos hin, cutBlock, hcut]

theorem filter_starts_nil (hnone : ∀ b ∈ bbs, b.addr ≠ addr) : bbs.filter (fun b => b.addr = addr) = [] :=
  List.filter_eq_nil_iff.mpr (fun b hb => by simpa using hnone b hb)

section Cases

variable (hsize : ∀ b ∈ fcn.bbs, 0 ≤ b.size ∧ b.size < 2147483648)
include hsize

/-- Without a block at the address and with it inside some block the last one is shrunk. -/
theorem addBb_iff_shrink (hnone : ∀ b ∈ fcn.bbs, b.addr ≠ addr) (hmid : ∃ b ∈ fcn.bbs, b.Inside addr ∧ b.NoWrap) :
    AddRight fcn addr size jump fail type ↔ AddFits fcn addr size := by
  rw [AddFits, filter_starts_nil hnone]
  obtain ⟨b₀, hb₀, hin₀, hwrap₀⟩ := hmid
  rcases List.eq_nil_or_concat' fcn.bbs with hnil | ⟨s, last, hbbs⟩
  · rw [hnil] at hb₀
    exact absurd hb₀ List.not_mem_nil
  obtain ⟨fcn', hrun, hperm⟩ := addBb_shrink size jump fail type hsize hnone
    hbbs ⟨b₀, hb₀, hin₀, hwrap₀⟩
  rw [addRight_iff_perm hrun hperm]
  have hlastOnly : (∀ b ∈ s, ¬b.Inside addr) → ∀ s' B t', fcn.bbs = s' ++ B :: t' → B.Inside addr →
      t' = [] ∧ B = last := by
    intro hfront s' B t' hbbs' hin
    rcases append_cons_cases (hbbs.symm.trans hbbs') with ⟨_, heq, hnil⟩ | ⟨_, hmem⟩ | ⟨hmem, _⟩
    · exact ⟨hnil.symm, heq.symm⟩
    · exact absurd hmem List.not_mem_nil
    · exact absurd hin (hfront B hmem)
  obtain ⟨s₀, t₀, hbbs₀⟩ := List.append_of_mem hb₀
  refine and_congr_right (fun _ => ⟨fun h => ⟨Nat.zero_le _, fun s' B t' hbbs' hin => ?_⟩, fun h => ?_⟩)
  · have hfront : ∀ b ∈ s, ¬b.Inside addr :=
      fun b hb => (mem_keptBlocks (h.mem_iff.mp (List.mem_append_left _ hb))).2
    obtain ⟨hnil, hB⟩ := hlastOnly hfront s' B t' hbbs' hin
    obtain ⟨_, hsame⟩ := hlastOnly hfront s₀ b₀ t₀ hbbs₀ hin₀
    refine ⟨hnil, by rw [hB, ← hsame]; exact hwrap₀, fun b hb => hnone b ?_⟩
    rw [hbbs']
    exact List.mem_append_left _ hb
  · have hfront : ∀ b ∈ s, ¬b.Inside addr := by
      intro b hb hin
      obtain ⟨s₁, s₂, hs⟩ := List.append_of_mem hb
      have hnil := (h.2 s₁ b (s₂ ++ [last]) (by rw [hbbs, hs]; simp) hin).1
      exact List.append_ne_nil_of_right_ne_nil _ (List.cons_ne_nil _ _) hnil
    obtain ⟨_, hsame⟩ := hlastOnly hfront s₀ b₀ t₀ hbbs₀ hin₀
    rw [hsame] at hin₀ hb₀
    have hkept : keptBlocks addr fcn.bbs = s ++ [cutBlock last addr] := by
      rw [keptBlocks, List.filter_eq_self.mpr (fun b hb => decide_eq_true (hnone b hb)), hbbs, List.map_append,
        List.map_singleton, ← cutBlock_shrinkTo hin₀ (hsize last hb₀).2]
      congr 1
      conv_rhs => rw [← List.map_id s]
      exact List.map_congr_left (fun b hb => shrinkTo_outside (hfront b hb))
    rw [hkept]

/-- Without a block at the address or with it inside, one is appended. -/
theorem addBb_iff_append (hnone : ∀ b ∈ fcn.bbs, b.addr ≠ addr) (hmid : ¬∃ b ∈ fcn.bbs, b.Inside addr ∧ b.NoWrap) :
    AddRight fcn addr size jump fail type ↔ AddFits fcn addr size := by
  rw [AddFits, filter_starts_nil hnone]
  obtain ⟨fcn', hrun, hperm⟩ := addBb_append size jump fail type hsize hnone
    (fun b hb h => hmid ⟨b, hb, h⟩)
  rw [addRight_iff_perm hrun hperm, perm_keptBlocks_iff]
  refine and_congr_right (fun _ => ⟨fun h => ⟨Nat.zero_le _, fun s B t hbbs hin => ?_⟩, fun h b hb => ?_⟩)
  · exact absurd hin (h B (by rw [hbbs]; exact List.mem_append_right _ List.mem_cons_self)).2
  · refine ⟨hnone b hb, fun hin => ?_⟩
    obtain ⟨s, t, hbbs⟩ := List.append_of_mem hb
    exact hmid ⟨b, hb, hin, (h.2 s b t hbbs hin).2.1⟩

/-- A block at the address is set. -/
theorem addBb_iff_found (hbbs : fcn.bbs = s ++ b :: t) (hb : b.addr = addr) (hs : ∀ c ∈ s, c.addr ≠ addr) :
    AddRight fcn addr size jump fail type ↔ AddFits fcn addr size := by
  unfold AddFits
  obtain ⟨fcn', hrun, hperm⟩ := addBb_found size jump fail type hsize hbbs hs hb
  rw [addRight_iff_perm hrun hperm, hbbs, keptBlocks_middle hb, perm_keptBlocks_iff]
  have hcount : ((s ++ b :: t).filter (fun b => b.addr = addr)).length =
      (t.filter (fun b => b.addr = addr)).length + 1 := by
    rw [List.filter_append, List.filter_eq_nil_iff.mpr (fun c hc => by simpa using hs c hc),
      List.filter_cons_of_pos (by simp [hb]), List.nil_append, List.length_cons]
  rw [hcount]
  refine and_congr_right (fun _ => ⟨fun h => ⟨?_, fun s' B t' hbbs' hin => ?_⟩, fun h c hc => ?_⟩)
  · rw [List.filter_eq_nil_iff.mpr (fun c hc => by simpa using (h c (List.mem_append_right _ hc)).1)]
    exact Nat.le_refl _
  · have hB : B ∈ s ++ b :: t := by
      rw [hbbs']
      exact List.mem_append_right _ List.mem_cons_self
    rcases List.mem_append.mp hB with hmem | hmem
    · exact absurd hin (h B (List.mem_append_left _ hmem)).2
    · rcases List.mem_cons.mp hmem with rfl | hmem
      · exact absurd hb hin.2
      · exact absurd hin (h B (List.mem_append_right _ hmem)).2
  · rcases List.mem_append.mp hc with hc | hc
    · refine ⟨hs c hc, fun hin => ?_⟩
      obtain ⟨s₁, s₂, rfl⟩ := List.append_of_mem hc
      have hnil := (h.2 s₁ c (s₂ ++ b :: t) (by simp) hin).1
      exact List.append_ne_nil_of_right_ne_nil _ (List.cons_ne_nil _ _) hnil
    · have hnil : t.filter (fun b => b.addr = addr) = [] := List.eq_nil_of_length_eq_zero (by omega)
      refine ⟨by simpa using List.filter_eq_nil_iff.mp hnil c hc, fun hin => ?_⟩
      obtain ⟨t₁, t₂, rfl⟩ := List.append_of_mem hc
      exact (h.2 (s ++ b :: t₁) c t₂ (by simp) hin).2.2 b (List.mem_append_right _ List.mem_cons_self) hb

end Cases

/-- Blocks at 100 and 200 with ten bytes each. -/
def tenBytes (first second : Ut64) : RAnalFcn :=
  ⟨100, 110, [{ rAnalBbNew with addr := first, size := 10 }, { rAnalBbNew with addr := second, size := 10 }], false,
    some rTinyrangeInit⟩

theorem tenBytes_disjoint :
    BlocksDisjoint ((tenBytes 100 200).bbs.map RAnalBb.toRAnalBlock) ∧
      BlocksDisjoint ((tenBytes 200 100).bbs.map RAnalBb.toRAnalBlock) := by
  refine ⟨⟨by decide, List.pairwise_pair.mpr (fun at_ hboth => ?_)⟩,
    by decide, List.pairwise_pair.mpr (fun at_ hboth => ?_)⟩
  · have hlow : at_.toNat < 100 + 10 := hboth.1.2
    have hhigh : 200 ≤ at_.toNat := hboth.2.1
    omega
  · have hlow : at_.toNat < 100 + 10 := hboth.2.2
    have hhigh : 200 ≤ at_.toNat := hboth.1.1
    omega

end Radare
