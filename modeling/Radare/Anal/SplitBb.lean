import Radare.Anal.Split

namespace Radare

open Framework

variable {fcn : RAnalFcn} {addr at_ : Ut64} {B first second : RAnalBb} {s t : List RAnalBb}

/-- The block starts at the address, or the loop finds the address inside it. -/
def RAnalBlock.Hit (b : RAnalBlock) (at_ : Ut64) : Prop := b.addr = at_ ∨ (b.Inside at_ ∧ b.NoWrap)

instance RAnalBlock.decidableHit (b : RAnalBlock) (at_ : Ut64) : Decidable (b.Hit at_) :=
  inferInstanceAs (Decidable (_ ∨ _))

/-- The loop goes past the blocks before the first hit. -/
theorem splitBbLoop_skip (fcn : RAnalFcn) (seen rest : List RAnalBb) (hsize : ∀ b ∈ s, 0 ≤ b.size ∧ b.size < 2147483648)
    (hskip : ∀ b ∈ s, ¬b.Hit addr) :
    splitBbLoop fcn addr seen (s ++ rest) = splitBbLoop fcn addr (seen ++ s) rest := by
  induction s generalizing seen with
  | nil => rw [List.nil_append, List.append_nil]
  | cons b s ih =>
    have hb := hsize b List.mem_cons_self
    have hmiss := hskip b List.mem_cons_self
    rw [RAnalBlock.Hit, not_or, ← inside_test_iff hb.1 hb.2] at hmiss
    rw [List.cons_append, splitBbLoop, if_neg (fun h => hmiss.1 h.symm), if_neg hmiss.2,
      ih _ (fun c hc => hsize c (List.mem_cons_of_mem _ hc)) (fun c hc => hskip c (List.mem_cons_of_mem _ hc)),
      List.append_assoc, List.singleton_append]

theorem Parts.contains_first (hp : Parts B addr first second) (hin : B.Inside addr) (at_ : Ut64) :
    first.Contains at_ ↔ B.Contains at_ ∧ at_.toNat < addr.toNat := by
  have hlt := hin.lt
  have hend := hin.1.2
  have hsize := hp.firstSize
  rw [RAnalBlock.Contains, RAnalBlock.Contains, hp.firstAddr]
  omega

theorem Parts.contains_second (hp : Parts B addr first second) (hin : B.Inside addr) (at_ : Ut64) :
    second.Contains at_ ↔ B.Contains at_ ∧ addr.toNat ≤ at_.toNat := by
  have hlt := hin.lt
  have hend := hin.1.2
  have hsize := hp.secondSize
  rw [RAnalBlock.Contains, RAnalBlock.Contains, hp.secondAddr]
  omega

/-- Both parts together take up what the block did. -/
theorem Parts.covers (hp : Parts B addr first second) (hin : B.Inside addr) (s t : List RAnalBb) (at_ : Ut64) :
    (∃ b ∈ s ++ first :: t ++ [second], b.Contains at_) ↔ ∃ b ∈ s ++ B :: t, b.Contains at_ := by
  have hfirst := hp.contains_first hin at_
  have hsecond := hp.contains_second hin at_
  have hcase : B.Contains at_ ↔ first.Contains at_ ∨ second.Contains at_ := by
    rw [hfirst, hsecond, ← and_or_left]
    exact (and_iff_left (by omega)).symm
  simp only [List.mem_append, List.mem_cons, List.not_mem_nil, or_false, or_and_right, exists_or, exists_eq_left, hcase]
  rw [or_assoc, or_assoc, or_assoc, or_comm (b := second.Contains at_)]

theorem Parts.disjoint (hp : Parts B addr first second) (hin : B.Inside addr)
    (h : BlocksDisjoint ((s ++ B :: t).map RAnalBb.toRAnalBlock)) :
    BlocksDisjoint ((s ++ first :: t ++ [second]).map RAnalBb.toRAnalBlock) := by
  have hfirst := hp.contains_first hin
  have hsecond := hp.contains_second hin
  have hlt := hin.lt
  have hend := hin.1.2
  have hB := h.size B.toRAnalBlock (List.mem_map_of_mem (List.mem_append_right _ List.mem_cons_self))
  have hpair := List.pairwise_map.mp h.apart
  obtain ⟨hs, hBt, hcross⟩ := List.pairwise_append.mp hpair
  obtain ⟨hBt, ht⟩ := List.pairwise_cons.mp hBt
  refine ⟨?_, ?_⟩
  · rw [List.forall_mem_map]
    have hold : ∀ b ∈ s ++ B :: t, 0 ≤ b.size ∧ b.size < 2147483648 :=
      fun b hb => h.size _ (List.mem_map_of_mem hb)
    intro b hb
    simp only [List.mem_append, List.mem_cons, List.not_mem_nil, or_false] at hb hold
    rcases hb with (hb | rfl | hb) | rfl
    · exact hold b (Or.inl hb)
    · have hsize := hp.firstSize
      omega
    · exact hold b (Or.inr (Or.inr hb))
    · have hsize := hp.secondSize
      omega
  · rw [List.pairwise_map, List.pairwise_append, List.pairwise_append, List.pairwise_cons]
    refine ⟨⟨hs, ⟨fun b hb a hboth => ?_, ht⟩, fun b hb c hc a hboth => ?_⟩, List.pairwise_singleton _ _,
      fun b hb c hc a hboth => ?_⟩
    · exact hBt b hb a ⟨((hfirst a).mp hboth.1).1, hboth.2⟩
    · rcases List.mem_cons.mp hc with rfl | hc
      · exact hcross b hb B List.mem_cons_self a ⟨hboth.1, ((hfirst a).mp hboth.2).1⟩
      · exact hcross b hb c (List.mem_cons_of_mem _ hc) a hboth
    · rw [List.mem_singleton] at hc
      subst hc
      have hin₂ := (hsecond a).mp hboth.2
      rcases List.mem_append.mp hb with hb | hb
      · exact hcross b hb B List.mem_cons_self a ⟨hboth.1, hin₂.1⟩
      · rcases List.mem_cons.mp hb with rfl | hb
        · have hin₁ := (hfirst a).mp hboth.1
          omega
        · exact hBt b hb a ⟨hin₂.1, hboth.1⟩

/-- A split gives two blocks in the place of the one with the address inside, and leaves the function as it is where a
block starts at the address or none has it inside. -/
def SplitRight (fcn : RAnalFcn) (offs : RAnalBb → List Ut16) (addr : Ut64) : Prop :=
  ∃ ret fcn', rAnalFcnSplitBb fcn addr = some (ret, fcn') ∧
    ((ret = retDup ∧ fcn' = fcn ∧ ∃ b ∈ fcn.bbs, b.addr = addr) ∨
      (ret = retNew ∧ fcn' = fcn ∧ ∀ b ∈ fcn.bbs, ¬b.Contains addr) ∨
      (ret = retEnd ∧ ∃ s B t first second, fcn.bbs = s ++ B :: t ∧ B.Contains addr ∧
        fcn'.bbs = s ++ first :: t ++ [second] ∧ SplitsInto B (offs B) addr first second ∧
        BlocksDisjoint (fcn'.bbs.map RAnalBb.toRAnalBlock) ∧
        ∀ at_, (∃ b ∈ fcn'.bbs, b.Contains at_) ↔ ∃ b ∈ fcn.bbs, b.Contains at_))

/-- The block with the address inside does not reach the top of the address space and, when it is cut
between two instructions, has none recorded behind its end; or a block that starts at the address is
found in its place. -/
def SplitFits (fcn : RAnalFcn) (offs : RAnalBb → List Ut16) (addr : Ut64) : Prop :=
  ∀ s B t, fcn.bbs = s ++ B :: t → B.Inside addr →
    (B.NoWrap ∧ InstrsFit B (offs B) addr) ∨ (∃ b ∈ s, b.addr = addr) ∨ (¬B.NoWrap ∧ ∃ b ∈ t, b.addr = addr)

/-- Splitting does what it should on an address exactly when the condition holds. -/
theorem splitBb_iff (fcn : RAnalFcn) (offs : RAnalBb → List Ut16) (addr : Ut64)
    (hdisjoint : BlocksDisjoint (fcn.bbs.map RAnalBb.toRAnalBlock)) (hrec : ∀ b ∈ fcn.bbs, b.Records (offs b))
    (hinc : ∀ b ∈ fcn.bbs, (offs b).Pairwise (fun a b => a.toNat < b.toNat))
    (hfirst : ∀ b ∈ fcn.bbs, ∀ v ∈ (offs b).head?, v = 0) (haddr : addr ≠ ut64Max) :
    SplitRight fcn offs addr ↔ SplitFits fcn offs addr := by
  have hsize : ∀ b ∈ fcn.bbs, 0 ≤ b.size ∧ b.size < 2147483648 :=
    fun b hb => hdisjoint.size _ (List.mem_map_of_mem hb)
  rw [SplitRight, rAnalFcnSplitBb, if_neg haddr]
  rcases first_such (fun b : RAnalBb => b.Hit addr) fcn.bbs with hnone | ⟨s, B, t, hbbs, hB, hs⟩
  · -- no block is hit: the loop comes to its end
    have hrun := splitBbLoop_skip fcn [] [] hsize hnone
    rw [List.append_nil, List.nil_append, splitBbLoop] at hrun
    rw [hrun]
    constructor
    · intro hright
      obtain ⟨ret, fcn', heq, hcases⟩ := hright
      cases heq
      rcases hcases with ⟨hret, _⟩ | ⟨_, _, hout⟩ | ⟨hret, _⟩
      · exact absurd hret (by decide)
      · intro s B t hbbs hin
        exact absurd hin.1 (hout B (by rw [hbbs]; exact List.mem_append_right _ List.mem_cons_self))
      · exact absurd hret (by decide)
    · intro hfits
      refine ⟨retNew, fcn, rfl, Or.inr (Or.inl ⟨rfl, rfl, fun B hmem hcontains => ?_⟩)⟩
      obtain ⟨s, t, hbbs⟩ := List.append_of_mem hmem
      have hmiss := hnone B hmem
      rw [RAnalBlock.Hit, not_or] at hmiss
      have hstart : ∀ b ∈ fcn.bbs, b.addr ≠ addr := fun b hb h => hnone b hb (Or.inl h)
      rcases hfits s B t hbbs ⟨hcontains, hmiss.1⟩ with hfit | ⟨b, hb, h⟩ | ⟨_, b, hb, h⟩
      · exact hmiss.2 ⟨⟨hcontains, hmiss.1⟩, hfit.1⟩
      · exact hstart b (by rw [hbbs]; exact List.mem_append_left _ hb) h
      · exact hstart b (by rw [hbbs]; exact List.mem_append_right _ (List.mem_cons_of_mem _ hb)) h
  · have hmemB : B ∈ fcn.bbs := by rw [hbbs]; exact List.mem_append_right _ List.mem_cons_self
    have hsizes : ∀ b ∈ s, 0 ≤ b.size ∧ b.size < 2147483648 :=
      fun b hb => hsize b (by rw [hbbs]; exact List.mem_append_left _ hb)
    have hrun := splitBbLoop_skip fcn [] (B :: t) hsizes hs
    rw [← hbbs, List.nil_append, splitBbLoop] at hrun
    rw [hrun]
    by_cases hstart : B.addr = addr
    · -- the address is a block start
      rw [if_pos hstart.symm]
      refine iff_of_true ⟨retDup, fcn, rfl, Or.inl ⟨rfl, rfl, B, hmemB, hstart⟩⟩ ?_
      intro s' B' t' hbbs' hin
      rcases append_cons_cases (hbbs.symm.trans hbbs') with ⟨_, rfl, _⟩ | ⟨hbefore, _⟩ | ⟨hmem, hbehind⟩
      · exact absurd hstart hin.2
      · exact Or.inr (Or.inl ⟨B, hbefore, hstart⟩)
      · exact Or.inr (Or.inr ⟨fun hwrap => hs B' hmem (Or.inr ⟨hin, hwrap⟩), B, hbehind, hstart⟩)
    · rw [if_neg (fun h => hstart h.symm)]
      obtain ⟨hin, hwrap⟩ := hB.resolve_left hstart
      have hsizeB := hsize B hmemB
      rw [if_pos ((inside_test_iff hsizeB.1 hsizeB.2).mpr ⟨hin, hwrap⟩)]
      obtain ⟨first, second, hsplit, hparts, hinto⟩ :=
        splitBlock_spec (hrec B hmemB) ⟨hinc B hmemB, hfirst B hmemB⟩ hsizeB.1 hsizeB.2 hin hwrap
      rw [hsplit]
      simp only [Option.bind_eq_bind, Option.bind_some, Option.some.injEq, Prod.mk.injEq]
      have hdisjoint' := hdisjoint
      rw [hbbs] at hdisjoint'
      have hcovers := hparts.covers hin s t
      rw [← hbbs] at hcovers
      constructor
      · intro hright
        obtain ⟨ret, fcn', ⟨rfl, rfl⟩, hcases⟩ := hright
        rcases hcases with ⟨hret, _⟩ | ⟨hret, _⟩ | ⟨_, s', B', t', first', second', hbbs', hin', heq, hinto', _⟩
        · exact absurd hret (by decide)
        · exact absurd hret (by decide)
        · obtain ⟨rfl, rfl, rfl⟩ := hdisjoint.position hbbs hbbs' hin.1 hin'
          obtain ⟨hfront, hsecond⟩ := List.append_inj heq (by simp)
          obtain ⟨rfl, _⟩ := List.cons.inj (List.append_cancel_left hfront)
          obtain ⟨rfl, _⟩ := List.cons.inj hsecond
          intro s₂ B₂ t₂ hbbs₂ hin₂
          obtain ⟨_, rfl, _⟩ := hdisjoint.position hbbs hbbs₂ hin.1 hin₂.1
          exact Or.inl ⟨hwrap, hinto.mp hinto'⟩
      · intro hfits
        rcases hfits s B t hbbs hin with ⟨_, hfit⟩ | ⟨b, hb, h⟩ | ⟨hnot, _⟩
        · exact ⟨_, _, ⟨rfl, rfl⟩, Or.inr (Or.inr ⟨rfl, s, B, t, first, second, hbbs, hin.1, rfl, hinto.mpr hfit,
            hparts.disjoint hin hdisjoint', hcovers⟩)⟩
        · exact absurd (Or.inl h) (hs b hb)
        · exact absurd hwrap hnot

/-- A function with one block of eight bytes, with instructions at 0, 3 and 5. -/
def oneBlock (addr : Ut64) : RAnalFcn :=
  ⟨addr, 8, [[0, 3, 5].foldl recordInstr { rAnalBbNew with addr := addr, size := 8 }], false, some rTinyrangeInit⟩

theorem oneBlock_disjoint (addr : Ut64) : BlocksDisjoint ((oneBlock addr).bbs.map RAnalBb.toRAnalBlock) := by
  refine ⟨?_, List.pairwise_singleton _ _⟩
  intro b hb
  rw [List.mem_singleton.mp hb, (recordInstrs_other _ [0, 3, 5]).1]
  exact ⟨show (0 : Int) ≤ 8 by decide, show (8 : Int) < 2147483648 by decide⟩

theorem oneBlock_records (addr : Ut64) : ∀ b ∈ (oneBlock addr).bbs, b.Records [0, 3, 5] := by
  intro b hb
  rw [List.mem_singleton.mp hb]
  have hoffs : Offsets ([] ++ [0, 3, 5]) := ⟨by decide, fun v hv => (Option.mem_some_iff.mp hv).symm⟩
  have hrec := recordInstrs_records { rAnalBbNew with addr := addr, size := 8 } (RAnalBb.Records.nil rfl) hoffs
  rwa [List.nil_append] at hrec

/-- A cut at the second instruction. -/
theorem splitBb_iff_middle : SplitRight (oneBlock 0x1000) (fun _ => [0, 3, 5]) 0x1003 := by
  refine (splitBb_iff (oneBlock 0x1000) (fun _ => [0, 3, 5]) 0x1003 (oneBlock_disjoint _) (oneBlock_records _)
    (fun _ _ => by decide) (fun _ _ v hv => (Option.mem_some_iff.mp hv).symm) (by decide)).mpr ?_
  intro s B t hbbs _
  have hB : B ∈ (oneBlock 0x1000).bbs := by
    rw [hbbs]
    exact List.mem_append_right _ List.mem_cons_self
  obtain rfl := List.mem_singleton.mp hB
  have hblock := (recordInstrs_other { rAnalBbNew with addr := 0x1000, size := 8 } [0, 3, 5]).1
  refine Or.inl ⟨by decide, fun _ v hv => ?_⟩
  rw [hblock]
  simp only [List.mem_cons, List.not_mem_nil, or_false] at hv
  rcases hv with rfl | rfl | rfl
  · decide
  · decide
  · decide

/-- The last block of the address space is not cut. -/
theorem splitBb_misses_top :
    (∀ b ∈ (oneBlock 0xfffffffffffffff8).bbs, b.Contains 0xfffffffffffffffb) ∧
      rAnalFcnSplitBb (oneBlock 0xfffffffffffffff8) 0xfffffffffffffffb =
        some (retNew, oneBlock 0xfffffffffffffff8) ∧
      ¬SplitRight (oneBlock 0xfffffffffffffff8) (fun _ => [0, 3, 5]) 0xfffffffffffffffb := by
  have hin : ∀ b ∈ (oneBlock 0xfffffffffffffff8).bbs, b.Contains 0xfffffffffffffffb := by
    intro b hb
    rw [List.mem_singleton.mp hb]
    decide
  have hres : rAnalFcnSplitBb (oneBlock 0xfffffffffffffff8) 0xfffffffffffffffb =
      some (retNew, oneBlock 0xfffffffffffffff8) := by decide
  refine ⟨hin, hres, fun hright => ?_⟩
  obtain ⟨ret, fcn', heq, hcases⟩ := hright
  rw [hres] at heq
  cases heq
  rcases hcases with ⟨hret, _⟩ | ⟨_, _, hout⟩ | ⟨hret, _⟩
  · exact absurd hret (by decide)
  · exact hout _ (List.mem_singleton_self _) (hin _ (List.mem_singleton_self _))
  · exact absurd hret (by decide)

end Radare
