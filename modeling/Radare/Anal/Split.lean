import Radare.Anal.FcnBlocks

namespace Radare

open Framework

variable {bb bbi B first second : RAnalBb} {offs : List Ut16} {addr at_ : Ut64}

/-- The offset of an instruction below a bound. -/
def below (bound : Int) (v : Ut16) : Bool := decide ((v.toNat : Int) < bound)

theorem below_iff (bound : Int) (v : Ut16) : below bound v = true ↔ (v.toNat : Int) < bound := decide_eq_true_iff

theorem below_mono (bound : Int) (a b : Ut16) (hab : a.toNat < b.toNat) (hb : below bound b = true) :
    below bound a = true := by
  rw [below_iff] at hb ⊢
  omega

theorem RAnalBb.Records.congr {bb' : RAnalBb} (h : bb.Records offs) (hn : bb'.ninstr = bb.ninstr)
    (hp : bb'.opPos = bb.opPos) : bb'.Records offs := by
  refine ⟨hn.trans h.ninstr, fun i hi => ?_⟩
  rw [← h.stored i hi, rAnalBbOffsetInst, rAnalBbOffsetInst, hn, hp]

theorem RAnalBb.Records.front {offs₁ offs₂ : List Ut16} (h : bb.Records (offs₁ ++ offs₂)) {n : Int}
    (hn : n = offs₁.length) : { bb with ninstr := n }.Records offs₁ := by
  refine ⟨hn, fun i hi => ?_⟩
  have hold := h.stored i (by rw [List.length_append]; omega)
  rw [rAnalBbOffsetInst, h.ninstr, if_neg (by rw [List.length_append]; omega), List.getElem_append_left hi] at hold
  rw [rAnalBbOffsetInst, if_neg (by show ¬((i : Int) < 0 ∨ n ≤ i); omega)]
  exact hold

theorem RAnalBb.Records.unique {offs' : List Ut16} (h : bb.Records offs) (h' : bb.Records offs') : offs = offs' := by
  have hlen : offs.length = offs'.length := by
    have heq := h.ninstr.symm.trans h'.ninstr
    omega
  refine List.ext_getElem hlen (fun i hi hi' => ?_)
  exact Option.some.inj ((h.stored i hi).symm.trans (h'.stored i hi'))

/-- The first loop counts the instructions that start before the new end. -/
theorem instrsBelow_spec (pre : List Ut16) {post : List Ut16} (h : bbi.Records (pre ++ post)) (fuel : Nat)
    (hf : post.length < fuel) :
    instrsBelow bbi fuel pre.length = some (((pre ++ post.takeWhile (below bbi.size)).length : Nat) : Int) := by
  induction post generalizing pre fuel with
  | nil =>
    obtain ⟨m, rfl⟩ : ∃ m, fuel = m + 1 := ⟨fuel - 1, by rw [List.length_nil] at hf; omega⟩
    have hn := h.ninstr
    rw [List.append_nil] at hn
    rw [instrsBelow, if_neg (by omega), List.takeWhile_nil, List.append_nil]
  | cons v post ih =>
    obtain ⟨m, rfl⟩ : ∃ m, fuel = m + 1 := ⟨fuel - 1, by rw [List.length_cons] at hf; omega⟩
    obtain ⟨hlt, hread⟩ := h.next
    rw [instrsBelow, if_pos hlt, hread]
    simp only [Option.bind_eq_bind, Option.bind_some]
    by_cases hv : below bbi.size v = true
    · rw [if_pos ((below_iff _ _).mp hv), List.takeWhile_cons_of_pos hv]
      rw [List.append_cons] at h ⊢
      have hrest := ih (pre ++ [v]) h m (by rw [List.length_cons] at hf; omega)
      rwa [List.length_append, List.length_singleton, Int.natCast_add] at hrest
    · rw [if_neg (fun hlt' => hv ((below_iff _ _).mpr hlt')), List.takeWhile_cons_of_neg hv, List.append_nil]

/-- The offset in the second block of an instruction behind the cut. -/
def shifted (cut : Int) (v : Ut16) : Ut16 := BitVec.ofInt 16 (v.toNat - cut)

/-- The second loop records the instructions that start before the end of both blocks. -/
theorem moveInstrs_spec (bb : RAnalBb) {pre post : List Ut16} (h : bbi.Records (pre ++ post)) (fuel : Nat)
    (hf : post.length < fuel) {total : Int} (ht : wrapInt (bbi.size + bb.size) = total) :
    moveInstrs bbi fuel pre.length bb =
      some (((post.takeWhile (below total)).map (shifted bbi.size)).foldl recordInstr bb) := by
  induction post generalizing pre fuel bb with
  | nil =>
    obtain ⟨m, rfl⟩ : ∃ m, fuel = m + 1 := ⟨fuel - 1, by rw [List.length_nil] at hf; omega⟩
    have hn := h.ninstr
    rw [List.append_nil] at hn
    rw [moveInstrs, if_neg (by omega)]
    rfl
  | cons v post ih =>
    obtain ⟨m, rfl⟩ : ∃ m, fuel = m + 1 := ⟨fuel - 1, by rw [List.length_cons] at hf; omega⟩
    obtain ⟨hlt, hread⟩ := h.next
    rw [moveInstrs, if_pos hlt, hread]
    simp only [Option.bind_eq_bind, Option.bind_some, ht]
    by_cases hv : below total v = true
    · have hlt' := (below_iff _ _).mp hv
      rw [if_neg (by omega), List.takeWhile_cons_of_pos hv, List.map_cons, List.foldl_cons]
      rw [List.append_cons] at h
      have hsize : (recordInstr bb (shifted bbi.size v)).size = bb.size :=
        congrArg RAnalBlock.size (setOffset_other bb bb.ninstr (shifted bbi.size v)).1
      have hrest := ih (recordInstr bb (shifted bbi.size v)) h m
        (by rw [List.length_cons] at hf; omega) (by rw [hsize]; exact ht)
      rwa [List.length_append, List.length_singleton, Int.natCast_add] at hrest
    · rw [below_iff] at hv
      rw [if_pos (by omega), List.takeWhile_cons_of_neg (by rw [below_iff]; exact hv)]
      rfl

/-- The ranges and edges of the parts of a block. -/
structure Parts (B : RAnalBb) (addr : Ut64) (first second : RAnalBb) : Prop where
  firstAddr : first.addr = B.addr
  firstSize : first.size = (addr.toNat : Int) - B.addr.toNat
  secondAddr : second.addr = addr
  secondSize : second.size = B.addr.toNat + B.size - addr.toNat
  firstEdges : first.jump = addr ∧ first.fail = ut64Max
  secondEdges : second.jump = B.jump ∧ second.fail = B.fail ∧ second.conditional = B.conditional

/-- Every instruction of a block that is cut between two of them is in one of the parts, at the address
it had. -/
structure SplitsInto (B : RAnalBb) (offs : List Ut16) (addr : Ut64) (first second : RAnalBb) : Prop
    extends Parts B addr first second where
  instrs : (∃ v ∈ offs, B.addr.toNat + v.toNat = addr.toNat) →
    ∃ offs₁ offs₂, first.Records offs₁ ∧ second.Records offs₂ ∧
      offs₁.map (fun v => B.addr.toNat + v.toNat) ++ offs₂.map (fun v => addr.toNat + v.toNat) =
        offs.map (fun v => B.addr.toNat + v.toNat)

/-- No instruction of a block that is cut between two of them is recorded behind its end. -/
def InstrsFit (B : RAnalBb) (offs : List Ut16) (addr : Ut64) : Prop :=
  (∃ v ∈ offs, B.addr.toNat + v.toNat = addr.toNat) → ∀ v ∈ offs, (v.toNat : Int) < B.size

/-- Where the cut is an instruction, that one is the first not below it. -/
theorem dropWhile_cut (hinc : offs.Pairwise (fun a b => a.toNat < b.toNat)) {cut : Nat} :
    (∃ v ∈ offs, v.toNat = cut) ↔ ∃ v rest, offs.dropWhile (below cut) = v :: rest ∧ v.toNat = cut := by
  constructor
  · intro h
    obtain ⟨v, hv, hcut⟩ := h
    have hmem : v ∈ offs.dropWhile (below cut) := by
      rw [← List.takeWhile_append_dropWhile (p := below cut) (l := offs)] at hv
      rcases List.mem_append.mp hv with hin | hout
      · have hlt := (below_iff _ _).mp (List.mem_takeWhile_imp hin)
        omega
      · exact hout
    cases hdrop : offs.dropWhile (below cut) with
    | nil =>
      rw [hdrop] at hmem
      cases hmem
    | cons w rest =>
      refine ⟨w, rest, rfl, ?_⟩
      have hw : below cut w = false :=
        not_of_mem_dropWhile (below_mono cut) hinc w (by rw [hdrop]; exact List.mem_cons_self)
      have hsuffix := hinc.sublist (List.dropWhile_suffix (below cut)).sublist
      rw [hdrop, List.pairwise_cons] at hsuffix
      rw [hdrop] at hmem
      have hge : ¬(w.toNat : Int) < cut := fun h => Bool.eq_false_iff.mp hw ((below_iff _ _).mpr h)
      rcases List.mem_cons.mp hmem with rfl | hrest
      · exact hcut
      · have hlt := hsuffix.1 v hrest
        omega
  · intro h
    obtain ⟨v, rest, hdrop, hcut⟩ := h
    exact ⟨v, (List.dropWhile_suffix (below cut)).subset (by rw [hdrop]; exact List.mem_cons_self), hcut⟩

theorem toNat_shifted {cut : Nat} {v : Ut16} (h : cut ≤ v.toNat) : (shifted cut v).toNat = v.toNat - cut := by
  have hv := v.isLt
  rw [shifted, BitVec.toNat_ofInt]
  omega

/-- The instructions behind the cut are in order again, and the first of them is at 0. -/
theorem shifted_offsets (hinc : offs.Pairwise (fun a b => a.toNat < b.toNat)) {cut : Nat} {v : Ut16} {rest : List Ut16}
    (hdrop : offs.dropWhile (below cut) = v :: rest) (hcut : v.toNat = cut) (p : Ut16 → Bool) :
    Offsets (((v :: rest).takeWhile p).map (shifted cut)) := by
  have hge : ∀ w ∈ (v :: rest).takeWhile p, cut ≤ w.toNat := by
    intro w hw
    have hout := not_of_mem_dropWhile (below_mono cut) hinc w
      (by rw [hdrop]; exact (List.takeWhile_prefix p).subset hw)
    have hnot : ¬(w.toNat : Int) < cut := fun h => Bool.eq_false_iff.mp hout ((below_iff _ _).mpr h)
    omega
  refine ⟨?_, fun w hw => ?_⟩
  · rw [List.pairwise_map]
    have hsub : ((v :: rest).takeWhile p).Pairwise (fun a b => a.toNat < b.toNat) := by
      rw [← hdrop]
      exact hinc.sublist ((List.takeWhile_prefix p).sublist.trans (List.dropWhile_suffix _).sublist)
    refine hsub.imp_of_mem (fun ha hb hab => ?_)
    rw [toNat_shifted (hge _ ha), toNat_shifted (hge _ hb)]
    have hle := hge _ ha
    omega
  · by_cases hp : p v = true
    · rw [List.takeWhile_cons_of_pos hp, List.map_cons, List.head?_cons, Option.mem_some_iff] at hw
      rw [← hw]
      refine BitVec.eq_of_toNat_eq ?_
      rw [toNat_shifted (by omega)]
      show v.toNat - cut = 0
      omega
    · rw [List.takeWhile_cons_of_neg hp] at hw
      cases hw

/-- The instructions shared out between a block that has been cut and the new one behind it. -/
theorem shareInstrs_spec (hrec : bbi.Records offs) (hoffs : Offsets offs)
    {cut : Nat} (hcut : bbi.size = cut) (hbb : (bb.addr - bbi.addr).toNat = cut) {total : Int}
    (ht : wrapInt (bbi.size + bb.size) = total) :
    ∃ n bb', shareInstrs bbi bb = some ({ bbi with ninstr := n }, bb') ∧ bb'.toRAnalBlock = bb.toRAnalBlock ∧
      bb'.jump = bb.jump ∧ bb'.fail = bb.fail ∧ bb'.conditional = bb.conditional ∧
      { bbi with ninstr := n }.Records (offs.takeWhile (below cut)) ∧
      ((∃ v ∈ offs, v.toNat = cut) →
        bb'.Records (((offs.dropWhile (below cut)).takeWhile (below total)).map (shifted cut))) := by
  have hinc := hoffs.increasing
  have hn := hrec.ninstr
  have hsplit := List.takeWhile_append_dropWhile (p := below cut) (l := offs)
  have hi := instrsBelow_spec [] hrec (bbi.ninstr.toNat + 1) (by omega)
  rw [List.length_nil, Int.natCast_zero, List.nil_append, hcut] at hi
  rw [shareInstrs, hi]
  simp only [Option.bind_eq_bind, Option.bind_some]
  have hfront : { bbi with ninstr := ((offs.takeWhile (below cut)).length : Int) }.Records
      (offs.takeWhile (below cut)) := by
    rw [← hsplit] at hrec
    exact hrec.front rfl
  cases hdrop : offs.dropWhile (below cut) with
  | nil =>
    -- no instruction behind the cut: the offset read is that of no instruction
    have hnone : ¬∃ v ∈ offs, v.toNat = cut := by
      rw [dropWhile_cut hinc]
      intro h
      obtain ⟨v, rest, hcons, _⟩ := h
      rw [hdrop] at hcons
      cases hcons
    have hall : offs.takeWhile (below cut) = offs := by rw [hdrop, List.append_nil] at hsplit; exact hsplit
    rw [hall] at hfront ⊢
    rw [hrec.offset_end]
    simp only [Option.bind_some]
    by_cases htest : bb.addr - bbi.addr = ut16Max.setWidth 64
    · rw [← List.append_nil offs] at hrec
      have hmove := moveInstrs_spec { bb with ninstr := 0 } hrec (bbi.ninstr.toNat + 1) (Nat.succ_pos _) ht
      rw [if_pos htest, hmove]
      exact ⟨_, _, rfl, rfl, rfl, rfl, rfl, hfront, fun h => absurd h hnone⟩
    · rw [if_neg htest]
      exact ⟨_, _, rfl, rfl, rfl, rfl, rfl, hfront, fun h => absurd h hnone⟩
  | cons v rest =>
    rw [hdrop] at hsplit
    have hrec' := hrec
    rw [← hsplit] at hrec'
    rw [hrec'.next.2]
    simp only [Option.bind_some]
    have hv := v.isLt
    have hsame : bb.addr - bbi.addr = v.setWidth 64 ↔ v.toNat = cut := by
      rw [← BitVec.toNat_inj, hbb, BitVec.toNat_setWidth]
      omega
    by_cases hmark : v.toNat = cut
    · have hlen : (v :: rest).length < bbi.ninstr.toNat + 1 := by
        have hle := congrArg List.length hsplit
        rw [List.length_append] at hle
        omega
      have hmove := moveInstrs_spec { bb with ninstr := 0 } hrec' _ hlen ht
      rw [if_pos (hsame.mpr hmark), hmove, hcut]
      have hfields := recordInstrs_other { bb with ninstr := 0 } (((v :: rest).takeWhile (below total)).map (shifted cut))
      refine ⟨_, _, rfl, hfields.1, hfields.2.1, hfields.2.2.1, hfields.2.2.2, hfront, fun _ => ?_⟩
      have hnew := recordInstrs_records { bb with ninstr := 0 } (RAnalBb.Records.nil rfl)
        (shifted_offsets hinc hdrop hmark (below total))
      exact hnew
    · rw [if_neg (fun h => hmark (hsame.mp h))]
      refine ⟨_, _, rfl, rfl, rfl, rfl, rfl, hfront, fun h => ?_⟩
      obtain ⟨w, rest', hcons, hw⟩ := (dropWhile_cut hinc).mp h
      rw [hdrop, List.cons.injEq] at hcons
      exact absurd (hcons.1 ▸ hw) hmark

theorem cut_iff (hin : B.Inside addr) {v : Ut16} :
    B.addr.toNat + v.toNat = addr.toNat ↔ v.toNat = addr.toNat - B.addr.toNat := by
  have hlt := hin.lt
  omega

/-- The instructions recorded in the two parts are all that there are exactly when none is behind the
end of the block. -/
theorem parts_instrs_iff (hinc : offs.Pairwise (fun a b => a.toNat < b.toNat)) (hin : B.Inside addr)
    (hfirst : first.Records (offs.takeWhile (below (addr.toNat - B.addr.toNat : Nat))))
    (hsecond : (∃ v ∈ offs, v.toNat = addr.toNat - B.addr.toNat) →
      second.Records (((offs.dropWhile (below (addr.toNat - B.addr.toNat : Nat))).takeWhile (below B.size)).map
        (shifted (addr.toNat - B.addr.toNat : Nat)))) :
    ((∃ v ∈ offs, B.addr.toNat + v.toNat = addr.toNat) →
      ∃ offs₁ offs₂, first.Records offs₁ ∧ second.Records offs₂ ∧
        offs₁.map (fun v => B.addr.toNat + v.toNat) ++ offs₂.map (fun v => addr.toNat + v.toNat) =
          offs.map (fun v => B.addr.toNat + v.toNat)) ↔ InstrsFit B offs addr := by
  have hlt := hin.lt
  have hend := hin.1.2
  simp only [InstrsFit, cut_iff hin]
  generalize hcut : addr.toNat - B.addr.toNat = cut at hfirst hsecond ⊢
  refine forall_congr' (fun hmark => ?_)
  have hsecond := hsecond hmark
  have hsplit := List.takeWhile_append_dropWhile (p := below cut) (l := offs)
  have hfront : ∀ v ∈ offs.takeWhile (below cut), (v.toNat : Int) < B.size := by
    intro v hv
    have hbelow := (below_iff _ _).mp (List.mem_takeWhile_imp hv)
    omega
  have hback : ∀ v ∈ offs.dropWhile (below cut), cut ≤ v.toNat := by
    intro v hv
    have hout := not_of_mem_dropWhile (below_mono cut) hinc v hv
    have hnot : ¬(v.toNat : Int) < cut := fun h => Bool.eq_false_iff.mp hout ((below_iff _ _).mpr h)
    omega
  constructor
  · intro h
    obtain ⟨offs₁, offs₂, h₁, h₂, hall⟩ := h
    rw [h₁.unique hfirst, h₂.unique hsecond] at hall
    have hlen := congrArg List.length hall
    have hlen' := congrArg List.length hsplit
    simp only [List.length_append, List.length_map] at hlen hlen'
    have hself : (offs.dropWhile (below cut)).takeWhile (below B.size) = offs.dropWhile (below cut) :=
      (List.takeWhile_prefix _).eq_of_length (by omega)
    intro v hv
    rw [← hsplit] at hv
    rcases List.mem_append.mp hv with hv | hv
    · exact hfront v hv
    · rw [List.takeWhile_eq_self_iff] at hself
      exact (below_iff _ _).mp (hself v hv)
  · intro hfit
    have hself : (offs.dropWhile (below cut)).takeWhile (below B.size) = offs.dropWhile (below cut) := by
      rw [List.takeWhile_eq_self_iff]
      intro v hv
      exact (below_iff _ _).mpr (hfit v ((List.dropWhile_suffix _).subset hv))
    rw [hself] at hsecond
    refine ⟨_, _, hfirst, hsecond, ?_⟩
    rw [List.map_map]
    have hshift : (offs.dropWhile (below cut)).map ((fun v : Ut16 => addr.toNat + v.toNat) ∘ shifted cut) =
        (offs.dropWhile (below cut)).map (fun v => B.addr.toNat + v.toNat) := by
      refine List.map_congr_left (fun v hv => ?_)
      have hge := hback v hv
      show addr.toNat + (shifted cut v).toNat = _
      rw [toNat_shifted hge]
      omega
    rw [hshift, ← List.map_append, hsplit]

/-- A block with the address inside is cut there. -/
theorem splitBlock_spec (hrec : B.Records offs) (hoffs : Offsets offs) (h0 : 0 ≤ B.size)
    (hlt : B.size < 2147483648) (hin : B.Inside addr) (hwrap : B.NoWrap) :
    ∃ first second, splitBlock B addr = some (first, second) ∧ Parts B addr first second ∧
      (SplitsInto B offs addr first second ↔ InstrsFit B offs addr) := by
  have hinlt := hin.lt
  have hend := hin.1.2
  have hw : B.addr.toNat + B.size.toNat < 18446744073709551616 := hwrap
  have hsum : (B.addr + BitVec.ofInt 64 B.size).toNat = B.addr.toNat + B.size.toNat := by
    rw [BitVec.toNat_add, toNat_ofInt_size h0 hlt]
    omega
  have hfirstLen : ((addr.toNat - B.addr.toNat : Nat) : Int) = (addr.toNat : Int) - B.addr.toNat := by omega
  have hsecondLen : ((B.addr.toNat + B.size.toNat - addr.toNat : Nat) : Int) = B.addr.toNat + B.size - addr.toNat := by
    omega
  have hfirstSize : (firstPart B addr).size = ((addr.toNat - B.addr.toNat : Nat) : Int) := by
    rw [firstPart_size]
    exact wrapInt_sub (by omega) rfl (by omega)
  have hsecondSize : (secondPart B addr).size = ((B.addr.toNat + B.size.toNat - addr.toNat : Nat) : Int) := by
    rw [secondPart_size]
    exact wrapInt_sub (by omega) (by rw [hsum]) (by omega)
  have hcut : ((secondPart B addr).addr - (firstPart B addr).addr).toNat = addr.toNat - B.addr.toNat := by
    rw [secondPart_addr, firstPart_addr]
    exact BitVec.toNat_sub_of_le (by rw [BitVec.le_def]; omega)
  have htotal : wrapInt ((firstPart B addr).size + (secondPart B addr).size) = B.size := by
    rw [hfirstSize, hsecondSize, wrapInt_of_range (by omega) (by omega)]
    omega
  have hrec' := hrec.congr (firstPart_ninstr B addr) (firstPart_opPos B addr)
  obtain ⟨n, second, hrun, hblock, hjump, hfail, hcond, hfirst, hsecond⟩ :=
    shareInstrs_spec hrec' hoffs hfirstSize hcut htotal
  have hparts : Parts B addr { firstPart B addr with ninstr := n } second := by
    have hedges := secondPart_edges B addr
    refine ⟨firstPart_addr B addr, ?_, (congrArg RAnalBlock.addr hblock).trans (secondPart_addr B addr), ?_,
      firstPart_edges B addr, hjump.trans hedges.1, hfail.trans hedges.2.1, hcond.trans hedges.2.2⟩
    · exact hfirstSize.trans hfirstLen
    · exact ((congrArg RAnalBlock.size hblock).trans hsecondSize).trans hsecondLen
  have hinstrs := parts_instrs_iff hoffs.increasing hin hfirst hsecond
  exact ⟨_, second, hrun, hparts, fun h => hinstrs.mp h.instrs, fun h => ⟨hparts, hinstrs.mpr h⟩⟩

end Radare
