import Radare.Framework.PartialMatch
import Radare.Search.SearchKeyword

namespace Radare

open Framework

/-- The mask byte for a place of the keyword; without a mask nothing is masked. -/
def RSearchKeyword.maskByte (kw : RSearchKeyword) (q : Nat) : Ut8 :=
  (kw.binBinmask[q % kw.binBinmask.length]?).getD 255

/-- A byte and the keyword byte `q` agree, in lower case where the case does not count, and under the mask. -/
def AgreesAt (kw : RSearchKeyword) (q : Nat) (c : Ut8) : Prop :=
  ∃ b, kw.binKeyword[q]? = some b ∧ kw.lower c &&& kw.maskByte q = kw.lower b &&& kw.maskByte q

/-- The keyword agrees with the text at an address. -/
def RealHit (kw : RSearchKeyword) (text : List Ut8) (from_ addr : Ut64) : Prop :=
  ∀ q < kw.binKeyword.length, ∃ c, text[(addr - from_).toNat + q]? = some c ∧ AgreesAt kw q c

/-- Where the bytes matched so far are all the first one, the index goes back by one, or by two. The condition: a
byte that is refused at `k` agrees at the place it is then counted for, and what has agreed one place, or two
places, further on agrees here too. -/
def RetreatSafe (kw : RSearchKeyword) : Prop :=
  ∀ k, 2 ≤ k → k < kw.binKeyword.length → isTail kw k = true → ∀ c, ¬AgreesAt kw k c →
    (matchesAgain kw (k - 1) c = some true ∧ ∀ i, i + 1 < k → ∀ d, AgreesAt kw (i + 1) d → AgreesAt kw i d) ∨
    (matchesAgain kw (k - 1) c ≠ some true ∧ (∀ i, i + 2 < k → ∀ d, AgreesAt kw (i + 2) d → AgreesAt kw i d) ∧
      AgreesAt kw (k - 2) c)

section Compare

variable {kw : RSearchKeyword} {k : Nat} {c : Ut8}

theorem matches_iff : matches_ kw k c = some true ↔ AgreesAt kw k c := by
  unfold matches_ AgreesAt RSearchKeyword.maskByte
  split_ifs with hm
  · have hmod := Nat.mod_lt k hm
    simp only [maskcmp, List.getElem?_eq_getElem hmod, Option.bind_eq_bind, Option.bind_some, Option.bind_eq_some_iff,
      Option.some.injEq, beq_iff_eq, Option.getD_some]
  · have hempty : kw.binBinmask = [] := List.length_eq_zero_iff.mp (by omega)
    have hall : ∀ b : Ut8, b &&& 255 = b := fun b => BitVec.and_allOnes
    simp only [hempty, List.getElem?_nil, Option.getD_none, hall, Option.map_eq_some_iff, beq_iff_eq]
    exact exists_congr (fun b => and_congr_right (fun _ => eq_comm))

theorem agrees_of_again (h : matchesAgain kw k c = some true) : AgreesAt kw k c := matches_iff.mp (matches_of_again h)

/-- Every place of the keyword agrees with a byte, its own one. -/
theorem exists_agrees (hk : k < kw.binKeyword.length) : ∃ c, AgreesAt kw k c :=
  ⟨kw.binKeyword[k], kw.binKeyword[k], List.getElem?_eq_getElem hk, rfl⟩

theorem kwNext_agrees (h : AgreesAt kw k c) : kwNext kw k c = k + 1 := if_pos (matches_iff.mpr h)

theorem kwNext_refused (h : ¬AgreesAt kw k c) :
    kwNext kw k c = if matchesAgain kw (retreat kw k) c = some true then retreat kw k + 1 else retreat kw k := by
  unfold kwNext
  rw [if_neg (fun hm => h (matches_iff.mp hm))]

theorem retreat_of_not_tail (h : ¬(2 ≤ k ∧ isTail kw k = true)) : retreat kw k = 0 := by
  have hle := retreat_le kw k
  unfold retreat at hle ⊢
  split_ifs with htail
  · by_contra hne
    exact h ⟨by omega, htail⟩
  · rfl

/-- The condition says that every step keeps what is taken as read. -/
theorem keepsAlong_iff (kw : RSearchKeyword) :
    KeepsAlong (kwNext kw) (AgreesAt kw) kw.binKeyword.length ↔ RetreatSafe kw := by
  have hfill : ∀ k < kw.binKeyword.length, ∃ c, AgreesAt kw k c := fun k hk => exists_agrees hk
  have hends : ∀ {k j : Nat} {c : Ut8} {w : List Ut8}, w.length = k → j ≤ k →
      (EndsAlong (AgreesAt kw) (k + 1 - j) (w ++ [c]) ↔ Along (AgreesAt kw) 0 (w.drop j ++ [c])) := by
    intro k j c w hw hj
    have hlen : (w ++ [c]).length = k + 1 := by rw [List.length_append, List.length_singleton, hw]
    have hiff := endsAlong_drop (AgreesAt kw) (w ++ [c]) (k := j) (by omega)
    rw [hlen, List.drop_append_of_le_length (by omega)] at hiff
    exact hiff
  constructor
  · intro h k hk hlen htail c hc
    have hback : retreat kw k = k - 1 := if_pos htail
    have hnext := kwNext_refused hc
    rw [hback] at hnext
    by_cases hagain : matchesAgain kw (k - 1) c = some true
    · rw [if_pos hagain, Nat.sub_add_cancel (by omega)] at hnext
      refine Or.inl ⟨hagain, ((along_shift_iff (c := c) hfill (j := 1) (Nat.le_of_lt hlen)).mp (fun w hw halong => ?_)).1⟩
      exact (hends hw (by omega)).mp (by rw [Nat.add_sub_cancel, ← hnext]; exact h k hlen w hw halong c)
    · rw [if_neg hagain] at hnext
      refine Or.inr ⟨hagain, (along_shift_iff hfill (j := 2) (Nat.le_of_lt hlen)).mp (fun w hw halong => ?_)⟩
      refine (hends hw hk).mp ?_
      rw [show k + 1 - 2 = k - 1 by omega, ← hnext]
      exact h k hlen w hw halong c
  · intro h k hk w hw halong c
    by_cases hc : AgreesAt kw k c
    · rw [kwNext_agrees hc]
      refine (hends hw (Nat.zero_le k)).mpr (along_append.mpr ⟨halong, along_singleton.mpr ?_⟩)
      rw [Nat.zero_add, List.drop_zero, hw]
      exact hc
    · rw [kwNext_refused hc]
      by_cases htail : 2 ≤ k ∧ isTail kw k = true
      · rw [show retreat kw k = k - 1 from if_pos htail.2, Nat.sub_add_cancel (by omega)]
        rcases h k htail.1 hk htail.2 c hc with ⟨hagain, hshift⟩ | ⟨hagain, hshift⟩
        · rw [if_pos hagain]
          exact (hends (j := 1) hw (by omega)).mpr ((along_shift_iff hfill (Nat.le_of_lt hk)).mpr
            ⟨hshift, agrees_of_again hagain⟩ w hw halong)
        · rw [if_neg hagain, show k - 1 = k + 1 - 2 by omega]
          exact (hends hw htail.1).mpr ((along_shift_iff hfill (Nat.le_of_lt hk)).mpr hshift w hw halong)
      · rw [retreat_of_not_tail htail]
        split
        · rename_i hagain
          have hone := (hends (c := c) hw (Nat.le_refl k)).mpr (by
            rw [List.drop_eq_nil_of_le (by omega), List.nil_append]
            exact along_singleton.mpr (agrees_of_again hagain))
          rwa [Nat.add_sub_cancel_left] at hone
        · refine ⟨Nat.zero_le _, ?_⟩
          rw [Nat.sub_zero, List.drop_length]
          exact along_nil 0

end Compare

/-- The buffer in consecutive pieces, each at its address; where a call does not return 0 the search is over. -/
def searchPieces (fuel : Nat) (s : RSearch) (from_ : Ut64) : List (List Ut8) → Option RSearch
  | [] => some s
  | buf :: rest => do
    let r ← rSearchMybinparseUpdate fuel s from_ buf
    if r.2 = 0 then searchPieces fuel r.1 (from_ + BitVec.ofNat 64 buf.length) rest else some r.1

/-- A search with distance 0, not inverse, without overlap; callback, alignment and the rest are free. -/
structure RSearch.Simple (s : RSearch) : Prop where
  exact_ : s.Exact
  overlap : s.overlap = false

/-- Keyword bytes, mask and case flag are those of another keyword. -/
structure RSearchKeyword.Same (kw kw' : RSearchKeyword) : Prop where
  binKeyword : kw'.binKeyword = kw.binKeyword
  binBinmask : kw'.binBinmask = kw.binBinmask
  icase : kw'.icase = kw.icase

/-- Whatever else is searched for, wherever the buffer begins and however it is cut: every hit of this keyword that
the callback is called with is one. -/
def HitsReal (kw : RSearchKeyword) : Prop :=
  ∀ (s : RSearch) (n fuel : Nat) (from_ : Ut64) (pieces : List (List Ut8)) (t : RSearch), s.Simple → s.callback.isSome →
    (∀ k ∈ s.kws, k.binKeyword ≠ []) → (∃ k, s.kws[n]? = some k ∧ kw.Same k) → pieces.flatten.length < 2 ^ 64 →
    searchPieces fuel (rSearchBegin s) from_ pieces = some t →
    ∃ hits, t.log = s.log ++ hits ∧ ∀ addr, (n, addr) ∈ hits → RealHit kw pieces.flatten from_ addr

/-- The keyword after one more byte. -/
structure Stepped (c : Ut8) (kw kw' : RSearchKeyword) : Prop where
  same : kw.Same kw'
  distance : kw'.distance = 0
  idx : kw'.idx 0 = if kwNext kw (kw.idx 0) c = kw.binKeyword.length then 0 else kwNext kw (kw.idx 0) c

section Turn

variable {s : RSearch} {kw : RSearchKeyword} {c : Ut8}

theorem hitNew_simple (hs : s.Simple) (n : Nat) (kw : RSearchKeyword) (addr : Ut64) :
    (rSearchHitNew s n kw addr).1.Simple ∧
      ((rSearchHitNew s n kw addr).1.log = s.log ∨ (rSearchHitNew s n kw addr).1.log = s.log ++ [(n, addr)]) ∧
      kw.Same (rSearchHitNew s n kw addr).2.1 ∧ (rSearchHitNew s n kw addr).2.1.idx = kw.idx := by
  have hreport : (report s n addr).1.Simple ∧
      ((report s n addr).1.log = s.log ∨ (report s n addr).1.log = s.log ++ [(n, addr)]) := by
    unfold report
    cases s.callback with
    | some f => exact ⟨⟨⟨hs.exact_.distance, hs.exact_.inverse⟩, hs.overlap⟩, Or.inr rfl⟩
    | none =>
      simp only
      split
      · exact ⟨⟨⟨hs.exact_.distance, hs.exact_.inverse⟩, hs.overlap⟩, Or.inr rfl⟩
      · exact ⟨⟨⟨hs.exact_.distance, hs.exact_.inverse⟩, hs.overlap⟩, Or.inl rfl⟩
  unfold rSearchHitNew
  split_ifs
  · exact ⟨hs, Or.inl rfl, ⟨rfl, rfl, rfl⟩, rfl⟩
  · exact ⟨hreport.1, hreport.2, ⟨rfl, rfl, rfl⟩, rfl⟩
  · exact ⟨hs, Or.inl rfl, ⟨rfl, rfl, rfl⟩, rfl⟩
  · exact ⟨hreport.1, hreport.2, ⟨rfl, rfl, rfl⟩, rfl⟩

/-- One byte for one keyword, whatever the callback says. -/
theorem distanceLoop_simple (hs : s.Simple) (hk : kw.Ready) (n : Nat) (from_ : Ut64) (buf : List Ut8) (i : Int)
    (hc : loadByte buf i = some c) :
    ∃ t, distanceLoop n from_ buf 11 0 ⟨s, kw, i, none⟩ = some t ∧ t.i = i ∧ t.s.Simple ∧
      (t.s.log = s.log ∨ (kwNext kw (kw.idx 0) c = kw.binKeyword.length ∧
        t.s.log = s.log ++ [(n, from_ + BitVec.ofInt 64 i - BitVec.ofNat 64 kw.binKeyword.length + 1)])) ∧
      ((t.ret = none ∧ Stepped c kw t.kw) ∨ t.ret = some (-1)) := by
  have hturn := distanceTurn_eq hs.exact_ hk n from_ c i
  have hlen := hk.idx
  by_cases hhit : kwNext kw (kw.idx 0) c = kw.binKeyword.length
  · rw [if_pos hhit] at hturn
    have hone : kw.binKeyword.length - 1 + 1 = kw.binKeyword.length := by omega
    obtain ⟨hsimple, hlog, hsame, -⟩ := hitNew_simple hs n
      { kw with idx := Function.update kw.idx 0 kw.binKeyword.length }
      (from_ + BitVec.ofInt 64 i - BitVec.ofNat 64 kw.binKeyword.length + 1)
    generalize hr : rSearchHitNew s n { kw with idx := Function.update kw.idx 0 kw.binKeyword.length }
      (from_ + BitVec.ofInt 64 i - BitVec.ofNat 64 kw.binKeyword.length + 1) = r at hsimple hlog hsame
    simp only [hitTurn, Function.update_self, Function.update_idem, hone, hs.exact_.inverse, if_true,
      Bool.false_eq_true, if_false, hr, hs.overlap, false_and] at hturn
    have hlog' := hlog.imp_right (fun h => And.intro hhit h)
    by_cases hret : r.2.2 = true
    · rw [if_pos hret] at hturn
      refine ⟨_, distanceLoop_eq n from_ buf i hc hturn (fun _ => rfl), rfl, hsimple, hlog', Or.inl ⟨rfl, ?_, rfl, ?_⟩⟩
      · exact ⟨hsame.binKeyword, hsame.binBinmask, hsame.icase⟩
      · rw [if_pos hhit]
        exact Function.update_self 0 0 kw.idx
    · rw [if_neg hret] at hturn
      refine ⟨_, distanceLoop_eq n from_ buf i hc hturn (fun h => ?_), rfl, hsimple, hlog', Or.inr rfl⟩
      cases h
  · rw [if_neg hhit] at hturn
    refine ⟨_, distanceLoop_eq n from_ buf i hc hturn (fun _ => hk.distance), rfl, hs, Or.inl rfl,
      Or.inl ⟨rfl, ⟨rfl, rfl, rfl⟩, hk.distance, ?_⟩⟩
    rw [if_neg hhit]
    exact Function.update_self 0 (kwNext kw (kw.idx 0) c) kw.idx

/-- One byte for all keywords. -/
theorem kwsLoop_simple (hs : s.Simple) (kws : List RSearchKeyword) (hk : ∀ kw ∈ kws, kw.Ready) (n : Nat) (from_ : Ut64)
    (buf : List Ut8) (i : Int) (hc : loadByte buf i = some c) :
    ∃ r hits, kwsLoop from_ buf n kws s i = some r ∧ r.i = i ∧ r.s.Simple ∧ r.s.log = s.log ++ hits ∧
      (∀ j addr, (n + j, addr) ∈ hits → ∃ kw, kws[j]? = some kw ∧ kwNext kw (kw.idx 0) c = kw.binKeyword.length ∧
        addr = from_ + BitVec.ofInt 64 i - BitVec.ofNat 64 kw.binKeyword.length + 1) ∧
      (∀ j addr, (j, addr) ∈ hits → n ≤ j) ∧
      ((r.ret = none ∧ List.Forall₂ (Stepped c) kws r.kws) ∨ r.ret = some (-1)) := by
  induction kws generalizing n s with
  | nil =>
    refine ⟨_, [], rfl, rfl, hs, (List.append_nil _).symm, fun j addr h => ?_, fun j addr h => ?_,
      Or.inl ⟨rfl, List.Forall₂.nil⟩⟩
    · cases h
    · cases h
  | cons kw kws ih =>
    obtain ⟨t, ht, hti, hts, htlog, htkw⟩ := distanceLoop_simple hs (hk kw List.mem_cons_self) n from_ buf i hc
    have hinv : ¬(s.inverse = true ∧ 0 < s.nhits) := by
      rw [hs.exact_.inverse]
      simp
    obtain ⟨first, hfirst, hreal⟩ : ∃ first, t.s.log = s.log ++ first ∧ ∀ j addr, (j, addr) ∈ first → j = n ∧
        kwNext kw (kw.idx 0) c = kw.binKeyword.length ∧
        addr = from_ + BitVec.ofInt 64 i - BitVec.ofNat 64 kw.binKeyword.length + 1 := by
      rcases htlog with hlog | ⟨hhit, hlog⟩
      · refine ⟨[], by rw [hlog, List.append_nil], fun j addr h => ?_⟩
        cases h
      · refine ⟨_, hlog, fun j addr h => ?_⟩
        obtain ⟨rfl, rfl⟩ := Prod.mk.inj (List.mem_singleton.mp h)
        exact ⟨rfl, hhit, rfl⟩
    have hhead : ∀ j addr, (n + j, addr) ∈ first → ∃ k, (kw :: kws)[j]? = some k ∧
        kwNext k (k.idx 0) c = k.binKeyword.length ∧
        addr = from_ + BitVec.ofInt 64 i - BitVec.ofNat 64 k.binKeyword.length + 1 := by
      intro j addr h
      obtain ⟨hj, hhit, haddr⟩ := hreal _ addr h
      obtain rfl : j = 0 := by omega
      exact ⟨kw, rfl, hhit, haddr⟩
    rw [kwsLoop, if_neg hinv, ht]
    simp only [Option.bind_eq_bind, Option.bind_some]
    rcases htkw with ⟨hret, hstep⟩ | hret
    · simp only [hret, Option.isSome_none, Bool.false_eq_true, if_false]
      obtain ⟨r, hits, hr, hri, hrs, hrlog, hrest, hlater, hsteps⟩ :=
        ih hts (fun k hmem => hk k (List.mem_cons_of_mem _ hmem)) (n + 1)
      rw [hti, hr]
      refine ⟨_, first ++ hits, rfl, hri, hrs, ?_, fun j addr h => ?_, fun j addr h => ?_, ?_⟩
      · rw [← List.append_assoc, ← hfirst]
        exact hrlog
      · rcases List.mem_append.mp h with h | h
        · exact hhead j addr h
        · have hle := hlater _ addr h
          obtain ⟨k, hk', hhit⟩ := hrest (j - 1) addr (by rw [show n + 1 + (j - 1) = n + j by omega]; exact h)
          refine ⟨k, ?_, hhit⟩
          rw [show j = j - 1 + 1 by omega]
          exact hk'
      · rcases List.mem_append.mp h with h | h
        · exact Nat.le_of_eq (hreal j addr h).1.symm
        · have hle := hlater j addr h
          omega
      · exact hsteps.imp_left (fun h => ⟨h.1, List.Forall₂.cons hstep h.2⟩)
    · simp only [hret, Option.isSome_some, if_true]
      refine ⟨_, first, rfl, hti, hts, hfirst, hhead, fun j addr h => ?_, Or.inr rfl⟩
      exact Nat.le_of_eq (hreal j addr h).1.symm

end Turn

section Run

variable {kws : List RSearchKeyword} {s : RSearch} {text : List Ut8}

/-- A keyword of the search after the text. -/
structure HasRead (text : List Ut8) (kw k : RSearchKeyword) : Prop where
  same : kw.Same k
  distance : k.distance = 0
  idx : k.idx 0 = takenFrom (kwNext kw) kw.binKeyword.length 0 text

/-- The search after the text. -/
structure Tracks (kws : List RSearchKeyword) (text : List Ut8) (s : RSearch) : Prop where
  simple : s.Simple
  kws : List.Forall₂ (HasRead text) kws s.kws

/-- What each of the hits says of the text, the address of which is `base`. -/
def Found (kws : List RSearchKeyword) (base : Ut64) (text : List Ut8) (hits : List (Nat × Ut64)) : Prop :=
  ∀ j addr, (j, addr) ∈ hits → ∃ kw w c, kws[j]? = some kw ∧ w ++ [c] <+: text ∧
    kwNext kw (takenFrom (kwNext kw) kw.binKeyword.length 0 w) c = kw.binKeyword.length ∧
    addr = base + BitVec.ofNat 64 (w.length + 1 - kw.binKeyword.length)

theorem HasRead.ready {kw k : RSearchKeyword} (h : HasRead text kw k) (hne : kw.binKeyword ≠ []) : k.Ready := by
  refine ⟨h.distance, ?_⟩
  rw [h.idx, h.same.binKeyword]
  exact takenFrom_lt (List.length_pos_iff.mpr hne) (fun k hk c => kwNext_le hk c) text

theorem HasRead.next {kw k : RSearchKeyword} (h : HasRead text kw k) (c : Ut8) :
    kwNext k (k.idx 0) c = kwNext kw (takenFrom (kwNext kw) kw.binKeyword.length 0 text) c := by
  rw [kwNext_congr h.same.binKeyword h.same.binBinmask h.same.icase, h.idx]

theorem HasRead.step {kw k k' : RSearchKeyword} {c : Ut8} (h : HasRead text kw k) (hstep : Stepped c k k') :
    HasRead (text ++ [c]) kw k' := by
  obtain ⟨hsame, hdist, hidx⟩ := hstep
  refine ⟨⟨hsame.binKeyword.trans h.same.binKeyword, hsame.binBinmask.trans h.same.binBinmask,
    hsame.icase.trans h.same.icase⟩, hdist, ?_⟩
  rw [takenFrom_append, takenFrom_singleton, hidx, h.next, h.same.binKeyword]

theorem hasRead_step {ks ks' : List RSearchKeyword} {c : Ut8} (h : List.Forall₂ (HasRead text) kws ks)
    (hsteps : List.Forall₂ (Stepped c) ks ks') : List.Forall₂ (HasRead (text ++ [c])) kws ks' := by
  induction h generalizing ks' with
  | nil =>
    cases hsteps
    exact List.Forall₂.nil
  | cons hfirst _ ih =>
    cases hsteps with
    | cons hone hrest => exact List.Forall₂.cons (hfirst.step hone) (ih hrest)

theorem hasRead_get {ks : List RSearchKeyword} (h : List.Forall₂ (HasRead text) kws ks) {j : Nat} {k : RSearchKeyword}
    (hk : ks[j]? = some k) : ∃ kw, kws[j]? = some kw ∧ HasRead text kw k := by
  induction h generalizing j with
  | nil => cases hk
  | cons hfirst _ ih =>
    cases j with
    | zero =>
      cases hk
      exact ⟨_, rfl, hfirst⟩
    | succ j => exact ih hk

theorem hasRead_ready {ks : List RSearchKeyword} (h : List.Forall₂ (HasRead text) kws ks)
    (hne : ∀ kw ∈ kws, kw.binKeyword ≠ []) : ∀ k ∈ ks, k.Ready := by
  intro k hk
  obtain ⟨j, hj, rfl⟩ := List.getElem_of_mem hk
  obtain ⟨kw, hkw, hread⟩ := hasRead_get h (List.getElem?_eq_getElem hj)
  exact hread.ready (hne kw (List.mem_of_getElem? hkw))

/-- The loop over one piece. -/
theorem updateLoop_simple (hne : ∀ kw ∈ kws, kw.binKeyword ≠ []) (base : Ut64) (pre buf : List Ut8) (fuel : Nat)
    {i : Nat} (hi : i ≤ buf.length) (h : Tracks kws (pre ++ buf.take i) s) {t : RSearch} {ret : Int}
    (hrun : updateLoop (base + BitVec.ofNat 64 pre.length) buf fuel s i = some (t, ret)) :
    ∃ hits, t.log = s.log ++ hits ∧ Found kws base (pre ++ buf) hits ∧ (ret = 0 → Tracks kws (pre ++ buf) t) := by
  induction fuel generalizing s i with
  | zero => cases hrun
  | succ fuel ih =>
    rw [updateLoop] at hrun
    by_cases hlt : (i : Int) < buf.length
    · rw [if_pos hlt] at hrun
      have hi' : i < buf.length := by omega
      obtain ⟨r, hits, hr, hri, hrs, hrlog, hreal, -, hret⟩ := kwsLoop_simple h.simple s.kws (hasRead_ready h.kws hne) 0
        (base + BitVec.ofNat 64 pre.length) buf i (loadByte_nat hi')
      have htext : pre ++ buf.take i ++ [buf[i]] = pre ++ buf.take (i + 1) := by
        rw [List.append_assoc, List.take_append_getElem]
      have hfront : pre ++ buf.take i ++ [buf[i]] <+: pre ++ buf := by
        rw [htext]
        exact (List.prefix_append_right_inj pre).mpr (List.take_prefix _ _)
      have hfound : Found kws base (pre ++ buf) hits := by
        intro j addr hmem
        obtain ⟨k, hk, hhit, haddr⟩ := hreal j addr (by rw [Nat.zero_add]; exact hmem)
        obtain ⟨kw, hkw, hread⟩ := hasRead_get h.kws hk
        rw [hread.next, hread.same.binKeyword] at hhit
        refine ⟨kw, pre ++ buf.take i, buf[i], hkw, hfront, hhit, ?_⟩
        have hlen : (pre ++ buf.take i).length = pre.length + i := by
          rw [List.length_append, List.length_take_of_le hi]
        have htaken := takenFrom_le (m := kw.binKeyword.length) (kwNext_succ_le kw) (pre ++ buf.take i)
        have hnext := kwNext_succ_le kw (takenFrom (kwNext kw) kw.binKeyword.length 0 (pre ++ buf.take i)) buf[i]
        rw [haddr, hread.same.binKeyword, hlen, BitVec.ofInt_natCast, BitVec.add_assoc, ← BitVec.ofNat_add,
          hit_address base (by omega)]
      rw [hr] at hrun
      rcases hret with ⟨hret, hsteps⟩ | hret
      · simp only [hret, Option.bind_eq_bind, Option.bind_some, hri] at hrun
        have hnext : Tracks kws (pre ++ buf.take (i + 1)) { r.s with kws := r.kws } := by
          rw [← htext]
          exact ⟨⟨⟨hrs.exact_.distance, hrs.exact_.inverse⟩, hrs.overlap⟩, hasRead_step h.kws hsteps⟩
        obtain ⟨hits', hlog, hfound', htracks⟩ := ih (i := i + 1) hi' hnext hrun
        refine ⟨hits ++ hits', ?_, fun j addr hmem => ?_, htracks⟩
        · rw [← List.append_assoc, ← hrlog]
          exact hlog
        · exact (List.mem_append.mp hmem).elim (hfound j addr) (hfound' j addr)
      · simp only [hret, Option.bind_eq_bind, Option.bind_some, Option.some.injEq, Prod.mk.injEq] at hrun
        obtain ⟨rfl, rfl⟩ := hrun
        exact ⟨hits, hrlog, hfound, fun h => absurd h (by decide)⟩
    · rw [if_neg hlt] at hrun
      cases hrun
      refine ⟨[], (List.append_nil _).symm, fun j addr h => ?_, fun _ => ?_⟩
      · cases h
      · rwa [List.take_of_length_le (by omega)] at h

/-- All pieces. -/
theorem searchPieces_simple (hne : ∀ kw ∈ kws, kw.binKeyword ≠ []) (base : Ut64) (pre : List Ut8) (fuel : Nat)
    (pieces : List (List Ut8)) (h : Tracks kws pre s) {t : RSearch}
    (hrun : searchPieces fuel s (base + BitVec.ofNat 64 pre.length) pieces = some t) :
    ∃ hits, t.log = s.log ++ hits ∧ Found kws base (pre ++ pieces.flatten) hits := by
  induction pieces generalizing s pre with
  | nil =>
    cases hrun
    refine ⟨[], (List.append_nil _).symm, fun j addr h => ?_⟩
    cases h
  | cons buf rest ih =>
    rw [searchPieces, rSearchMybinparseUpdate, Option.bind_eq_bind, Option.bind_eq_some_iff] at hrun
    obtain ⟨⟨s', ret⟩, hone, hrest⟩ := hrun
    obtain ⟨hits, hlog, hfound, htracks⟩ := updateLoop_simple hne base pre buf fuel (i := 0) (Nat.zero_le _)
      (by rw [List.take_zero, List.append_nil]; exact h) hone
    rw [List.flatten_cons, ← List.append_assoc]
    have hlonger : Found kws base (pre ++ buf ++ rest.flatten) hits := by
      intro j addr hmem
      obtain ⟨kw, w, c, hkw, hfront, hhit⟩ := hfound j addr hmem
      exact ⟨kw, w, c, hkw, hfront.trans (List.prefix_append _ _), hhit⟩
    by_cases hret : ret = 0
    · rw [if_pos hret, BitVec.add_assoc, ← BitVec.ofNat_add, ← List.length_append] at hrest
      obtain ⟨hits', hlog', hfound'⟩ := ih (pre ++ buf) (htracks hret) hrest
      refine ⟨hits ++ hits', by rw [← List.append_assoc, ← hlog]; exact hlog', fun j addr hmem => ?_⟩
      exact (List.mem_append.mp hmem).elim (hlonger j addr) (hfound' j addr)
    · rw [if_neg hret] at hrest
      cases hrest
      exact ⟨hits, hlog, hlonger⟩

/-- A search that begins follows the empty text. -/
theorem tracks_begin (hs : s.Simple) : Tracks s.kws [] (rSearchBegin s) := by
  refine ⟨⟨⟨hs.exact_.distance, hs.exact_.inverse⟩, hs.overlap⟩, ?_⟩
  show List.Forall₂ _ s.kws (s.kws.map RSearchKeyword.begin_)
  rw [List.forall₂_map_right_iff, List.forall₂_same]
  exact fun kw _ => ⟨⟨rfl, rfl, rfl⟩, rfl, Function.update_self 0 0 kw.idx⟩

end Run

section Condition

variable {kw : RSearchKeyword}

/-- A hit that ends behind a text is at the address where the keyword agrees. -/
theorem endsAlong_iff_real {text : List Ut8} {from_ addr : Ut64} {w : List Ut8} (hfront : w <+: text)
    (hlen : kw.binKeyword.length ≤ w.length) (hwrap : w.length < 2 ^ 64)
    (haddr : addr = from_ + BitVec.ofNat 64 (w.length - kw.binKeyword.length)) :
    EndsAlong (AgreesAt kw) kw.binKeyword.length w ↔ RealHit kw text from_ addr := by
  have hplace : (addr - from_).toNat = w.length - kw.binKeyword.length := by
    rw [haddr, BitVec.add_comm, BitVec.add_sub_cancel, BitVec.toNat_ofNat]
    omega
  have hget : ∀ q < kw.binKeyword.length, text[(addr - from_).toNat + q]? =
      (w.drop (w.length - kw.binKeyword.length))[q]? := by
    intro q hq
    obtain ⟨rest, rfl⟩ := hfront
    rw [hplace, List.getElem?_append_left (by omega), List.getElem?_drop]
  constructor
  · intro h q hq
    have hbound : q < (w.drop (w.length - kw.binKeyword.length)).length := by
      rw [List.length_drop]
      omega
    refine ⟨(w.drop (w.length - kw.binKeyword.length))[q], ?_, ?_⟩
    · rw [hget q hq, List.getElem?_eq_getElem hbound]
    · have hagree := h.2 q _ (List.getElem?_eq_getElem hbound)
      rwa [Nat.zero_add] at hagree
  · intro h
    refine ⟨hlen, fun q c hq => ?_⟩
    have hbound := (List.getElem?_eq_some_iff.mp hq).1
    rw [List.length_drop] at hbound
    obtain ⟨d, hd, hagree⟩ := h q (by omega)
    rw [hget q (by omega), hq] at hd
    rw [Nat.zero_add, Option.some.inj hd]
    exact hagree

theorem hitsReal_of_keeps (hne : kw.binKeyword ≠ []) (hkeeps : KeepsAlong (kwNext kw) (AgreesAt kw) kw.binKeyword.length) :
    HitsReal kw := by
  intro s n fuel from_ pieces t hs _ hall hkw hwrap hrun
  obtain ⟨k, hk, hsame⟩ := hkw
  have hzero : from_ = from_ + BitVec.ofNat 64 ([] : List Ut8).length := (BitVec.add_zero from_).symm
  rw [hzero] at hrun
  obtain ⟨hits, hlog, hfound⟩ := searchPieces_simple hall from_ [] fuel pieces (tracks_begin hs) hrun
  refine ⟨hits, hlog, fun addr hmem => ?_⟩
  obtain ⟨k', w, c, hk', hfront, hhit, haddr⟩ := hfound n addr hmem
  obtain rfl := Option.some.inj (hk.symm.trans hk')
  have hnext : kwNext k = kwNext kw := by
    funext j c
    exact kwNext_congr hsame.binKeyword hsame.binBinmask hsame.icase j c
  rw [hnext, hsame.binKeyword] at hhit
  rw [hsame.binKeyword] at haddr
  have hm := List.length_pos_iff.mpr hne
  have hread := taken_read hm hkeeps (fun j hj c => kwNext_le hj c) w
  have hends := endsAlong_snoc hkeeps (takenFrom_lt hm (fun j hj c => kwNext_le hj c) w) hread c
  rw [hhit] at hends
  have hlonger := hfront.length_le
  rw [List.nil_append] at hfront hlonger
  refine (endsAlong_iff_real hfront hends.1 (by omega) ?_).mp hends
  rw [List.length_append, List.length_singleton]
  exact haddr

/-- A search for this keyword alone, whose callback takes every hit. -/
theorem keeps_of_hitsReal (hne : kw.binKeyword ≠ []) (hlen : kw.binKeyword.length < 2 ^ 31) (h : HitsReal kw) :
    KeepsAlong (kwNext kw) (AgreesAt kw) kw.binKeyword.length := by
  refine keeps_of_real (fun k _ c hc => kwNext_agrees hc) (fun k _ c => kwNext_succ_le kw k c)
    (fun k hk => exists_agrees hk) (fun text c hshort hhit => ?_)
  obtain ⟨t, ⟨bound, ht⟩, hout⟩ := keyword_ends (s := keywordSearch kw) ⟨rfl, rfl⟩ ⟨_, rfl, fun _ => rfl⟩ rfl rfl rfl rfl hne
    0 (text ++ [c])
  have hrun := ht bound (Nat.le_refl bound)
  rw [searchChunks, Option.bind_eq_bind, Option.bind_eq_some_iff] at hrun
  obtain ⟨⟨t', ret⟩, hone, hrest⟩ := hrun
  obtain rfl := Option.some.inj hrest
  have hpieces : searchPieces bound (rSearchBegin (keywordSearch kw)) 0 [text ++ [c]] = some t' := by
    rw [searchPieces, hone, Option.bind_eq_bind, Option.bind_some]
    split
    · rfl
    · rfl
  have hflat : ([text ++ [c]] : List (List Ut8)).flatten = text ++ [c] := List.flatten_singleton
  have hsize : (text ++ [c]).length = text.length + 1 := by rw [List.length_append, List.length_singleton]
  obtain ⟨hits, hlog, hreal⟩ := h (keywordSearch kw) 0 bound 0 [text ++ [c]] t' ⟨⟨rfl, rfl⟩, rfl⟩ rfl
    (fun k hk => by rw [List.mem_singleton.mp hk]; exact hne) ⟨kw, rfl, rfl, rfl, rfl⟩ (by rw [hflat, hsize]; omega) hpieces
  have hmem : (0, (0 : Ut64) + BitVec.ofNat 64 (text.length + 1 - kw.binKeyword.length)) ∈ hits := by
    have hfound := List.mem_map_of_mem (f := fun q => (0 : Ut64) + BitVec.ofNat 64 q) (mem_matchRun (n := 0) hhit)
    rw [Nat.zero_add] at hfound
    have hmem' : (0 : Ut64) + BitVec.ofNat 64 (text.length + 1 - kw.binKeyword.length) ∈ outputs 0 t'.log := by
      rw [hout]
      exact List.mem_append_right _ hfound
    rw [hlog] at hmem'
    obtain ⟨⟨j, addr⟩, hin, haddr⟩ := List.mem_map.mp hmem'
    obtain ⟨hin, hj⟩ := List.mem_filter.mp hin
    rw [← haddr]
    have hzero : j = 0 := of_decide_eq_true hj
    rw [hzero] at hin
    exact hin
  have hbound := takenFrom_le (m := kw.binKeyword.length) (kwNext_succ_le kw) text
  have hnext := kwNext_succ_le kw (takenFrom (kwNext kw) kw.binKeyword.length 0 text) c
  have hgood := hreal _ hmem
  rw [hflat] at hgood
  exact (endsAlong_iff_real (List.prefix_refl _) (by omega) (by omega) (by rw [hsize])).mpr hgood

/-- For every keyword, mask and case flag: all hits are real, whatever else is searched for, exactly under the
condition on the places where the index goes back. -/
theorem hitsReal_iff (hne : kw.binKeyword ≠ []) (hlen : kw.binKeyword.length < 2 ^ 31) : HitsReal kw ↔ RetreatSafe kw := by
  rw [← keepsAlong_iff]
  exact ⟨keeps_of_hitsReal hne hlen, hitsReal_of_keeps hne⟩

/-- The first two bytes of `abb` differ. -/
theorem hitsReal_iff_abb : HitsReal (.plain [97, 98, 98]) := by
  refine (hitsReal_iff (by decide) (by decide)).mpr ?_
  intro k hk hlt htail
  obtain rfl : k = 2 := by
    have hlt' : k < 3 := hlt
    omega
  exact absurd htail (by decide)

/-- The keyword `aab` is reported in `aaxab`, at the `x`. -/
theorem search_hit_unreal : ¬HitsReal (.plain [97, 97, 98]) := by
  intro h
  have hrun : (searchPieces 10 (rSearchBegin (keywordSearch (.plain [97, 97, 98]))) 0 [[97, 97, 120, 97, 98]]).map
      RSearch.log = some [(0, 2)] := by decide
  obtain ⟨t, ht, hlog⟩ := Option.map_eq_some_iff.mp hrun
  obtain ⟨hits, hall, hreal⟩ := h _ 0 10 0 _ t ⟨⟨rfl, rfl⟩, rfl⟩ rfl
    (fun k hk => by rw [List.mem_singleton.mp hk]; exact List.cons_ne_nil _ _) ⟨_, rfl, rfl, rfl, rfl⟩ (by decide) ht
  rw [hlog] at hall
  have hmem : (0, (2 : Ut64)) ∈ hits := by
    have heq : hits = [(0, 2)] := hall.symm
    rw [heq]
    exact List.mem_singleton_self _
  obtain ⟨c, hc, b, hb, hagree⟩ := hreal 2 hmem 0 (by decide)
  cases hc
  cases hb
  exact absurd hagree (by decide)

end Condition

end Radare
