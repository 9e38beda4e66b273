import Radare.Framework.Occurrences
import Radare.Search.SearchOverlap

namespace Radare

open Framework

/-- One keyword without mask, the case counts; every byte may begin a hit, and hits do not overlap. -/
structure RSearch.ForKeyword (s : RSearch) (kw : RSearchKeyword) : Prop where
  exact_ : s.Exact
  accepts : s.Accepts
  align : s.align = 0
  overlap : s.overlap = false
  contiguous : s.contiguous = true
  kws : s.kws = [kw]
  mask : kw.binBinmask = []
  icase : kw.icase = false
  nonempty : kw.binKeyword ≠ []

/-- The hits of every buffer are the leftmost occurrences, in increasing order. -/
def KeywordRight (s : RSearch) (kw : RSearchKeyword) : Prop :=
  ∀ (from_ : Ut64) (buf : List Ut8), ∃ hits : List Ut64,
    (∃ t, SearchEnds (rSearchBegin s) from_ [buf] t ∧ outputs 0 t.log = outputs 0 s.log ++ hits) ∧
    hits = (leftmost kw.binKeyword 0 0 buf).map (fun q => from_ + BitVec.ofNat 64 q) ∧
    (from_.toNat + buf.length ≤ 2 ^ 64 → hits.Pairwise (· < ·))

/-- The keywords for which going back to the first byte, or to none, is right. -/
def Searchable (p : List Ut8) : Prop := p.length ≤ 2 ∨ p[0]? ≠ p[1]? ∧ BordersAgree p

instance (p : List Ut8) : Decidable (Searchable p) := inferInstanceAs (Decidable (_ ∨ _ ∧ _))

section Plain

variable {kw : RSearchKeyword} (hm : kw.binBinmask = []) (hi : kw.icase = false)

include hm hi

theorem matches_plain (k : Nat) (c : Ut8) : matches_ kw k c = some true ↔ kw.binKeyword[k]? = some c := by
  have hlen : ¬0 < kw.binBinmask.length := by
    rw [hm]
    exact Nat.lt_irrefl 0
  have hlower : ∀ b, kw.lower b = b := by
    intro b
    rw [RSearchKeyword.lower, hi]
    rfl
  rw [matches_, if_neg hlen, Option.map_eq_some_iff]
  simp only [hlower, beq_iff_eq]
  constructor
  · intro h
    obtain ⟨ch, hch, heq⟩ := h
    rw [hch, heq]
  · intro h
    exact ⟨c, h, rfl⟩

theorem matchesAgain_plain (k : Nat) (c : Ut8) : matchesAgain kw k c = some true ↔ kw.binKeyword[k]? = some c := by
  have hlen : ¬0 < kw.binBinmask.length := by
    rw [hm]
    exact Nat.lt_irrefl 0
  rw [← matches_plain hm hi, matchesAgain, matches_, if_neg hlen, if_neg hlen]
  simp only [RSearchKeyword.lower, hi, Bool.false_eq_true, if_false]

theorem kwNext_plain (k : Nat) (c : Ut8) :
    kwNext kw k c = if kw.binKeyword[k]? = some c then k + 1
      else if kw.binKeyword[retreat kw k]? = some c then retreat kw k + 1 else retreat kw k := by
  rw [kwNext]
  simp only [matches_plain hm hi, matchesAgain_plain hm hi]

theorem kwNext_own {k : Nat} {c : Ut8} (h : kw.binKeyword[k]? = some c) : kwNext kw k c = k + 1 := by
  rw [kwNext_plain hm hi, if_pos h]

end Plain

theorem kwNext_succ_le (kw : RSearchKeyword) (k : Nat) (c : Ut8) : kwNext kw k c ≤ k + 1 := by
  have hback := retreat_le kw k
  unfold kwNext
  split_ifs
  · omega
  · omega
  · omega

/-- With two different bytes first, or with two bytes, the index goes back to 0. -/
theorem retreat_zero {kw : RSearchKeyword} (h : kw.binKeyword.length ≤ 2 ∨ kw.binKeyword[0]? ≠ kw.binKeyword[1]?)
    {k : Nat} (hk : k < kw.binKeyword.length) : retreat kw k = 0 := by
  have hle := retreat_le kw k
  by_cases hsmall : k ≤ 1
  · omega
  · have hdiff := h.resolve_left (by omega)
    obtain ⟨j, rfl⟩ : ∃ j, k = j + 2 := ⟨k - 2, by omega⟩
    have hnot : ¬isTail kw (j + 2) = true := by
      intro htail
      match hl : kw.binKeyword with
      | [] => simp [hl] at hk
      | [_] => simp [hl] at hk
      | a :: b :: rest =>
        simp only [isTail, hl, List.take_succ_cons, List.drop_succ_cons, List.drop_zero, List.all_cons,
          List.head?_cons, Bool.and_eq_true, beq_iff_eq, Option.some.injEq] at htail
        rw [hl] at hdiff
        exact hdiff (congrArg some htail.2.1)
    rw [retreat, if_neg hnot]

section Run

variable {s : RSearch} {kw : RSearchKeyword}

/-- The place of a hit that ends at a byte. -/
theorem hit_address (from_ : Ut64) {n m : Nat} (h : m ≤ n + 1) :
    from_ + BitVec.ofNat 64 n - BitVec.ofNat 64 m + 1 = from_ + BitVec.ofNat 64 (n + 1 - m) := by
  have hsplit : BitVec.ofNat 64 n + 1 = BitVec.ofNat 64 (n + 1 - m) + BitVec.ofNat 64 m := by
    rw [← BitVec.ofNat_add, Nat.sub_add_cancel h, BitVec.ofNat_add]
    rfl
  have hmove : from_ + BitVec.ofNat 64 n - BitVec.ofNat 64 m + 1 =
      from_ + (BitVec.ofNat 64 n + 1) - BitVec.ofNat 64 m := by
    rw [BitVec.sub_eq_add_neg, BitVec.sub_eq_add_neg]
    ac_rfl
  rw [hmove, hsplit, ← BitVec.add_assoc, BitVec.add_sub_cancel]

theorem takeHit_plain (h : s.align = 0) (hc : s.contiguous = true) (kw : RSearchKeyword) (addr : Ut64) :
    takeHit s kw addr = (kw, [addr]) := by
  rw [takeHit, if_neg (fun hal => hal.1 h), if_pos hc]

/-- What is reported for one keyword is what its machine reports. -/
theorem feed_kwFeed (hal : s.align = 0) (hc : s.contiguous = true) (from_ : Ut64) {k : RSearchKeyword}
    (hdata : k.binKeyword = kw.binKeyword ∧ k.binBinmask = kw.binBinmask ∧ k.icase = kw.icase) {n : Nat}
    (hn : k.idx 0 ≤ n) (buf : List Ut8) :
    (feed (kwFeed s) k (addressed (from_ + BitVec.ofNat 64 n) buf)).2 =
      (matchRun (kwNext kw) kw.binKeyword.length (k.idx 0) n buf).map (fun q => from_ + BitVec.ofNat 64 q) := by
  induction buf generalizing k n with
  | nil => rfl
  | cons c rest ih =>
    have hstep : kwNext k (k.idx 0) c = kwNext kw (k.idx 0) c := kwNext_congr hdata.1 hdata.2.1 hdata.2.2 _ c
    have hle := kwNext_succ_le kw (k.idx 0) c
    have haddr : from_ + BitVec.ofNat 64 n + 1 = from_ + BitVec.ofNat 64 (n + 1) := by
      rw [BitVec.ofNat_add, BitVec.add_assoc]
      rfl
    obtain ⟨hb, hm, hi⟩ := kwFeed_data s k (c, from_ + BitVec.ofNat 64 n)
    have hrest := ih (k := (kwFeed s k (c, from_ + BitVec.ofNat 64 n)).1)
      ⟨hb.trans hdata.1, hm.trans hdata.2.1, hi.trans hdata.2.2⟩ (n := n + 1)
    rw [addressed, feed, matchRun, haddr]
    by_cases hhit : kwNext kw (k.idx 0) c = kw.binKeyword.length
    · have hidx : (kwFeed s k (c, from_ + BitVec.ofNat 64 n)).1.idx 0 = 0 := by
        rw [kwFeed, if_pos (by rw [hstep, hdata.1, hhit])]
        exact Function.update_self 0 0 k.idx
      have hout : (kwFeed s k (c, from_ + BitVec.ofNat 64 n)).2 =
          [from_ + BitVec.ofNat 64 (n + 1 - kw.binKeyword.length)] := by
        rw [kwFeed, if_pos (by rw [hstep, hdata.1, hhit])]
        simp only [takeHit_plain hal hc, hdata.1, hit_address from_ (show kw.binKeyword.length ≤ n + 1 by omega)]
      rw [hidx] at hrest
      rw [hrest (Nat.zero_le _), hout, if_pos hhit, List.map_cons]
      rfl
    · have hkeep : kwFeed s k (c, from_ + BitVec.ofNat 64 n) =
          ({ k with idx := Function.update k.idx 0 (kwNext kw (k.idx 0) c) }, []) := by
        rw [kwFeed, if_neg (by rw [hstep, hdata.1]; exact hhit), hstep]
      have hidx : (kwFeed s k (c, from_ + BitVec.ofNat 64 n)).1.idx 0 = kwNext kw (k.idx 0) c := by
        rw [hkeep]
        exact Function.update_self 0 _ k.idx
      rw [hidx] at hrest
      rw [hrest (by omega), hkeep, if_neg hhit, List.nil_append]

/-- The hits of a buffer as those of the machine. -/
theorem keyword_ends (hs : s.Exact) (ha : s.Accepts) (hal : s.align = 0) (hov : s.overlap = false)
    (hc : s.contiguous = true) (hkw : s.kws = [kw]) (hne : kw.binKeyword ≠ []) (from_ : Ut64) (buf : List Ut8) :
    ∃ t, SearchEnds (rSearchBegin s) from_ [buf] t ∧ outputs 0 t.log = outputs 0 s.log ++
      (matchRun (kwNext kw) kw.binKeyword.length 0 0 buf).map (fun q => from_ + BitVec.ofNat 64 q) := by
  have hall : ∀ k ∈ s.kws, k.binKeyword ≠ [] := by
    rw [hkw]
    intro k hk
    rw [List.mem_singleton.mp hk]
    exact hne
  refine ⟨_, searchEnds_steady (steady_begin hs ha hall (.inl hov)) from_ [buf], ?_⟩
  have hfeed : searchStep (rSearchBegin s) = kwFeed s := by
    funext k x
    rw [searchStep, if_neg]
    · rfl
    · intro hr
      have hon : s.overlap = true := hr.1
      rw [hov] at hon
      cases hon
  have hkws : (rSearchBegin s).kws = [kw.begin_] := by
    rw [rSearchBegin, hkw]
    rfl
  have hzero : from_ + BitVec.ofNat 64 0 = from_ := BitVec.add_zero from_
  have hrun := feed_kwFeed hal hc from_ (k := kw.begin_) (begin_data kw) (n := 0)
    (Nat.le_of_eq (begin_idx kw)) buf
  rw [begin_idx, hzero] at hrun
  rw [outputs_fed, hfeed, hkws, List.flatten_singleton]
  exact congrArg (outputs 0 s.log ++ ·) hrun

theorem RSearch.ForKeyword.ends (h : s.ForKeyword kw) (from_ : Ut64) (buf : List Ut8) :
    ∃ t, SearchEnds (rSearchBegin s) from_ [buf] t ∧ outputs 0 t.log = outputs 0 s.log ++
      (matchRun (kwNext kw) kw.binKeyword.length 0 0 buf).map (fun q => from_ + BitVec.ofNat 64 q) :=
  keyword_ends h.exact_ h.accepts h.align h.overlap h.contiguous h.kws h.nonempty from_ buf

end Run

section Condition

variable {s : RSearch} {kw : RSearchKeyword}

/-- The hits of a buffer in order. -/
theorem hits_pairwise {p : List Ut8} (hp : p ≠ []) (from_ : Ut64) (buf : List Ut8)
    (hwrap : from_.toNat + buf.length ≤ 2 ^ 64) :
    ((leftmost p 0 0 buf).map (fun q => from_ + BitVec.ofNat 64 q)).Pairwise (· < ·) := by
  have hinside : ∀ q ∈ leftmost p 0 0 buf, q < buf.length := by
    intro q hq
    have hlen := (mem_leftmost p hq).2.length_le
    have hpos := List.length_pos_iff.mpr hp
    rw [List.length_drop] at hlen
    omega
  rw [List.pairwise_map]
  refine (leftmost_pairwise p 0 0 buf).imp_of_mem ?_
  intro a b ha hb hlt
  have hra := hinside a ha
  have hrb := hinside b hb
  rw [BitVec.lt_def, BitVec.toNat_add, BitVec.toNat_add, BitVec.toNat_ofNat, BitVec.toNat_ofNat]
  omega

theorem keywordRight_of_searchable (h : s.ForKeyword kw) (hsearch : Searchable kw.binKeyword) : KeywordRight s kw := by
  intro from_ buf
  have hpos := List.length_pos_iff.mpr h.nonempty
  have hnext : ∀ k < kw.binKeyword.length, ∀ c, kwNext kw k c = restartNext kw.binKeyword k c := by
    intro k hk c
    rw [kwNext_plain h.mask h.icase, retreat_zero (hsearch.imp id And.left) hk, restartNext]
  have hborders : BordersAgree kw.binKeyword := by
    rcases hsearch with hshort | hlong
    · exact bordersAgree_short hshort
    · exact hlong.2
  have hrun : matchRun (kwNext kw) kw.binKeyword.length 0 0 buf = leftmost kw.binKeyword 0 0 buf := by
    rw [matchRun_congr hnext (kwNext_succ_le kw) hpos]
    exact matchRun_restart hborders hpos 0 buf
  obtain ⟨t, ht, hout⟩ := h.ends from_ buf
  rw [hrun] at hout
  exact ⟨_, ⟨t, ht, hout⟩, rfl, hits_pairwise h.nonempty from_ buf⟩

/-- When the hits are right, the machine finds the leftmost occurrences, up to 2^64. -/
theorem matchRun_of_right (h : s.ForKeyword kw) (hright : KeywordRight s kw) (buf : List Ut8) :
    (matchRun (kwNext kw) kw.binKeyword.length 0 0 buf).map (BitVec.ofNat 64) =
      (leftmost kw.binKeyword 0 0 buf).map (BitVec.ofNat 64) := by
  obtain ⟨hits, ⟨t, ht, hout⟩, hhits, -⟩ := hright 0 buf
  obtain ⟨t', ht', hout'⟩ := h.ends 0 buf
  rw [ht.unique ht', hout', List.append_cancel_left_eq, hhits] at hout
  have hzero : (fun q => (0 : Ut64) + BitVec.ofNat 64 q) = BitVec.ofNat 64 := by
    funext q
    exact BitVec.zero_add _
  rw [hzero] at hout
  exact hout

theorem exists_other (a b : Ut8) : ∃ c : Ut8, c ≠ a ∧ c ≠ b := by
  by_cases h0 : (0 : Ut8) ≠ a ∧ (0 : Ut8) ≠ b
  · exact ⟨0, h0⟩
  · by_cases h1 : (1 : Ut8) ≠ a ∧ (1 : Ut8) ≠ b
    · exact ⟨1, h1⟩
    · refine ⟨2, ?_⟩
      grind

/-- With the first byte twice, and more bytes, another byte is taken for the first one. -/
theorem matchRun_false_hit (hm : kw.binBinmask = []) (hi : kw.icase = false) {a b : Ut8} {rest : List Ut8}
    (hkw : kw.binKeyword = a :: a :: b :: rest) {c : Ut8} (hca : c ≠ a) (hcb : c ≠ b) :
    matchRun (kwNext kw) kw.binKeyword.length 0 0 ([a, a, c] ++ kw.binKeyword.drop 1) = [2] := by
  have hown : ∀ k c, kw.binKeyword[k]? = some c → kwNext kw k c = k + 1 := fun k c h => kwNext_own hm hi h
  have hstay : kwNext kw 2 c = 1 := by
    have hback : retreat kw 2 = 1 := by
      simp [retreat, isTail, hkw]
    rw [kwNext_plain hm hi, hback, hkw]
    simp [hca.symm, hcb.symm]
  have hlen : kw.binKeyword.length = rest.length + 3 := by
    rw [hkw]
    rfl
  have htwo := matchRun_along (n := 0) hown (show [a, a] <+: kw.binKeyword.drop 0 by simp [hkw])
    (show 0 + [a, a].length < kw.binKeyword.length by rw [hlen]; simp) (c :: kw.binKeyword.drop 1)
  have hfull := matchRun_complete hown (show 1 < kw.binKeyword.length by omega) 3 []
  rw [show [a, a, c] ++ kw.binKeyword.drop 1 = [a, a] ++ (c :: kw.binKeyword.drop 1) from rfl, htwo]
  simp only [List.length_cons, List.length_nil, Nat.zero_add] at hfull ⊢
  rw [matchRun, hstay, if_neg (by omega)]
  rw [List.append_nil, matchRun] at hfull
  rw [hfull, show 3 + (kw.binKeyword.length - 1) - kw.binKeyword.length = 2 by omega]

theorem searchable_of_right (h : s.ForKeyword kw) (hright : KeywordRight s kw) : Searchable kw.binKeyword := by
  by_contra hno
  have hlong : 3 ≤ kw.binKeyword.length := by
    by_contra hshort
    exact hno (.inl (by omega))
  by_cases hfirst : kw.binKeyword[0]? = kw.binKeyword[1]?
  · match hkw : kw.binKeyword with
    | [] => simp [hkw] at hlong
    | [_] => simp [hkw] at hlong
    | [_, _] => simp [hkw] at hlong
    | a :: a' :: b :: rest =>
      have haa : a' = a := by
        rw [hkw] at hfirst
        simpa using hfirst.symm
      rw [haa] at hkw
      obtain ⟨c, hca, hcb⟩ := exists_other a b
      have hrun := matchRun_of_right h hright ([a, a, c] ++ kw.binKeyword.drop 1)
      rw [matchRun_false_hit h.mask h.icase hkw hca hcb] at hrun
      have hmem : BitVec.ofNat 64 2 ∈ (leftmost kw.binKeyword 0 0 ([a, a, c] ++ kw.binKeyword.drop 1)).map
          (BitVec.ofNat 64) := by
        rw [← hrun]
        simp
      obtain ⟨q, hq, heq⟩ := List.mem_map.mp hmem
      have hocc := (mem_leftmost _ hq).2
      have hlen := hocc.length_le
      rw [Nat.sub_zero, List.length_drop, hkw] at hlen
      simp at hlen
      have hq2 : q = 2 := by
        have hnat := congrArg BitVec.toNat heq
        simp only [BitVec.toNat_ofNat] at hnat
        omega
      rw [hq2, hkw] at hocc
      simp at hocc
      exact hca hocc.symm
  · have hborders : ¬BordersAgree kw.binKeyword := fun hb => hno (.inr ⟨hfirst, hb⟩)
    obtain ⟨buf, hrun, hfound⟩ := matchRun_misses (fun k c hc => kwNext_own h.mask h.icase hc) (kwNext_succ_le kw)
      (fun k hk c hc => by
        rw [kwNext_plain h.mask h.icase, if_neg hc, retreat_zero (.inr hfirst) hk]
        split_ifs <;> omega) hborders
    have heq := matchRun_of_right h hright buf
    rw [hrun, List.map_nil, eq_comm, List.map_eq_nil_iff] at heq
    exact hfound heq

/-- A keyword is found right if and only if it has one or two bytes, or it begins with two different
ones and where a border of a prefix goes on, it goes on as the prefix does. -/
theorem search_keyword_iff (s : RSearch) (kw : RSearchKeyword) (h : s.ForKeyword kw) :
    KeywordRight s kw ↔ Searchable kw.binKeyword :=
  ⟨searchable_of_right h, keywordRight_of_searchable h⟩

/-- A new keyword, searched for alone with a callback that takes every hit. -/
def keywordSearch (kw : RSearchKeyword) : RSearch :=
  { rSearchNew with callback := some (fun _ => true), contiguous := true, kws := [kw] }

theorem search_keyword_iff_four :
    KeywordRight (keywordSearch (.plain [97, 98, 99, 100])) (.plain [97, 98, 99, 100]) :=
  (search_keyword_iff _ _
    ⟨⟨rfl, rfl⟩, ⟨_, rfl, fun _ => rfl⟩, rfl, rfl, rfl, rfl, rfl, rfl, List.cons_ne_nil _ _⟩).mpr (by decide)

/-- The keyword `aab` in `aaxab`: a hit at the `x`. -/
theorem search_keyword_false_hit : ¬KeywordRight (keywordSearch (.plain [97, 97, 98])) (.plain [97, 97, 98]) := by
  intro hright
  obtain ⟨hits, ⟨t, ⟨bound, ht⟩, hout⟩, hhits, -⟩ := hright 1000 [97, 97, 120, 97, 98]
  have hgood := ht (bound + 6) (by omega)
  cases hgood
  rw [hhits] at hout
  revert hout
  decide

end Condition

end Radare
