import Radare.Search.SearchTurn

namespace Radare

open Framework

/-- The buffer in consecutive pieces, each at its address. -/
def searchChunks (fuel : Nat) (s : RSearch) (from_ : Ut64) : List (List Ut8) → Option RSearch
  | [] => some s
  | buf :: rest => do
    let r ← rSearchMybinparseUpdate fuel s from_ buf
    searchChunks fuel r.1 (from_ + BitVec.ofNat 64 buf.length) rest

/-- The condition on the keywords under overlap: all are one byte long but perhaps the last, which
is two at most, and no byte that ends it is one of the others. -/
def OverlapSafe (kws : List RSearchKeyword) : Prop :=
  (∀ kw ∈ kws.dropLast, kw.binKeyword.length = 1) ∧ ∀ last ∈ kws.getLast?, last.binKeyword.length ≤ 2 ∧
    ∀ kw ∈ kws.dropLast, ∀ c, ¬(matches_ last 1 c = some true ∧ matches_ kw 0 c = some true)

/-- Keyword and reports after one more byte, which is read again after a hit of two bytes. -/
def searchStep (s : RSearch) (kw : RSearchKeyword) (x : Ut8 × Ut64) : RSearchKeyword × List Ut64 :=
  let r := kwFeed s kw x
  if Rewinds s kw x.1 then
    let t := kwFeed s r.1 x
    (t.1, r.2 ++ t.2)
  else r

/-- What is kept between two bytes. -/
structure Steady (s : RSearch) : Prop where
  exact_ : s.Exact
  accepts : s.Accepts
  ready : ∀ kw ∈ s.kws, kw.Ready
  safe : s.overlap = true → OverlapSafe s.kws

/-- The search after one round on a byte. -/
def RSearch.taken (s : RSearch) (x : Ut8 × Ut64) : RSearch :=
  (s.logged (stepAll (kwFeed s) 0 s.kws x).2).setKws (stepAll (kwFeed s) 0 s.kws x).1

/-- The search after one more byte. -/
def RSearch.stepped (s : RSearch) (x : Ut8 × Ut64) : RSearch :=
  (s.logged (stepAll (searchStep s) 0 s.kws x).2).setKws (stepAll (searchStep s) 0 s.kws x).1

section Compare

variable {kw : RSearchKeyword} {c : Ut8}

theorem tolower_tolower (c : Ut8) : tolower (tolower c) = tolower c := by
  revert c
  decide

theorem matches_of_again {k : Nat} (h : matchesAgain kw k c = some true) : matches_ kw k c = some true := by
  unfold matchesAgain at h
  unfold matches_
  split_ifs at h ⊢ with hm
  · exact h
  · rw [Option.map_eq_some_iff] at h ⊢
    obtain ⟨ch, hch, he⟩ := h
    refine ⟨ch, hch, ?_⟩
    rw [beq_iff_eq] at he ⊢
    rw [he]
    unfold RSearchKeyword.lower
    split_ifs
    · exact tolower_tolower c
    · rfl

theorem kwNext_zero_le (kw : RSearchKeyword) (c : Ut8) : kwNext kw 0 c ≤ 1 := by
  have hback := retreat_le kw 0
  unfold kwNext
  split_ifs
  · omega
  · omega
  · omega

theorem kwNext_zero_of_not (h : matches_ kw 0 c ≠ some true) : kwNext kw 0 c = 0 := by
  have hback := retreat_le kw 0
  have hzero : retreat kw 0 = 0 := by omega
  unfold kwNext
  rw [if_neg h, hzero, if_neg (fun ha => h (matches_of_again ha))]

/-- The second of two bytes is found by the first comparison. -/
theorem matches_of_kwNext_two (h : kwNext kw 1 c = 2) : matches_ kw 1 c = some true := by
  have hback := retreat_le kw 1
  unfold kwNext at h
  split_ifs at h with hm
  · exact hm
  · omega
  · omega

/-- A byte that a keyword of one byte is not leaves it as it is. -/
theorem kwFeed_idle {s : RSearch} (hone : kw.binKeyword.length = 1) (hk : kw.Ready) {x : Ut8 × Ut64}
    (h : matches_ kw 0 x.1 ≠ some true) : kwFeed s kw x = (kw, []) := by
  have hidx : kw.idx 0 = 0 := by
    have := hk.idx
    omega
  have hself : Function.update kw.idx 0 0 = kw.idx := by
    have h0 := Function.update_eq_self 0 kw.idx
    rwa [hidx] at h0
  rw [kwFeed, hidx, kwNext_zero_of_not h, hone, if_neg (by omega), hself]

/-- The byte is read again when a hit of two bytes is complete. -/
theorem Rewinds.two {s : RSearch} (hk : kw.Ready) (hlen : kw.binKeyword.length ≤ 2) (h : Rewinds s kw c) :
    kw.binKeyword.length = 2 ∧ kw.idx 0 = 1 ∧ matches_ kw 1 c = some true := by
  obtain ⟨-, hlong, hhit⟩ := h
  have hidx := hk.idx
  have htwo : kw.binKeyword.length = 2 := by omega
  have hone : kw.idx 0 = 1 := by
    by_contra hne
    have hzero : kw.idx 0 = 0 := by omega
    rw [hzero] at hhit
    have hle := kwNext_zero_le kw c
    omega
  rw [hone, htwo] at hhit
  exact ⟨htwo, hone, matches_of_kwNext_two hhit⟩

theorem not_rewinds_of_one {s : RSearch} (h : kw.binKeyword.length = 1) : ¬Rewinds s kw c := by
  intro hr
  have hlong := hr.2.1
  omega

/-- After a hit the same byte ends no second one. -/
theorem not_rewinds_again {s : RSearch} {x : Ut8 × Ut64} (h : Rewinds s kw x.1) :
    ¬Rewinds s (kwFeed s kw x).1 x.1 := by
  intro hr
  have hidx : (kwFeed s kw x).1.idx 0 = 0 := by
    rw [kwFeed, if_pos h.2.2]
    exact Function.update_self 0 0 kw.idx
  have hle := kwNext_zero_le (kwFeed s kw x).1 x.1
  have hlong := hr.2.1
  have hhit := hr.2.2
  rw [hidx] at hhit
  omega

end Compare

section Steady

variable {s : RSearch}

theorem searchStep_ready {kw : RSearchKeyword} (hk : kw.Ready) (x : Ut8 × Ut64) : (searchStep s kw x).1.Ready := by
  unfold searchStep
  split_ifs
  · exact kwFeed_ready s (kwFeed_ready s hk x) x
  · exact kwFeed_ready s hk x

theorem searchStep_data (s : RSearch) (kw : RSearchKeyword) (x : Ut8 × Ut64) :
    (searchStep s kw x).1.binKeyword = kw.binKeyword ∧ (searchStep s kw x).1.binBinmask = kw.binBinmask ∧
      (searchStep s kw x).1.icase = kw.icase := by
  obtain ⟨hb, hm, hi⟩ := kwFeed_data s kw x
  unfold searchStep
  split_ifs
  · obtain ⟨hb', hm', hi'⟩ := kwFeed_data s (kwFeed s kw x).1 x
    exact ⟨hb'.trans hb, hm'.trans hm, hi'.trans hi⟩
  · exact ⟨hb, hm, hi⟩

theorem matches_congr {kw kw' : RSearchKeyword} (h : kw'.binKeyword = kw.binKeyword ∧ kw'.binBinmask = kw.binBinmask ∧
    kw'.icase = kw.icase) (k : Nat) (c : Ut8) : matches_ kw' k c = matches_ kw k c := by
  simp only [matches_, maskcmp, RSearchKeyword.lower, h.1, h.2.1, h.2.2]

/-- A list of keywords has a last one, or none. -/
theorem OverlapSafe.snoc_iff (kws : List RSearchKeyword) (last : RSearchKeyword) :
    OverlapSafe (kws ++ [last]) ↔ (∀ kw ∈ kws, kw.binKeyword.length = 1) ∧ last.binKeyword.length ≤ 2 ∧
      ∀ kw ∈ kws, ∀ c, ¬(matches_ last 1 c = some true ∧ matches_ kw 0 c = some true) := by
  simp [OverlapSafe]

theorem OverlapSafe.step {kws : List RSearchKeyword} (h : OverlapSafe kws) (n : Nat) (x : Ut8 × Ut64) :
    OverlapSafe (stepAll (searchStep s) n kws x).1 := by
  rcases List.eq_nil_or_concat kws with rfl | ⟨init, last, rfl⟩
  · exact h
  · rw [List.concat_eq_append, OverlapSafe.snoc_iff] at h
    obtain ⟨hone, hlast, hapart⟩ := h
    have hdata := searchStep_data s last x
    rw [List.concat_eq_append, stepAll_append]
    show OverlapSafe (_ ++ [(searchStep s last x).1])
    rw [OverlapSafe.snoc_iff, hdata.1]
    refine ⟨fun kw hkw => ?_, hlast, fun kw hkw c => ?_⟩
    · obtain ⟨k, hk, rfl⟩ := mem_stepAll _ hkw
      rw [(searchStep_data s k x).1]
      exact hone k hk
    · obtain ⟨k, hk, rfl⟩ := mem_stepAll _ hkw
      rw [matches_congr hdata, matches_congr (searchStep_data s k x)]
      exact hapart k hk c

theorem Steady.step (h : Steady s) (x : Ut8 × Ut64) : Steady (s.stepped x) := by
  refine ⟨⟨h.exact_.distance, h.exact_.inverse⟩, h.accepts, fun kw hkw => ?_, fun ho => (h.safe ho).step 0 x⟩
  obtain ⟨k, hk, rfl⟩ := mem_stepAll _ hkw
  exact searchStep_ready (h.ready k hk) x

end Steady

section Bytes

theorem RSearch.Exact.taken {s : RSearch} (h : s.Exact) (x : Ut8 × Ut64) : (s.taken x).Exact :=
  ⟨h.distance, h.inverse⟩

theorem RSearch.Accepts.taken {s : RSearch} (h : s.Accepts) (x : Ut8 × Ut64) : (s.taken x).Accepts := h

theorem RSearch.taken_setKws_logged (s : RSearch) (hits : List (Nat × Ut64)) (kws : List RSearchKeyword)
    (x : Ut8 × Ut64) : ((s.logged hits).setKws kws).taken x =
      (s.logged (hits ++ (stepAll (kwFeed s) 0 kws x).2)).setKws (stepAll (kwFeed s) 0 kws x).1 := by
  rw [← RSearch.logged_logged]
  rfl

variable {s : RSearch} {from_ : Ut64} {buf : List Ut8}

theorem loadByte_nat {i : Nat} (hi : i < buf.length) : loadByte buf i = some buf[i] := by
  rw [loadByte, if_pos (by omega), Int.toNat_natCast, List.getElem?_eq_getElem hi]

/-- A round that does not return. -/
theorem updateLoop_round (fuel : Nat) {i : Int} (hi : i < buf.length) {r : Round}
    (hr : kwsLoop from_ buf 0 s.kws s i = some r) (hret : r.ret = none) :
    updateLoop from_ buf (fuel + 1) s i = updateLoop from_ buf fuel (r.s.setKws r.kws) (r.i + 1) := by
  rw [updateLoop, if_pos hi, hr]
  simp only [Option.bind_eq_bind, Option.bind_some, hret]
  rfl

/-- The round in which the last keyword, of two bytes, is found. -/
theorem kwsLoop_last (hs : s.Exact) (ha : s.Accepts) (from_ : Ut64) {init : List RSearchKeyword} {last : RSearchKeyword}
    (hready : ∀ kw ∈ init ++ [last], kw.Ready) {i : Nat} (hi : i < buf.length)
    (hinit : ∀ kw ∈ init, ¬Rewinds s kw buf[i]) (hlast : Rewinds s last buf[i]) (htwo : last.binKeyword.length = 2) :
    kwsLoop from_ buf 0 (init ++ [last]) s i = some
      ⟨s.logged (stepAll (kwFeed s) 0 (init ++ [last]) (buf[i], from_ + BitVec.ofInt 64 i)).2,
        (stepAll (kwFeed s) 0 (init ++ [last]) (buf[i], from_ + BitVec.ofInt 64 i)).1, i - 1, none⟩ := by
  have hc := loadByte_nat hi
  have hfirst := kwsLoop_steady hs ha init (fun kw hkw => hready kw (List.mem_append_left _ hkw)) 0 from_ buf i hc
    hinit
  have hturn := distanceLoop_accepts
    (hs.logged (stepAll (kwFeed s) 0 init (buf[i], from_ + BitVec.ofInt 64 i)).2) (accepts_logged ha _)
    (hready last (List.mem_append_right _ (List.mem_singleton_self _))) init.length from_ buf i hc
  have hrew : Rewinds (s.logged (stepAll (kwFeed s) 0 init (buf[i], from_ + BitVec.ofInt 64 i)).2) last buf[i] := hlast
  rw [if_pos hrew, kwFeed_logged, RSearch.logged_logged, htwo] at hturn
  have hinv : ¬(s.inverse = true ∧ 0 < s.nhits) := by
    rw [hs.inverse]
    simp
  rw [kwsLoop_append init [last] 0 from_ buf s i hfirst rfl, Nat.zero_add, kwsLoop,
    if_neg (show ¬((s.logged _).inverse = true ∧ 0 < (s.logged _).nhits) from hinv), hturn, stepAll_append]
  simp only [Option.bind_eq_bind, Option.bind_some, Option.isSome_none, Bool.false_eq_true, if_false, kwsLoop,
    Option.map_some, stepAll, List.append_nil, Nat.zero_add]
  rfl

/-- A byte after which no keyword moves the index. -/
theorem updateLoop_plain (hs : s.Exact) (ha : s.Accepts) (hready : ∀ kw ∈ s.kws, kw.Ready) (from_ : Ut64) {i : Nat}
    (hi : i < buf.length) (hr : ∀ kw ∈ s.kws, ¬Rewinds s kw buf[i]) (fuel : Nat) :
    updateLoop from_ buf (fuel + 1) s i =
      updateLoop from_ buf fuel (s.taken (buf[i], from_ + BitVec.ofInt 64 i)) ((i + 1 : Nat) : Int) := by
  have hlt : (i : Int) < buf.length := by omega
  have hround := kwsLoop_steady hs ha s.kws hready 0 from_ buf i (loadByte_nat hi) hr
  rw [updateLoop_round fuel hlt hround rfl]
  rfl

/-- After a hit of two bytes of the last keyword, all of them read the byte again. -/
theorem updateLoop_twice (hs : s.Exact) (ha : s.Accepts) (hready : ∀ kw ∈ s.kws, kw.Ready) (from_ : Ut64) {i : Nat}
    (hi : i < buf.length) {init : List RSearchKeyword} {last : RSearchKeyword} (hkws : s.kws = init ++ [last])
    (hone : ∀ kw ∈ init, kw.binKeyword.length = 1) (htwo : last.binKeyword.length = 2)
    (hlast : Rewinds s last buf[i]) (fuel : Nat) :
    updateLoop from_ buf (fuel + 2) s i =
      updateLoop from_ buf fuel
        ((s.taken (buf[i], from_ + BitVec.ofInt 64 i)).taken (buf[i], from_ + BitVec.ofInt 64 i))
        ((i + 1 : Nat) : Int) := by
  have hlt : (i : Int) < buf.length := by omega
  have hback : (i : Int) - 1 + 1 = i := by omega
  have hinit : ∀ kw ∈ init, ¬Rewinds s kw buf[i] := fun kw hkw => not_rewinds_of_one (hone kw hkw)
  have hfirst := kwsLoop_last hs ha from_ (hkws ▸ hready) hi hinit hlast htwo
  rw [← hkws] at hfirst
  obtain ⟨x, hx⟩ : ∃ x, x = (buf[i], from_ + BitVec.ofInt 64 i) := ⟨_, rfl⟩
  have hx1 : x.1 = buf[i] := by rw [hx]
  rw [← hx] at hfirst ⊢
  have hnone : ∀ kw ∈ (s.taken x).kws, ¬Rewinds (s.taken x) kw buf[i] := by
    intro kw hkw
    obtain ⟨k, hk, rfl⟩ := mem_stepAll _ hkw
    rw [← hx1]
    rw [hkws] at hk
    rcases List.mem_append.mp hk with hk | hk
    · exact not_rewinds_of_one (((kwFeed_data s k x).1 ▸ hone k hk))
    · rw [List.mem_singleton.mp hk]
      exact not_rewinds_again (hx1 ▸ hlast)
  have hready' : ∀ kw ∈ (s.taken x).kws, kw.Ready := by
    intro kw hkw
    obtain ⟨k, hk, rfl⟩ := mem_stepAll _ hkw
    exact kwFeed_ready s (hready k hk) x
  rw [show fuel + 2 = fuel + 1 + 1 from rfl, updateLoop_round (fuel + 1) hlt hfirst rfl, hback, hx]
  exact updateLoop_plain (hs.taken _) (ha.taken _) (hx ▸ hready') from_ hi (hx ▸ hnone) fuel

/-- One byte takes one round, or two. -/
theorem updateLoop_byte (h : Steady s) (from_ : Ut64) {i : Nat} (hi : i < buf.length) :
    ∃ u, u ≤ 2 ∧ ∀ fuel, updateLoop from_ buf (fuel + u) s i =
      updateLoop from_ buf fuel (s.stepped (buf[i], from_ + BitVec.ofInt 64 i)) ((i + 1 : Nat) : Int) := by
  obtain ⟨x, hx⟩ : ∃ x, x = (buf[i], from_ + BitVec.ofInt 64 i) := ⟨_, rfl⟩
  have hx1 : x.1 = buf[i] := by rw [hx]
  rw [← hx]
  by_cases hr : ∀ kw ∈ s.kws, ¬Rewinds s kw buf[i]
  · have hsame : s.stepped x = s.taken x := by
      have hsteps : stepAll (searchStep s) 0 s.kws x = stepAll (kwFeed s) 0 s.kws x := by
        apply stepAll_congr
        intro kw hkw
        rw [searchStep, if_neg (hx1 ▸ hr kw hkw)]
      rw [RSearch.stepped, hsteps]
      rfl
    refine ⟨1, by omega, fun fuel => ?_⟩
    rw [hsame, hx]
    exact updateLoop_plain h.exact_ h.accepts h.ready from_ hi hr fuel
  · -- only the last keyword can move the index
    rcases List.eq_nil_or_concat s.kws with hnil | ⟨init, last, hkws⟩
    · rw [hnil] at hr
      exact absurd nofun hr
    · rw [List.concat_eq_append] at hkws
      have hready := h.ready
      rw [hkws] at hr hready
      have hov : s.overlap = true := by
        by_contra hno
        exact hr (fun kw _ hrew => hno hrew.1)
      have hsafe := h.safe hov
      rw [hkws, OverlapSafe.snoc_iff] at hsafe
      obtain ⟨hone, hlen, hapart⟩ := hsafe
      have hlast : Rewinds s last buf[i] := by
        by_contra hno
        apply hr
        intro kw hkw
        rcases List.mem_append.mp hkw with hkw | hkw
        · exact not_rewinds_of_one (hone kw hkw)
        · rw [List.mem_singleton.mp hkw]
          exact hno
      obtain ⟨htwo, -, hmatch⟩ := hlast.two (hready last (List.mem_append_right _ (List.mem_singleton_self _))) hlen
      -- the byte ends no other keyword, so that reading it again changes the last one alone
      have hidle : ∀ kw ∈ init, kwFeed s kw x = (kw, []) := by
        intro kw hkw
        apply kwFeed_idle (hone kw hkw) (hready kw (List.mem_append_left _ hkw))
        intro hm
        exact hapart kw hkw _ ⟨hmatch, hx1 ▸ hm⟩
      have hidle' : ∀ kw ∈ init, searchStep s kw x = (kw, []) := by
        intro kw hkw
        rw [searchStep, if_neg (not_rewinds_of_one (hone kw hkw))]
        exact hidle kw hkw
      have htaken : s.taken x = (s.logged ((kwFeed s last x).2.map (fun a => (init.length, a)))).setKws
          (init ++ [(kwFeed s last x).1]) := by
        rw [RSearch.taken, hkws, stepAll_snoc_idle _ _ hidle]
      have hagain : (s.taken x).taken x = s.stepped x := by
        rw [htaken, RSearch.taken_setKws_logged, stepAll_snoc_idle _ _ hidle, RSearch.stepped, hkws,
          stepAll_snoc_idle _ _ hidle', searchStep, if_pos (hx1.symm ▸ hlast), List.map_append]
      refine ⟨2, by omega, fun fuel => ?_⟩
      rw [← hagain, hx]
      exact updateLoop_twice h.exact_ h.accepts h.ready from_ hi hkws hone htwo hlast fuel

end Bytes

/-- The bytes with their addresses. -/
def addressed : Ut64 → List Ut8 → List (Ut8 × Ut64)
  | _, [] => []
  | from_, c :: buf => (c, from_) :: addressed (from_ + 1) buf

/-- The search after some bytes. -/
def RSearch.fed (s : RSearch) (xs : List (Ut8 × Ut64)) : RSearch :=
  (s.logged (feed (stepAll (searchStep s) 0) s.kws xs).2).setKws (feed (stepAll (searchStep s) 0) s.kws xs).1

section Run

theorem addressed_append (from_ : Ut64) (xs ys : List Ut8) :
    addressed from_ (xs ++ ys) = addressed from_ xs ++ addressed (from_ + BitVec.ofNat 64 xs.length) ys := by
  induction xs generalizing from_ with
  | nil => simp [addressed]
  | cons x xs ih =>
    have hlen : from_ + 1 + BitVec.ofNat 64 xs.length = from_ + BitVec.ofNat 64 (x :: xs).length := by
      rw [List.length_cons, Nat.add_comm xs.length 1, BitVec.ofNat_add, BitVec.add_assoc]
      rfl
    rw [List.cons_append, addressed, addressed, ih, hlen, List.cons_append]

theorem RSearch.fed_nil (s : RSearch) : s.fed [] = s := by
  rw [RSearch.fed, feed, RSearch.logged_nil]
  rfl

theorem RSearch.fed_append (s : RSearch) (xs ys : List (Ut8 × Ut64)) : s.fed (xs ++ ys) = (s.fed xs).fed ys := by
  rw [RSearch.fed, feed_append, ← RSearch.logged_logged]
  rfl

theorem RSearch.fed_cons (s : RSearch) (x : Ut8 × Ut64) (xs : List (Ut8 × Ut64)) :
    s.fed (x :: xs) = (s.stepped x).fed xs := by
  rw [RSearch.fed, feed, ← RSearch.logged_logged]
  rfl

theorem Steady.fed {s : RSearch} (h : Steady s) (xs : List (Ut8 × Ut64)) : Steady (s.fed xs) := by
  induction xs generalizing s with
  | nil =>
    rw [RSearch.fed_nil]
    exact h
  | cons x xs ih =>
    rw [RSearch.fed_cons]
    exact ih (h.step x)

/-- The loop over a buffer comes to its end and reads every byte once for each keyword. -/
theorem updateLoop_steady {s : RSearch} (h : Steady s) (from_ : Ut64) (buf : List Ut8) {i : Nat}
    (hi : i ≤ buf.length) :
    ∃ u, u ≤ 2 * (buf.length - i) + 1 ∧ ∀ fuel, updateLoop from_ buf (fuel + u) s i =
      some (s.fed (addressed (from_ + BitVec.ofNat 64 i) (buf.drop i)), 0) := by
  obtain ⟨d, hd⟩ : ∃ d, d = buf.length - i := ⟨_, rfl⟩
  induction d generalizing s i with
  | zero =>
    have hend : ¬((i : Int) < buf.length) := by omega
    refine ⟨1, by omega, fun fuel => ?_⟩
    rw [updateLoop, if_neg hend, List.drop_eq_nil_of_le (by omega), addressed, RSearch.fed_nil]
  | succ d ih =>
    have hlt : i < buf.length := by omega
    obtain ⟨u, hu, hbyte⟩ := updateLoop_byte h from_ hlt
    obtain ⟨v, hv, hrest⟩ := ih (h.step (buf[i], from_ + BitVec.ofInt 64 i)) (i := i + 1) hlt (by omega)
    refine ⟨v + u, by omega, fun fuel => ?_⟩
    have haddr : from_ + BitVec.ofNat 64 i + 1 = from_ + BitVec.ofNat 64 (i + 1) := by
      rw [BitVec.ofNat_add, BitVec.add_assoc]
      rfl
    rw [← Nat.add_assoc, hbyte, hrest, List.drop_eq_getElem_cons hlt, addressed, RSearch.fed_cons, haddr,
      BitVec.ofInt_natCast]

/-- The calls on the pieces come to an end, read nothing outside their piece, and leave `t`. -/
def SearchEnds (s : RSearch) (from_ : Ut64) (chunks : List (List Ut8)) (t : RSearch) : Prop :=
  ∃ bound, ∀ fuel, bound ≤ fuel → searchChunks fuel s from_ chunks = some t

theorem SearchEnds.unique {s t t' : RSearch} {from_ : Ut64} {chunks : List (List Ut8)}
    (h : SearchEnds s from_ chunks t) (h' : SearchEnds s from_ chunks t') : t = t' := by
  obtain ⟨b, hb⟩ := h
  obtain ⟨b', hb'⟩ := h'
  have heq := hb (max b b') (Nat.le_max_left b b')
  rw [hb' _ (Nat.le_max_right b b'), Option.some.injEq] at heq
  exact heq.symm

/-- The pieces of a buffer are read as the buffer. -/
theorem searchEnds_steady {s : RSearch} (h : Steady s) (from_ : Ut64) (chunks : List (List Ut8)) :
    SearchEnds s from_ chunks (s.fed (addressed from_ chunks.flatten)) := by
  induction chunks generalizing s from_ with
  | nil =>
    refine ⟨0, fun fuel _ => ?_⟩
    rw [searchChunks, List.flatten_nil, addressed, RSearch.fed_nil]
  | cons buf rest ih =>
    obtain ⟨u, -, hu⟩ := updateLoop_steady h from_ buf (Nat.zero_le _)
    obtain ⟨bound, hrest⟩ := ih (h.fed (addressed from_ buf)) (from_ + BitVec.ofNat 64 buf.length)
    refine ⟨bound + u, fun fuel hfuel => ?_⟩
    have hone := hu (fuel - u)
    have haddr : from_ + BitVec.ofNat 64 0 = from_ := BitVec.add_zero from_
    rw [Nat.sub_add_cancel (by omega), List.drop_zero, haddr] at hone
    rw [searchChunks, rSearchMybinparseUpdate]
    simp only [Nat.cast_zero] at hone
    rw [hone, Option.bind_eq_bind, Option.bind_some, hrest fuel (by omega), List.flatten_cons, addressed_append,
      RSearch.fed_append]

end Run

end Radare
