import Radare.Search.SearchChunks

namespace Radare

open Framework

/-- The buffer as one block, or in pieces that are not empty. -/
def Pieces (buf : List Ut8) (chunks : List (List Ut8)) : Prop :=
  chunks.flatten = buf ∧ (chunks = [buf] ∨ [] ∉ chunks)

/-- Every way to cut a buffer gives the same hits of each keyword, among the others and alone. -/
def ChunksRight (s : RSearch) : Prop :=
  ∀ (from_ : Ut64) (buf : List Ut8), ∃ hits : Nat → List Ut64, ∀ chunks, Pieces buf chunks →
    (∃ t, SearchEnds (rSearchBegin s) from_ chunks t ∧ ∀ n, outputs n t.log = outputs n s.log ++ hits n) ∧
    ∀ n kw, s.kws[n]? = some kw → ∃ t, SearchEnds (rSearchBegin (s.setKws [kw])) from_ chunks t ∧
      outputs 0 t.log = outputs 0 s.log ++ hits n

section Begin

variable {s : RSearch} {kw : RSearchKeyword}

theorem begin_data (kw : RSearchKeyword) : kw.begin_.binKeyword = kw.binKeyword ∧
    kw.begin_.binBinmask = kw.binBinmask ∧ kw.begin_.icase = kw.icase := ⟨rfl, rfl, rfl⟩

theorem begin_idx (kw : RSearchKeyword) : kw.begin_.idx 0 = 0 := Function.update_self 0 0 kw.idx

theorem begin_ready (h : kw.binKeyword ≠ []) : kw.begin_.Ready := by
  refine ⟨rfl, ?_⟩
  rw [begin_idx]
  exact List.length_pos_iff.mpr h

theorem OverlapSafe.begin_ {kws : List RSearchKeyword} (h : OverlapSafe kws) :
    OverlapSafe (kws.map RSearchKeyword.begin_) := by
  rcases List.eq_nil_or_concat kws with rfl | ⟨init, last, rfl⟩
  · exact h
  · rw [List.concat_eq_append, OverlapSafe.snoc_iff] at h
    obtain ⟨hone, hlast, hapart⟩ := h
    rw [List.concat_eq_append, List.map_append, List.map_singleton, OverlapSafe.snoc_iff]
    refine ⟨fun kw hkw => ?_, hlast, fun kw hkw c => ?_⟩
    · obtain ⟨k, hk, rfl⟩ := List.mem_map.mp hkw
      exact hone k hk
    · obtain ⟨k, hk, rfl⟩ := List.mem_map.mp hkw
      rw [matches_congr (begin_data last), matches_congr (begin_data k)]
      exact hapart k hk c

/-- Every keyword of a safe list is safe alone. -/
theorem OverlapSafe.alone {kws : List RSearchKeyword} (h : OverlapSafe kws) (hkw : kw ∈ kws) : OverlapSafe [kw] := by
  have hlen : kw.binKeyword.length ≤ 2 := by
    rcases List.eq_nil_or_concat kws with rfl | ⟨init, last, rfl⟩
    · cases hkw
    · rw [List.concat_eq_append] at h hkw
      obtain ⟨hone, hlast, -⟩ := (OverlapSafe.snoc_iff init last).mp h
      rcases List.mem_append.mp hkw with hkw | hkw
      · rw [hone kw hkw]
        omega
      · rw [List.mem_singleton.mp hkw]
        exact hlast
  exact (OverlapSafe.snoc_iff [] kw).mpr ⟨nofun, hlen, nofun⟩

theorem steady_begin (hs : s.Exact) (ha : s.Accepts) (hkw : ∀ kw ∈ s.kws, kw.binKeyword ≠ [])
    (hsafe : s.overlap = false ∨ OverlapSafe s.kws) : Steady (rSearchBegin s) := by
  refine ⟨⟨hs.distance, hs.inverse⟩, ha, fun kw hmem => ?_, fun ho => ?_⟩
  · obtain ⟨k, hk, rfl⟩ := List.mem_map.mp hmem
    exact begin_ready (hkw k hk)
  · have hno : s.overlap ≠ false := by
      rw [show s.overlap = true from ho]
      exact Bool.true_eq_false_eq_False
    exact (hsafe.resolve_left hno).begin_

/-- What a keyword reports does not depend on the other ones. -/
theorem outputs_fed (s : RSearch) (n : Nat) (xs : List (Ut8 × Ut64)) :
    outputs n (s.fed xs).log =
      outputs n s.log ++ (s.kws[n]?.map (fun kw => (feed (searchStep s) kw xs).2)).getD [] := by
  rw [← feed_stepAll]
  exact outputs_append n s.log _

theorem chunksRight_of_safe (hs : s.Exact) (ha : s.Accepts) (hkw : ∀ kw ∈ s.kws, kw.binKeyword ≠ [])
    (hsafe : s.overlap = false ∨ OverlapSafe s.kws) : ChunksRight s := by
  intro from_ buf
  refine ⟨fun n => ((rSearchBegin s).kws[n]?.map
    (fun kw => (feed (searchStep s) kw (addressed from_ buf)).2)).getD [], fun chunks hpieces => ⟨?_, ?_⟩⟩
  · refine ⟨_, searchEnds_steady (steady_begin hs ha hkw hsafe) from_ chunks, fun n => ?_⟩
    rw [hpieces.1]
    exact outputs_fed (rSearchBegin s) n _
  · intro n kw hget
    have hmem : kw ∈ s.kws := List.mem_of_getElem? hget
    have hsteady : Steady (rSearchBegin (s.setKws [kw])) := by
      refine steady_begin ⟨hs.distance, hs.inverse⟩ ha (fun k hk => ?_) (hsafe.imp id (fun h => h.alone hmem))
      rw [List.mem_singleton.mp hk]
      exact hkw kw hmem
    refine ⟨_, searchEnds_steady hsteady from_ chunks, ?_⟩
    have hbegin : (rSearchBegin s).kws[n]? = some kw.begin_ := by
      rw [rSearchBegin, List.getElem?_map, hget]
      rfl
    simp only [hpieces.1, hbegin]
    exact outputs_fed (rSearchBegin (s.setKws [kw])) 0 _

end Begin

section Rewound

variable {s : RSearch} {kw : RSearchKeyword}

/-- A keyword matches its own bytes. -/
theorem matches_self {k : Nat} {c : Ut8} (h : kw.binKeyword[k]? = some c) : matches_ kw k c = some true := by
  unfold matches_
  split_ifs with hm
  · have hmod := Nat.mod_lt k hm
    rw [maskcmp, h, List.getElem?_eq_getElem hmod]
    simp
  · rw [h]
    simp

/-- Behind its end a keyword matches nothing. -/
theorem matches_none {k : Nat} {c : Ut8} (h : kw.binKeyword[k]? = none) : matches_ kw k c ≠ some true := by
  unfold matches_
  split_ifs with hm
  · rw [maskcmp, h]
    simp
  · rw [h]
    simp

theorem kwNext_self {k : Nat} {c : Ut8} (h : kw.binKeyword[k]? = some c) : kwNext kw k c = k + 1 := by
  rw [kwNext, if_pos (matches_self h)]

/-- A byte in a piece of its own. -/
theorem update_byte (hs : s.Exact) (ha : s.Accepts) (hready : ∀ kw ∈ s.kws, kw.Ready) (from_ : Ut64) (c : Ut8)
    (hr : ∀ kw ∈ s.kws, ¬Rewinds s kw c) (fuel : Nat) :
    rSearchMybinparseUpdate (fuel + 2) s from_ [c] = some (s.taken (c, from_), 0) := by
  have hplain := updateLoop_plain hs ha hready from_ (show 0 < [c].length from Nat.one_pos) hr (fuel + 1)
  have haddr : from_ + BitVec.ofInt 64 ((0 : Nat) : Int) = from_ := BitVec.add_zero from_
  rw [haddr] at hplain
  rw [rSearchMybinparseUpdate, show fuel + 2 = fuel + 1 + 1 from rfl]
  refine hplain.trans ?_
  rw [updateLoop, if_neg (by simp)]
  rfl

theorem updateLoop_end (s : RSearch) (from_ : Ut64) (buf : List Ut8) (fuel : Nat) :
    updateLoop from_ buf (fuel + 1) s (buf.length : Nat) = some (s, 0) := by
  rw [updateLoop, if_neg (by omega)]

theorem searchEnds_block {s t : RSearch} {from_ : Ut64} {buf : List Ut8} (bound : Nat)
    (h : ∀ fuel, rSearchMybinparseUpdate (fuel + bound) s from_ buf = some (t, 0)) : SearchEnds s from_ [buf] t := by
  refine ⟨bound, fun fuel hfuel => ?_⟩
  have hone := h (fuel - bound)
  rw [Nat.sub_add_cancel hfuel] at hone
  rw [searchChunks, hone]
  rfl

/-- Outside the buffer nothing is read. -/
theorem kwsLoop_outside (hs : s.Exact) (hdist : kw.distance = 0) (rest : List RSearchKeyword) (n : Nat) (from_ : Ut64)
    (buf : List Ut8) {i : Int} (hi : i < 0) : kwsLoop from_ buf n (kw :: rest) s i = none := by
  have hinv : ¬(s.inverse = true ∧ 0 < s.nhits) := by
    rw [hs.inverse]
    simp
  have hbyte : loadByte buf i = none := if_neg (by omega)
  have hzero : 0 ≤ kw.distance := Nat.le_of_eq hdist.symm
  rw [kwsLoop, if_neg hinv, distanceLoop, if_pos hzero, hbyte]
  rfl

theorem updateLoop_outside {rest : List RSearchKeyword} (hs : s.Exact) (hkws : s.kws = kw :: rest)
    (hk : kw.distance = 0) (from_ : Ut64) (buf : List Ut8) {i : Int} (hi : i < 0) (fuel : Nat) :
    updateLoop from_ buf fuel s i = none := by
  cases fuel with
  | zero => rfl
  | succ fuel =>
    rw [updateLoop, if_pos (by omega), hkws, kwsLoop_outside hs hk rest 0 from_ buf hi]
    rfl

/-- A keyword of three bytes or more, alone, is rewound past the piece that its last byte is in. -/
theorem searchChunks_long {s : RSearch} {kw : RSearchKeyword} (hs : s.Exact) (ha : s.Accepts)
    (hov : s.overlap = true) (hkws : s.kws = [kw]) (hready : kw.Ready) (hlen : 3 ≤ kw.binKeyword.length) (from_ : Ut64)
    {rest : List Ut8} (hne : rest ≠ []) (hrest : kw.binKeyword.drop (kw.idx 0) = rest) (fuel : Nat) :
    searchChunks (fuel + 2) s from_ (rest.map (fun c => [c])) = none := by
  induction rest generalizing s kw from_ with
  | nil => exact absurd rfl hne
  | cons c rest ih =>
    have hlt := hready.idx
    have hget : kw.binKeyword[kw.idx 0]? = some c := by
      rw [← Nat.add_zero (kw.idx 0), ← List.getElem?_drop, hrest]
      rfl
    have hnext := kwNext_self hget
    have hall : ∀ k ∈ s.kws, k.Ready := by
      rw [hkws]
      intro k hk
      rw [List.mem_singleton.mp hk]
      exact hready
    have htail : kw.binKeyword.drop (kw.idx 0 + 1) = rest := by
      rw [← List.drop_drop, hrest]
      rfl
    have hcount := congrArg List.length hrest
    rw [List.length_drop, List.length_cons] at hcount
    rw [List.map_cons, searchChunks]
    cases rest with
    | nil =>
      -- the last byte: the index goes before the piece
      have hrew : Rewinds s kw c := by
        refine ⟨hov, by omega, ?_⟩
        rw [hnext]
        simp only [List.length_nil] at hcount
        omega
      have hturn := distanceLoop_accepts hs ha hready 0 from_ [c] 0 (show loadByte [c] 0 = some c from rfl)
      have hinv : ¬(s.inverse = true ∧ 0 < s.nhits) := by
        rw [hs.inverse]
        simp
      rw [if_pos hrew] at hturn
      have hround : kwsLoop from_ [c] 0 s.kws s 0 = some
          ⟨s.logged ((kwFeed s kw (c, from_ + BitVec.ofInt 64 0)).2.map (fun a => (0, a))),
            [(kwFeed s kw (c, from_ + BitVec.ofInt 64 0)).1], 0 - (kw.binKeyword.length - 1), none⟩ := by
        rw [hkws, kwsLoop, if_neg hinv, hturn]
        rfl
      obtain ⟨u, hu⟩ : ∃ u, u = (s.logged ((kwFeed s kw (c, from_ + BitVec.ofInt 64 0)).2.map (fun a => (0, a)))).setKws
          [(kwFeed s kw (c, from_ + BitVec.ofInt 64 0)).1] := ⟨_, rfl⟩
      have hloop : updateLoop from_ [c] (fuel + 2) s 0 =
          updateLoop from_ [c] (fuel + 1) u (0 - (kw.binKeyword.length - 1) + 1) := by
        rw [hu]
        exact updateLoop_round (fuel + 1) (by simp) hround rfl
      have hexact : u.Exact := by
        rw [hu]
        exact ⟨hs.distance, hs.inverse⟩
      have hukws : u.kws = [(kwFeed s kw (c, from_ + BitVec.ofInt 64 0)).1] := by
        rw [hu]
        rfl
      rw [rSearchMybinparseUpdate, hloop,
        updateLoop_outside hexact hukws (kwFeed_ready s hready _).distance from_ [c] (by omega)]
      rfl
    | cons d rest =>
      have hshort : kwNext kw (kw.idx 0) c ≠ kw.binKeyword.length := by
        rw [hnext]
        simp only [List.length_cons] at hcount
        omega
      have hnone : ∀ k ∈ s.kws, ¬Rewinds s k c := by
        rw [hkws]
        intro k hk hrew
        rw [List.mem_singleton.mp hk] at hrew
        exact hshort hrew.2.2
      have hkw : kwFeed s kw (c, from_) = ({ kw with idx := Function.update kw.idx 0 (kw.idx 0 + 1) }, []) := by
        rw [kwFeed, if_neg hshort, hnext]
      have hidx : (kwFeed s kw (c, from_)).1.idx 0 = kw.idx 0 + 1 := by
        rw [hkw]
        exact Function.update_self 0 _ kw.idx
      have hdata := kwFeed_data s kw (c, from_)
      rw [update_byte hs ha hall from_ c hnone fuel, Option.bind_eq_bind, Option.bind_some]
      have htaken : (s.taken (c, from_)).kws = [(kwFeed s kw (c, from_)).1] := by
        rw [RSearch.taken, hkws]
        rfl
      refine ih (hs.taken _) (ha.taken _) hov htaken (kwFeed_ready s hready _) ?_ _ (List.cons_ne_nil d rest) ?_
      · rw [hdata.1]
        exact hlen
      · rw [hdata.1, hidx]
        exact htail

/-- At its start a keyword of two bytes or more is not found by one byte. -/
theorem not_rewinds_begin (kw : RSearchKeyword) (c : Ut8) : ¬Rewinds s kw.begin_ c := by
  intro hr
  have hle := kwNext_zero_le kw.begin_ c
  have hlong := hr.2.1
  have hhit := hr.2.2
  rw [begin_idx] at hhit
  omega

theorem begin_not_rewinds (s : RSearch) (c : Ut8) : ∀ kw ∈ (rSearchBegin s).kws, ¬Rewinds (rSearchBegin s) kw c := by
  intro kw hkw
  obtain ⟨k, -, rfl⟩ := List.mem_map.mp hkw
  exact not_rewinds_begin k c

theorem begin_kws_ready (hkw : ∀ kw ∈ s.kws, kw.binKeyword ≠ []) : ∀ kw ∈ (rSearchBegin s).kws, kw.Ready := by
  intro kw hmem
  obtain ⟨k, hk, rfl⟩ := List.mem_map.mp hmem
  exact begin_ready (hkw k hk)

/-- After the first byte of a keyword its index is at the second one. -/
theorem kwFeed_begin_idx (s : RSearch) (h : 1 < kw.binKeyword.length) {c : Ut8} (hc : kw.binKeyword[0]? = some c)
    (addr : Ut64) : (kwFeed s kw.begin_ (c, addr)).1.idx 0 = 1 := by
  have hnext : kwNext kw.begin_ 0 c = 1 := kwNext_self hc
  have hshort : ¬kwNext kw.begin_ (kw.begin_.idx 0) c = kw.begin_.binKeyword.length := by
    rw [begin_idx, hnext]
    exact Nat.ne_of_lt h
  rw [kwFeed, if_neg hshort, begin_idx, hnext]
  exact Function.update_self 0 1 kw.begin_.idx

theorem taken_kws (s : RSearch) (x : Ut8 × Ut64) : (s.taken x).kws = s.kws.map (fun k => (kwFeed s k x).1) :=
  stepAll_fst (kwFeed s) 0 s.kws x

theorem taken_ready (h : ∀ k ∈ s.kws, k.Ready) (x : Ut8 × Ut64) : ∀ k ∈ (s.taken x).kws, k.Ready := by
  rw [taken_kws]
  intro k hk
  obtain ⟨q, hq, rfl⟩ := List.mem_map.mp hk
  exact kwFeed_ready s (h q hq) x

/-- The keyword after one that was rewound out of the buffer. -/
theorem kwsLoop_rewound (hs : s.Exact) (ha : s.Accepts) (hready : kw.Ready) {next : RSearchKeyword}
    (hnext : next.distance = 0) (post : List RSearchKeyword) (n : Nat) (from_ : Ut64) {buf : List Ut8} {i : Int}
    {c : Ut8} (hc : loadByte buf i = some c) (hrew : Rewinds s kw c) (hbefore : i - (kw.binKeyword.length - 1) < 0) :
    kwsLoop from_ buf n (kw :: next :: post) s i = none := by
  have hturn := distanceLoop_accepts hs ha hready n from_ buf i hc
  have hinv : ¬(s.inverse = true ∧ 0 < s.nhits) := by
    rw [hs.inverse]
    simp
  rw [if_pos hrew] at hturn
  rw [kwsLoop, if_neg hinv, hturn, Option.bind_eq_bind, Option.bind_some]
  rw [kwsLoop_outside (hs.logged _) hnext post (n + 1) from_ buf hbefore]
  rfl

/-- A keyword of two bytes that is not the last one sends the next one before the piece. -/
theorem searchChunks_middle (hs : s.Exact) (ha : s.Accepts) (hov : s.overlap = true)
    (hkw : ∀ kw ∈ s.kws, kw.binKeyword ≠ []) {pre post : List RSearchKeyword} {next : RSearchKeyword}
    (hkws : s.kws = pre ++ kw :: next :: post) (hpre : ∀ k ∈ pre, k.binKeyword.length = 1) {a b : Ut8}
    (hbytes : kw.binKeyword = [a, b]) (from_ : Ut64) (fuel : Nat) :
    searchChunks (fuel + 2) (rSearchBegin s) from_ [[a], [b]] = none := by
  have hex : (rSearchBegin s).Exact := ⟨hs.distance, hs.inverse⟩
  have hready := begin_kws_ready hkw
  have hfirst := update_byte hex ha hready from_ a (begin_not_rewinds s a) fuel
  obtain ⟨u, hu⟩ : ∃ u, u = (rSearchBegin s).taken (a, from_) := ⟨_, rfl⟩
  have huex : u.Exact := by
    rw [hu]
    exact hex.taken _
  have huacc : u.Accepts := by
    rw [hu]
    exact RSearch.Accepts.taken ha (a, from_)
  have huready : ∀ k ∈ u.kws, k.Ready := by
    rw [hu]
    exact taken_ready hready (a, from_)
  obtain ⟨f, hf⟩ : ∃ f, f = fun k : RSearchKeyword => (kwFeed s k.begin_ (a, from_)).1 := ⟨_, rfl⟩
  have hdata : ∀ k, (f k).binKeyword = k.binKeyword := by
    intro k
    rw [hf]
    exact (kwFeed_data s k.begin_ (a, from_)).1
  have hukws : u.kws = pre.map f ++ f kw :: f next :: post.map f := by
    have hmap : u.kws = s.kws.map f := by
      rw [hu, taken_kws, hf]
      exact List.map_map
    rw [hmap, hkws, List.map_append, List.map_cons, List.map_cons]
  rw [hukws] at huready
  have hone : ∀ k ∈ pre.map f, ¬Rewinds u k b := by
    intro k hk
    obtain ⟨q, hq, rfl⟩ := List.mem_map.mp hk
    apply not_rewinds_of_one
    rw [hdata, hpre q hq]
  have hpreround := kwsLoop_steady huex huacc (pre.map f) (fun k hk => huready k (List.mem_append_left _ hk)) 0
    (from_ + BitVec.ofNat 64 1) [b] 0 (show loadByte [b] 0 = some b from rfl) hone
  have hkwready := huready (f kw) (List.mem_append_right _ List.mem_cons_self)
  have hidx : (f kw).idx 0 = 1 := by
    rw [hf]
    exact kwFeed_begin_idx s (by rw [hbytes]; exact Nat.one_lt_two) (by rw [hbytes]; rfl) from_
  have htwo : (f kw).binKeyword = [a, b] := (hdata kw).trans hbytes
  have hrew : Rewinds u (f kw) b := by
    have hnext : kwNext (f kw) 1 b = 2 := kwNext_self (by rw [htwo]; rfl)
    refine ⟨?_, ?_, ?_⟩
    · rw [hu]
      exact hov
    · rw [htwo]
      exact Nat.one_lt_two
    · rw [hidx, hnext, htwo]
      rfl
  have hnextready := huready (f next) (List.mem_append_right _ (List.mem_cons_of_mem _ List.mem_cons_self))
  have hround : kwsLoop (from_ + BitVec.ofNat 64 1) [b] 0 u.kws u 0 = none := by
    rw [hukws, kwsLoop_append _ _ _ _ _ _ _ hpreround rfl]
    rw [kwsLoop_rewound (huex.logged _) (accepts_logged huacc _) hkwready hnextready.distance _ _ _
      (show loadByte [b] 0 = some b from rfl) hrew (by rw [htwo]; simp)]
    rfl
  rw [searchChunks, hfirst, Option.bind_eq_bind, Option.bind_some, ← hu, searchChunks, rSearchMybinparseUpdate,
    updateLoop, if_pos (by simp)]
  show (((kwsLoop (from_ + BitVec.ofNat 64 1) [b] 0 u.kws u 0).bind _).bind _) = none
  rw [hround]
  rfl

theorem kwFeed_taken (s : RSearch) (x : Ut8 × Ut64) : kwFeed (s.taken x) = kwFeed s := rfl

theorem kwFeed_begin (s : RSearch) : kwFeed (rSearchBegin s) = kwFeed s := rfl

theorem kwFeed_setKws (s : RSearch) (kws : List RSearchKeyword) : kwFeed (s.setKws kws) = kwFeed s := rfl

/-- What one round reports for the keyword at a place, and how it leaves it. -/
theorem outputs_taken {n : Nat} (h : s.kws[n]? = some kw) (x : Ut8 × Ut64) :
    outputs n (s.taken x).log = outputs n s.log ++ (kwFeed s kw x).2 ∧
      (s.taken x).kws[n]? = some (kwFeed s kw x).1 := by
  have hout := outputs_stepAll (kwFeed s) 0 n s.kws x
  rw [Nat.zero_add, h] at hout
  refine ⟨(outputs_append n s.log _).trans (congrArg _ hout), ?_⟩
  rw [taken_kws, List.getElem?_map, h]
  rfl

/-- A keyword of one byte is reported at the address 0, which every alignment divides. -/
theorem kwFeed_zero (s : RSearch) (hone : kw.binKeyword.length = 1) (hk : kw.Ready) {c : Ut8}
    (h : matches_ kw 0 c = some true) : (kwFeed s kw (c, 0)).2 = [0] := by
  have hidx : kw.idx 0 = 0 := by
    have hlt := hk.idx
    omega
  have hnext : kwNext kw (kw.idx 0) c = kw.binKeyword.length := by
    rw [hidx, hone, kwNext, if_pos h]
  have haddr : (0 : Ut64) - BitVec.ofNat 64 1 + 1 = 0 := by decide
  have haligned : ¬(s.align ≠ 0 ∧ (0 : Ut64) % BitVec.ofInt 64 s.align ≠ 0) := fun h => h.2 BitVec.zero_umod
  have hlast : ¬(kw.last ≠ 0 ∧ (0 : Ut64) = kw.last) := by
    intro hl
    exact hl.1 hl.2.symm
  rw [kwFeed, if_pos hnext, hone, haddr, takeHit, if_neg haligned, if_neg hlast]
  split_ifs <;> rfl

/-- The second byte, which ends the last keyword, is read twice for all. -/
theorem searchEnds_again (hs : s.Exact) (ha : s.Accepts) (hov : s.overlap = true)
    (hkw : ∀ kw ∈ s.kws, kw.binKeyword ≠ []) {init : List RSearchKeyword} {last : RSearchKeyword}
    (hkws : s.kws = init ++ [last]) (hone : ∀ k ∈ init, k.binKeyword.length = 1)
    (htwo : last.binKeyword.length = 2) {a c : Ut8} (ha0 : last.binKeyword[0]? = some a)
    (hlast : matches_ last 1 c = some true) :
    SearchEnds (rSearchBegin s) (-1) [[a, c]]
      ((((rSearchBegin s).taken (a, -1)).taken (c, 0)).taken (c, 0)) := by
  have hex : (rSearchBegin s).Exact := ⟨hs.distance, hs.inverse⟩
  have hready := begin_kws_ready hkw
  obtain ⟨u, hu⟩ : ∃ u, u = (rSearchBegin s).taken (a, -1) := ⟨_, rfl⟩
  have huex : u.Exact := by
    rw [hu]
    exact hex.taken _
  have huacc : u.Accepts := by
    rw [hu]
    exact RSearch.Accepts.taken ha (a, -1)
  have huready : ∀ k ∈ u.kws, k.Ready := by
    rw [hu]
    exact taken_ready hready (a, -1)
  obtain ⟨f, hf⟩ : ∃ f, f = fun k : RSearchKeyword => (kwFeed s k.begin_ (a, -1)).1 := ⟨_, rfl⟩
  have hdata : ∀ k, (f k).binKeyword = k.binKeyword := by
    intro k
    rw [hf]
    exact (kwFeed_data s k.begin_ (a, -1)).1
  have hukws : u.kws = init.map f ++ [f last] := by
    have hmap : u.kws = s.kws.map f := by
      rw [hu, taken_kws, hf]
      exact List.map_map
    rw [hmap, hkws, List.map_append, List.map_singleton]
  have hones : ∀ k ∈ init.map f, k.binKeyword.length = 1 := by
    intro k hk
    obtain ⟨q, hq, rfl⟩ := List.mem_map.mp hk
    rw [hdata, hone q hq]
  have hrew : Rewinds u (f last) c := by
    have hidx : (f last).idx 0 = 1 := by
      rw [hf]
      exact kwFeed_begin_idx s (by omega) ha0 (-1)
    have hmatch : matches_ (f last) 1 c = some true := by
      rw [hf]
      exact (matches_congr (kwFeed_data s last.begin_ (a, -1)) 1 c).trans hlast
    refine ⟨?_, ?_, ?_⟩
    · rw [hu]
      exact hov
    · rw [hdata]
      omega
    · rw [hidx, kwNext, if_pos hmatch, hdata, htwo]
  rw [← hu]
  apply searchEnds_block 4
  intro fuel
  have hfirst := updateLoop_plain hex ha hready (-1) (show 0 < [a, c].length by simp) (begin_not_rewinds s a) (fuel + 3)
  have hsecond := updateLoop_twice huex huacc huready (-1) (show 1 < [a, c].length by simp) hukws hones
    ((congrArg List.length (hdata last)).trans htwo) hrew (fuel + 1)
  rw [rSearchMybinparseUpdate]
  refine hfirst.trans ((congrArg (fun q => updateLoop (-1) [a, c] (fuel + 3) q 1) hu.symm).trans ?_)
  refine hsecond.trans (updateLoop_end _ _ _ _)

/-- A keyword of one byte, alone, is never rewound. -/
theorem searchEnds_alone (hs : s.Exact) (ha : s.Accepts) (hkws : s.kws = [kw]) (hone : kw.binKeyword.length = 1)
    (a c : Ut8) :
    SearchEnds (rSearchBegin s) (-1) [[a, c]] (((rSearchBegin s).taken (a, -1)).taken (c, 0)) := by
  have hex : (rSearchBegin s).Exact := ⟨hs.distance, hs.inverse⟩
  have hready : ∀ k ∈ (rSearchBegin s).kws, k.Ready := by
    apply begin_kws_ready
    rw [hkws]
    intro k hk
    rw [List.mem_singleton.mp hk]
    exact List.ne_nil_of_length_eq_add_one hone
  obtain ⟨u, hu⟩ : ∃ u, u = (rSearchBegin s).taken (a, -1) := ⟨_, rfl⟩
  have huex : u.Exact := by
    rw [hu]
    exact hex.taken _
  have huacc : u.Accepts := by
    rw [hu]
    exact RSearch.Accepts.taken ha (a, -1)
  have huready : ∀ k ∈ u.kws, k.Ready := by
    rw [hu]
    exact taken_ready hready (a, -1)
  have hnone : ∀ k ∈ u.kws, ¬Rewinds u k c := by
    rw [hu, taken_kws, rSearchBegin, hkws]
    intro k hk
    rw [List.mem_singleton.mp hk]
    exact not_rewinds_of_one ((kwFeed_data _ kw.begin_ _).1 ▸ hone)
  rw [← hu]
  apply searchEnds_block 3
  intro fuel
  have hfirst := updateLoop_plain hex ha hready (-1) (show 0 < [a, c].length by simp) (begin_not_rewinds s a) (fuel + 2)
  have hsecond := updateLoop_plain huex huacc huready (-1) (show 1 < [a, c].length by simp) hnone (fuel + 1)
  rw [rSearchMybinparseUpdate]
  refine hfirst.trans ((congrArg (fun q => updateLoop (-1) [a, c] (fuel + 2) q 1) hu.symm).trans ?_)
  exact hsecond.trans (updateLoop_end _ _ _ _)

/-- A byte that ends the last keyword and is one of the others is reported twice for that one. -/
theorem not_chunksRight_of_shared (hs : s.Exact) (ha : s.Accepts) (hov : s.overlap = true)
    (hkw : ∀ kw ∈ s.kws, kw.binKeyword ≠ []) {init : List RSearchKeyword} {last : RSearchKeyword}
    (hkws : s.kws = init ++ [last]) (hone : ∀ k ∈ init, k.binKeyword.length = 1)
    (htwo : last.binKeyword.length = 2) (hmem : kw ∈ init) {c : Ut8} (hlast : matches_ last 1 c = some true)
    (hfound : matches_ kw 0 c = some true) : ¬ChunksRight s := by
  intro hright
  obtain ⟨a, ha0⟩ : ∃ a, last.binKeyword[0]? = some a := ⟨_, List.getElem?_eq_getElem (by omega)⟩
  obtain ⟨n, hn, hget⟩ := List.mem_iff_getElem.mp hmem
  have hgetn : s.kws[n]? = some kw := by
    rw [hkws, List.getElem?_append_left hn, List.getElem?_eq_getElem hn, hget]
  obtain ⟨hits, hhits⟩ := hright (-1) [a, c]
  obtain ⟨⟨t, ht, hall⟩, halone⟩ := hhits [[a, c]] ⟨by simp, .inl rfl⟩
  obtain ⟨t', ht', halone⟩ := halone n kw hgetn
  have hkwone := hone kw hmem
  have htimes := ht.unique (searchEnds_again hs ha hov hkw hkws hone htwo ha0 hlast)
  have htimes' := ht'.unique (searchEnds_alone (show (s.setKws [kw]).Exact from ⟨hs.distance, hs.inverse⟩) ha rfl
    hkwone a c)
  have hall := hall n
  have hbegin : (rSearchBegin s).kws[n]? = some kw.begin_ := by
    rw [rSearchBegin, List.getElem?_map, hgetn]
    rfl
  obtain ⟨hout0, hget0⟩ := outputs_taken hbegin (a, -1)
  obtain ⟨hout1, hget1⟩ := outputs_taken hget0 (c, 0)
  obtain ⟨hout2, -⟩ := outputs_taken hget1 (c, 0)
  have hget0' : (rSearchBegin (s.setKws [kw])).kws[0]? = some kw.begin_ := rfl
  obtain ⟨hout0', hget0'⟩ := outputs_taken hget0' (a, -1)
  obtain ⟨hout1', -⟩ := outputs_taken hget0' (c, 0)
  rw [htimes, hout2, hout1, hout0] at hall
  rw [htimes', hout1', hout0'] at halone
  -- the reports are the same but for one more at the address 0
  obtain ⟨k, hk⟩ : ∃ k, k = (kwFeed s (kwFeed s kw.begin_ (a, -1)).1 (c, 0)).1 := ⟨_, rfl⟩
  have hdata : k.binKeyword = kw.binKeyword ∧ k.binBinmask = kw.binBinmask ∧ k.icase = kw.icase := by
    obtain ⟨hb, hm, hi⟩ := kwFeed_data s kw.begin_ (a, -1)
    obtain ⟨hb', hm', hi'⟩ := kwFeed_data s (kwFeed s kw.begin_ (a, -1)).1 (c, 0)
    rw [hk]
    exact ⟨hb'.trans hb, hm'.trans hm, hi'.trans hi⟩
  have hready : k.Ready := by
    rw [hk]
    exact kwFeed_ready s (kwFeed_ready s (begin_ready (List.ne_nil_of_length_eq_add_one hkwone)) _) _
  have hzero : (kwFeed s k (c, 0)).2 = [0] :=
    kwFeed_zero s ((congrArg List.length hdata.1).trans hkwone) hready ((matches_congr hdata 0 c).trans hfound)
  simp only [kwFeed_taken, kwFeed_begin, kwFeed_setKws] at hall halone
  rw [← hk, hzero] at hall
  have hcount := congrArg List.length hall
  have hcount' := congrArg List.length halone
  rw [List.length_append, List.length_append, List.length_append, List.length_append,
    List.length_singleton] at hcount
  rw [List.length_append, List.length_append, List.length_append] at hcount'
  have hlog : (outputs n (rSearchBegin s).log).length = (outputs n s.log).length := rfl
  have hlog' : (outputs 0 (rSearchBegin (s.setKws [kw])).log).length = (outputs 0 s.log).length := rfl
  omega

end Rewound

/-- The order of the keywords that are longer than one byte: the first of them. -/
theorem first_long {kws : List RSearchKeyword} (h : ∃ k ∈ kws, k.binKeyword.length ≠ 1) :
    ∃ pre kw post, kws = pre ++ kw :: post ∧ (∀ k ∈ pre, k.binKeyword.length = 1) ∧ kw.binKeyword.length ≠ 1 := by
  obtain ⟨k, hk, hne⟩ := h
  cases hfind : kws.find? (fun k => decide (k.binKeyword.length ≠ 1)) with
  | none => exact absurd (List.find?_eq_none.mp hfind k hk) (by simpa using hne)
  | some kw =>
    obtain ⟨hlong, pre, post, hsplit, hpre⟩ := List.find?_eq_some_iff_append.mp hfind
    exact ⟨pre, kw, post, hsplit, by simpa using hpre, by simpa using hlong⟩

/-- Under overlap an unsafe list of keywords does not give the same hits in pieces, or alone. -/
theorem not_chunksRight_of_not_safe {s : RSearch} (hs : s.Exact) (ha : s.Accepts) (hov : s.overlap = true)
    (hkw : ∀ kw ∈ s.kws, kw.binKeyword ≠ []) (hnot : ¬OverlapSafe s.kws) : ¬ChunksRight s := by
  intro hright
  have hpos : ∀ k ∈ s.kws, 0 < k.binKeyword.length := fun k hk => List.length_pos_iff.mpr (hkw k hk)
  by_cases hlong : ∃ kw ∈ s.kws, 3 ≤ kw.binKeyword.length
  · obtain ⟨kw, hmem, hlen⟩ := hlong
    obtain ⟨n, hn, hget⟩ := List.mem_iff_getElem.mp hmem
    obtain ⟨hits, hhits⟩ := hright 0 kw.binKeyword
    have hpieces : Pieces kw.binKeyword (kw.binKeyword.map (fun c => [c])) := by
      refine ⟨?_, .inr ?_⟩
      · rw [← List.flatMap_def, List.flatMap_singleton']
      · simp
    obtain ⟨t, ⟨bound, ht⟩, -⟩ := (hhits _ hpieces).2 n kw (by rw [List.getElem?_eq_getElem hn, hget])
    have hbad := searchChunks_long (s := rSearchBegin (s.setKws [kw])) ⟨hs.distance, hs.inverse⟩ ha hov rfl
      (begin_ready (hkw kw hmem)) hlen 0 (hkw kw hmem) (by rw [begin_idx]; rfl) bound
    have hgood := ht (bound + 2) (by omega)
    rw [hbad] at hgood
    cases hgood
  · have hshort : ∀ k ∈ s.kws, k.binKeyword.length ≤ 2 := by
      intro k hk
      by_contra hno
      exact hlong ⟨k, hk, by omega⟩
    rcases List.eq_nil_or_concat s.kws with hnil | ⟨init, last, hkws⟩
    · rw [hnil] at hnot
      exact hnot ⟨nofun, nofun⟩
    · rw [List.concat_eq_append] at hkws
      by_cases hmiddle : ∃ k ∈ init, k.binKeyword.length ≠ 1
      · obtain ⟨pre, kw, post, hsplit, hpre, hne⟩ := first_long hmiddle
        have hmem : kw ∈ s.kws := by
          rw [hkws, hsplit]
          simp
        have hkw0 := hpos kw hmem
        have hkw2 := hshort kw hmem
        obtain ⟨a, b, hbytes⟩ : ∃ a b, kw.binKeyword = [a, b] := List.length_eq_two.mp (by omega)
        obtain ⟨next, rest, hrest⟩ : ∃ next rest, post ++ [last] = next :: rest :=
          List.exists_cons_of_ne_nil (by simp)
        have hall : s.kws = pre ++ kw :: next :: rest := by
          rw [hkws, hsplit, List.append_assoc, List.cons_append, hrest]
        obtain ⟨hits, hhits⟩ := hright 0 [a, b]
        obtain ⟨⟨t, ⟨bound, ht⟩, -⟩, -⟩ := hhits [[a], [b]] ⟨rfl, .inr (by simp)⟩
        have hgood := ht (bound + 2) (by omega)
        rw [searchChunks_middle hs ha hov hkw hall hpre hbytes 0 bound] at hgood
        cases hgood
      · have hone : ∀ k ∈ init, k.binKeyword.length = 1 := by
          intro k hk
          by_contra hne
          exact hmiddle ⟨k, hk, hne⟩
        have hlast2 := hshort last (by rw [hkws]; simp)
        rw [hkws, OverlapSafe.snoc_iff] at hnot
        by_contra
        apply hnot
        refine ⟨hone, hlast2, fun kw hmem c hboth => ?_⟩
        have htwo : last.binKeyword.length = 2 := by
          by_contra hne
          have hnone : last.binKeyword[1]? = none := List.getElem?_eq_none (by omega)
          exact absurd hboth.1 (matches_none hnone)
        exact not_chunksRight_of_shared hs ha hov hkw hkws hone htwo hmem hboth.1 hboth.2 hright

/-- In pieces or as one block, among others or alone, a keyword has the same hits, if and only if hits
do not overlap or the keywords are such that going back stays in the piece and finds no other one. -/
theorem search_chunks_iff (s : RSearch) (hs : s.Exact) (ha : s.Accepts) (hkw : ∀ kw ∈ s.kws, kw.binKeyword ≠ []) :
    ChunksRight s ↔ s.overlap = false ∨ OverlapSafe s.kws := by
  constructor
  · intro hright
    by_contra hno
    have hov : s.overlap = true := by
      by_contra hf
      exact hno (.inl (Bool.eq_false_of_not_eq_true hf))
    exact not_chunksRight_of_not_safe hs ha hov hkw (fun h => hno (.inr h)) hright
  · exact chunksRight_of_safe hs ha hkw

/-- A search with a callback that takes every hit. -/
def overlapSearch (kws : List (List Ut8)) : RSearch :=
  { rSearchNew with
    callback := some (fun _ => true), overlap := true, kws := kws.filterMap (fun bytes => rSearchKeywordNew bytes []) }

theorem overlapSafe_two : OverlapSafe (overlapSearch [[1], [2, 3]]).kws := by
  refine ⟨by decide, fun last hlast => ?_⟩
  cases hlast
  exact ⟨by decide, by decide⟩

theorem search_chunks_iff_two : ChunksRight (overlapSearch [[1], [2, 3]]) :=
  (search_chunks_iff _ ⟨rfl, rfl⟩ ⟨_, rfl, fun _ => rfl⟩ (by decide)).mpr (.inr overlapSafe_two)

/-- The keyword `010203` over the pieces `0102` and `03`: the index goes back before the second one. -/
theorem search_overlap_reads_before : ¬ChunksRight (overlapSearch [[1, 2, 3]]) := by
  intro hright
  obtain ⟨hits, hhits⟩ := hright 0 [1, 2, 3]
  obtain ⟨⟨t, ⟨bound, ht⟩, -⟩, -⟩ := hhits [[1, 2], [3]] ⟨rfl, .inr (by simp)⟩
  have hgood := ht (bound + 4) (by omega)
  cases hgood

end Radare
