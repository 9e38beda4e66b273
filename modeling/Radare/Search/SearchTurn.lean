import Radare.Framework.Transducer
import Radare.Search.Search

namespace Radare

open Framework

/-- A search for exact keywords: no distance, not inverse. -/
structure RSearch.Exact (s : RSearch) : Prop where
  distance : s.distance = 0
  inverse : s.inverse = false

/-- More hits are reported. -/
def RSearch.logged (s : RSearch) (hits : List (Nat × Ut64)) : RSearch := { s with log := s.log ++ hits }

def RSearch.setKws (s : RSearch) (kws : List RSearchKeyword) : RSearch := { s with kws := kws }

section Logged

variable (s : RSearch) (hits hits' : List (Nat × Ut64)) (kws kws' : List RSearchKeyword)

theorem RSearch.logged_nil : s.logged [] = s := by
  rw [RSearch.logged, List.append_nil]

theorem RSearch.logged_logged : (s.logged hits).logged hits' = s.logged (hits ++ hits') := by
  rw [RSearch.logged, RSearch.logged, RSearch.logged]
  simp only [List.append_assoc]

theorem RSearch.Exact.logged {s : RSearch} (h : s.Exact) (hits : List (Nat × Ut64)) : (s.logged hits).Exact :=
  ⟨h.distance, h.inverse⟩

end Logged

/-- A keyword while it is searched for. -/
structure RSearchKeyword.Ready (kw : RSearchKeyword) : Prop where
  distance : kw.distance = 0
  idx : kw.idx 0 < kw.binKeyword.length

/-- Where the index goes back to on a byte that does not match. -/
def retreat (kw : RSearchKeyword) (k : Nat) : Nat := if isTail kw k then k - 1 else 0

/-- The bytes of the keyword that are matched after one more byte. -/
def kwNext (kw : RSearchKeyword) (k : Nat) (c : Ut8) : Nat :=
  if matches_ kw k c = some true then k + 1
  else if matchesAgain kw (retreat kw k) c = some true then retreat kw k + 1 else retreat kw k

/-- Keyword and report of a hit when every hit is taken. -/
def takeHit (s : RSearch) (kw : RSearchKeyword) (addr : Ut64) : RSearchKeyword × List Ut64 :=
  if s.align ≠ 0 ∧ addr % BitVec.ofInt 64 s.align ≠ 0 then (kw, [])
  else if s.contiguous then (kw, [addr])
  else if kw.last ≠ 0 ∧ addr = kw.last then
    ({ kw with count := kw.count - 1, last := addr + BitVec.ofNat 64 kw.binKeyword.length }, [])
  else ({ kw with last := addr + BitVec.ofNat 64 kw.binKeyword.length }, [addr])

/-- Keyword and reports after one more byte `x.1`, which stands at the address `x.2`. -/
def kwFeed (s : RSearch) (kw : RSearchKeyword) (x : Ut8 × Ut64) : RSearchKeyword × List Ut64 :=
  if kwNext kw (kw.idx 0) x.1 = kw.binKeyword.length then
    let r := takeHit s kw (x.2 - BitVec.ofNat 64 kw.binKeyword.length + 1)
    ({ r.1 with idx := Function.update kw.idx 0 0, count := r.1.count + 1 }, r.2)
  else ({ kw with idx := Function.update kw.idx 0 (kwNext kw (kw.idx 0) x.1) }, [])

section Compare

variable {kw : RSearchKeyword} {k : Nat}

theorem maskcmp_isSome (hk : k < kw.binKeyword.length) (hm : 0 < kw.binBinmask.length) (c : Ut8) :
    (maskcmp kw k c).isSome := by
  have hmod := Nat.mod_lt k hm
  rw [maskcmp, List.getElem?_eq_getElem hk, List.getElem?_eq_getElem hmod]
  rfl

theorem matches_isSome (hk : k < kw.binKeyword.length) (c : Ut8) : (matches_ kw k c).isSome := by
  unfold matches_
  split_ifs with hm
  · exact maskcmp_isSome hk hm c
  · rw [List.getElem?_eq_getElem hk]
    rfl

theorem matchesAgain_isSome (hk : k < kw.binKeyword.length) (c : Ut8) : (matchesAgain kw k c).isSome := by
  unfold matchesAgain
  split_ifs with hm
  · exact maskcmp_isSome hk hm c
  · rw [List.getElem?_eq_getElem hk]
    rfl

theorem retreat_le (kw : RSearchKeyword) (k : Nat) : retreat kw k ≤ k - 1 := by
  unfold retreat
  split_ifs
  · exact Nat.le_refl _
  · exact Nat.zero_le _

theorem kwNext_le (hk : k < kw.binKeyword.length) (c : Ut8) : kwNext kw k c ≤ kw.binKeyword.length := by
  have hle := retreat_le kw k
  unfold kwNext
  split_ifs
  · omega
  · omega
  · omega

end Compare

variable {s : RSearch} {kw : RSearchKeyword}

/-- A turn of the loop over the distances: the index moves, and a hit is reported. -/
theorem distanceTurn_eq (hs : s.Exact) (hk : kw.Ready) (n : Nat) (from_ : Ut64) (c : Ut8) (i : Int) :
    distanceTurn s n kw from_ c i 0 = some
      (if kwNext kw (kw.idx 0) c = kw.binKeyword.length then
        hitTurn s n { kw with idx := Function.update kw.idx 0 (kw.binKeyword.length - 1) } from_ i 0
      else ⟨s, { kw with idx := Function.update kw.idx 0 (kwNext kw (kw.idx 0) c) }, i, none⟩) := by
  have hlen := hk.idx
  have hback := retreat_le kw (kw.idx 0)
  obtain ⟨b, hb⟩ := Option.isSome_iff_exists.mp (matches_isSome hlen c)
  have hhit : ∀ k, k < kw.binKeyword.length →
      hitTurn s n { kw with idx := Function.update kw.idx 0 k } from_ i 0 =
        if k + 1 = kw.binKeyword.length then
          hitTurn s n { kw with idx := Function.update kw.idx 0 (kw.binKeyword.length - 1) } from_ i 0
        else ⟨s, { kw with idx := Function.update kw.idx 0 (k + 1) }, i, none⟩ := by
    intro k hk
    by_cases he : k + 1 = kw.binKeyword.length
    · rw [if_pos he, ← he, Nat.add_sub_cancel]
    · rw [if_neg he]
      simp only [hitTurn, Function.update_self, Function.update_idem, he, if_false]
  have hself : ({ kw with idx := Function.update kw.idx 0 (kw.idx 0) } : RSearchKeyword) = kw := by
    rw [Function.update_eq_self]
  cases b with
  | true =>
    have hone := hhit (kw.idx 0) hlen
    rw [hself] at hone
    simp only [distanceTurn, hb, Option.bind_eq_bind, Option.bind_some, if_true, kwNext, hone]
  | false =>
    have hlt : retreat kw (kw.idx 0) < kw.binKeyword.length := by omega
    obtain ⟨b', hb'⟩ := Option.isSome_iff_exists.mp (matchesAgain_isSome hlt c)
    have hdist : ¬kw.distance < s.distance := by
      rw [hs.distance]
      exact Nat.not_lt_zero _
    have hkw : ({ kw with idx := Function.update kw.idx 0 (retreat kw (kw.idx 0)), distance := 0 } : RSearchKeyword) =
        { kw with idx := Function.update kw.idx 0 (retreat kw (kw.idx 0)) } := by
      rw [← hk.distance]
    have hagain : matchesAgain { kw with idx := Function.update kw.idx 0 (retreat kw (kw.idx 0)) }
        (retreat kw (kw.idx 0)) c = some b' := hb'
    simp only [distanceTurn, hb, Option.bind_eq_bind, Option.bind_some, Bool.false_eq_true, if_false,
      hs.inverse, hdist, kwNext, Option.some.injEq]
    rw [show (if isTail kw (kw.idx 0) = true then kw.idx 0 - 1 else 0) = retreat kw (kw.idx 0) from rfl, hkw, hagain,
      Option.bind_some]
    cases b' with
    | true => simp only [if_true, hb', hhit _ hlt]
    | false => 
      have hne : retreat kw (kw.idx 0) ≠ kw.binKeyword.length := by omega
      simp only [Bool.false_eq_true, if_false, hb', Option.some.injEq, hne]

/-- The loop over the distances is one turn. -/
theorem distanceLoop_eq (n : Nat) (from_ : Ut64) (buf : List Ut8) (i : Int)
    {c : Ut8} (hc : loadByte buf i = some c) {t : Turn} (ht : distanceTurn s n kw from_ c i 0 = some t)
    (hd : t.ret = none → t.kw.distance = 0) :
    distanceLoop n from_ buf 11 0 ⟨s, kw, i, none⟩ = some t := by
  rw [distanceLoop]
  simp only [Nat.zero_le, if_true, hc, Option.bind_eq_bind, Option.bind_some, ht]
  cases hret : t.ret with
  | some r => rfl
  | none =>
    simp only [Option.isSome_none, Bool.false_eq_true, if_false]
    rw [distanceLoop, if_neg (by rw [hd hret]; omega)]

/-- A search whose callback takes every hit. -/
def RSearch.Accepts (s : RSearch) : Prop := ∃ f, s.callback = some f ∧ ∀ calls, f calls = true

theorem accepts_logged {s : RSearch} (h : s.Accepts) (hits : List (Nat × Ut64)) : (s.logged hits).Accepts := h

theorem hitNew_accepts (ha : s.Accepts) (n : Nat) (kw : RSearchKeyword) (addr : Ut64) :
    rSearchHitNew s n kw addr =
      (s.logged ((takeHit s kw addr).2.map (fun a => (n, a))), (takeHit s kw addr).1, true) := by
  obtain ⟨f, hf, hall⟩ := ha
  have hreport : report s n addr = (s.logged [(n, addr)], true) := by
    simp only [report, hf, hall, RSearch.logged]
  unfold rSearchHitNew takeHit
  simp only [hreport]
  split_ifs <;> simp [RSearch.logged_nil]

theorem takeHit_kw (s : RSearch) (kw : RSearchKeyword) (addr : Ut64) :
    (takeHit s kw addr).1.distance = kw.distance ∧ (takeHit s kw addr).1.idx = kw.idx ∧
      (takeHit s kw addr).1.binKeyword = kw.binKeyword ∧ (takeHit s kw addr).1.binBinmask = kw.binBinmask ∧
      (takeHit s kw addr).1.icase = kw.icase := by
  unfold takeHit
  split_ifs <;> exact ⟨rfl, rfl, rfl, rfl, rfl⟩

/-- A hit that moves the loop index back. -/
def Rewinds (s : RSearch) (kw : RSearchKeyword) (c : Ut8) : Prop :=
  s.overlap = true ∧ 1 < kw.binKeyword.length ∧ kwNext kw (kw.idx 0) c = kw.binKeyword.length

instance (s : RSearch) (kw : RSearchKeyword) (c : Ut8) : Decidable (Rewinds s kw c) :=
  inferInstanceAs (Decidable (_ ∧ _ ∧ _))

theorem kwFeed_logged (s : RSearch) (hits : List (Nat × Ut64)) : kwFeed (s.logged hits) = kwFeed s := rfl

/-- The keyword stays ready, and what is searched for stays the same. -/
theorem kwFeed_ready (s : RSearch) (hk : kw.Ready) (x : Ut8 × Ut64) : (kwFeed s kw x).1.Ready := by
  have hle := kwNext_le hk.idx x.1
  have hlen := hk.idx
  unfold kwFeed
  split_ifs with hhit
  · obtain ⟨hd, -, hb, -, -⟩ := takeHit_kw s kw (x.2 - BitVec.ofNat 64 kw.binKeyword.length + 1)
    refine ⟨hd.trans hk.distance, ?_⟩
    simp only [Function.update_self, hb]
    omega
  · refine ⟨hk.distance, ?_⟩
    simp only [Function.update_self]
    omega

theorem kwFeed_data (s : RSearch) (kw : RSearchKeyword) (x : Ut8 × Ut64) :
    (kwFeed s kw x).1.binKeyword = kw.binKeyword ∧ (kwFeed s kw x).1.binBinmask = kw.binBinmask ∧
      (kwFeed s kw x).1.icase = kw.icase := by
  unfold kwFeed
  split_ifs with hhit
  · obtain ⟨-, -, hb, hm, hi⟩ := takeHit_kw s kw (x.2 - BitVec.ofNat 64 kw.binKeyword.length + 1)
    exact ⟨hb, hm, hi⟩
  · exact ⟨rfl, rfl, rfl⟩

/-- The comparisons look at the keyword, its mask and its case flag only. -/
theorem kwNext_congr {kw' : RSearchKeyword} (hb : kw'.binKeyword = kw.binKeyword)
    (hm : kw'.binBinmask = kw.binBinmask) (hi : kw'.icase = kw.icase) (k : Nat) (c : Ut8) :
    kwNext kw' k c = kwNext kw k c := by
  have hmask : ∀ k, maskcmp kw' k c = maskcmp kw k c := by
    intro k
    simp only [maskcmp, RSearchKeyword.lower, hb, hm, hi]
  have hfirst : ∀ k, matches_ kw' k c = matches_ kw k c := by
    intro k
    simp only [matches_, hmask, RSearchKeyword.lower, hb, hm, hi]
  have hagain : ∀ k, matchesAgain kw' k c = matchesAgain kw k c := by
    intro k
    simp only [matchesAgain, hmask, RSearchKeyword.lower, hb, hm, hi]
  have hback : retreat kw' k = retreat kw k := by
    rw [retreat, retreat, isTail, isTail, hb]
  rw [kwNext, kwNext, hfirst, hback, hagain]

theorem distanceLoop_accepts (hs : s.Exact) (ha : s.Accepts) (hk : kw.Ready) (n : Nat) (from_ : Ut64)
    (buf : List Ut8) (i : Int) {c : Ut8} (hc : loadByte buf i = some c) :
    distanceLoop n from_ buf 11 0 ⟨s, kw, i, none⟩ = some
      ⟨s.logged ((kwFeed s kw (c, from_ + BitVec.ofInt 64 i)).2.map (fun a => (n, a))),
        (kwFeed s kw (c, from_ + BitVec.ofInt 64 i)).1,
        if Rewinds s kw c then i - (kw.binKeyword.length - 1) else i, none⟩ := by
  have hlen := hk.idx
  have hturn := distanceTurn_eq hs hk n from_ c i
  by_cases hhit : kwNext kw (kw.idx 0) c = kw.binKeyword.length
  · rw [if_pos hhit] at hturn
    obtain ⟨f, hf, hall⟩ := ha
    have hkw : takeHit s { kw with idx := Function.update kw.idx 0 kw.binKeyword.length }
        (from_ + BitVec.ofInt 64 i - BitVec.ofNat 64 kw.binKeyword.length + 1) =
        ({ (takeHit s kw (from_ + BitVec.ofInt 64 i - BitVec.ofNat 64 kw.binKeyword.length + 1)).1 with
            idx := Function.update kw.idx 0 kw.binKeyword.length },
          (takeHit s kw (from_ + BitVec.ofInt 64 i - BitVec.ofNat 64 kw.binKeyword.length + 1)).2) := by
      unfold takeHit
      split_ifs <;> rfl
    obtain ⟨hd, -⟩ := takeHit_kw s kw (from_ + BitVec.ofInt 64 i - BitVec.ofNat 64 kw.binKeyword.length + 1)
    refine distanceLoop_eq n from_ buf i hc (hturn.trans ?_) (fun _ => ?_)
    · have hone : kw.binKeyword.length - 1 + 1 = kw.binKeyword.length := by omega
      simp only [hitTurn, Function.update_self, Function.update_idem, hone, hs.inverse, if_true,
        Bool.false_eq_true, if_false, hitNew_accepts ⟨f, hf, hall⟩, hkw, kwFeed, hhit, Rewinds,
        Option.some.injEq, and_true]
      rw [hd, hk.distance]
    · exact (kwFeed_ready s hk (c, from_ + BitVec.ofInt 64 i)).distance
  · rw [if_neg hhit] at hturn
    refine distanceLoop_eq n from_ buf i hc (hturn.trans ?_) (fun _ => ?_)
    · simp [kwFeed, hhit, Rewinds, RSearch.logged_nil]
    · exact (kwFeed_ready s hk (c, from_ + BitVec.ofInt 64 i)).distance

/-- A round over keywords none of which moves the loop index back. -/
theorem kwsLoop_steady (hs : s.Exact) (ha : s.Accepts) (kws : List RSearchKeyword)
    (hk : ∀ kw ∈ kws, kw.Ready) (n : Nat) (from_ : Ut64) (buf : List Ut8) (i : Int) {c : Ut8}
    (hc : loadByte buf i = some c) (hr : ∀ kw ∈ kws, ¬Rewinds s kw c) :
    kwsLoop from_ buf n kws s i = some
      ⟨s.logged (stepAll (kwFeed s) n kws (c, from_ + BitVec.ofInt 64 i)).2,
        (stepAll (kwFeed s) n kws (c, from_ + BitVec.ofInt 64 i)).1, i, none⟩ := by
  induction kws generalizing n s with
  | nil => rw [kwsLoop, stepAll, RSearch.logged_nil]
  | cons kw kws ih =>
    have hturn := distanceLoop_accepts hs ha (hk kw List.mem_cons_self) n from_ buf i hc
    rw [if_neg (hr kw List.mem_cons_self)] at hturn
    have hinv : ¬(s.inverse = true ∧ 0 < s.nhits) := by
      rw [hs.inverse]
      simp
    rw [kwsLoop, if_neg hinv, hturn]
    simp only [Bool.false_eq_true, if_false, Option.bind_eq_bind, Option.bind_some, Option.isSome_none]
    rw [ih (hs.logged _) (accepts_logged ha _) (fun k hmem => hk k (List.mem_cons_of_mem _ hmem)) (n + 1)
      (fun k hmem => hr k (List.mem_cons_of_mem _ hmem)), Option.bind_some, RSearch.logged_logged]
    rfl

/-- A round goes on with the later keywords where the earlier ones left it. -/
theorem kwsLoop_append (xs ys : List RSearchKeyword) (n : Nat) (from_ : Ut64) (buf : List Ut8) (s : RSearch)
    (i : Int) {r : Round} (hr : kwsLoop from_ buf n xs s i = some r) (hret : r.ret = none) :
    kwsLoop from_ buf n (xs ++ ys) s i =
      (kwsLoop from_ buf (n + xs.length) ys r.s r.i).map (fun q => { q with kws := r.kws ++ q.kws }) := by
  induction xs generalizing n s i r with
  | nil =>
    rw [kwsLoop, Option.some.injEq] at hr
    rw [← hr]
    simp
  | cons x xs ih =>
    rw [kwsLoop] at hr
    rw [List.cons_append, kwsLoop]
    split_ifs at hr ⊢ with hinv
    · cases hr
      cases hret
    · cases ht : distanceLoop n from_ buf 11 0 ⟨s, x, i, none⟩ with
      | none =>
        rw [ht] at hr
        cases hr
      | some t =>
        rw [ht] at hr
        simp only [Option.bind_eq_bind, Option.bind_some] at hr ⊢
        cases htr : t.ret with
        | some k =>
          simp only [htr, Option.isSome_some, if_true, Option.some.injEq] at hr
          rw [← hr] at hret
          cases hret
        | none =>
          simp only [htr, Option.isSome_none, Bool.false_eq_true, if_false] at hr ⊢
          cases hrec : kwsLoop from_ buf (n + 1) xs t.s t.i with
          | none =>
            rw [hrec] at hr
            cases hr
          | some q =>
            rw [hrec, Option.bind_some, Option.some.injEq] at hr
            subst hr
            rw [ih (n + 1) t.s t.i hrec hret, List.length_cons, show n + (xs.length + 1) = n + 1 + xs.length by omega]
            cases kwsLoop from_ buf (n + 1 + xs.length) ys q.s q.i with
            | none => rfl
            | some q' => rfl

end Radare
