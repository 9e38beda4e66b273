import Radare.Framework.Successive
import Radare.Search.Search

namespace Radare

open Framework

section Regexp

-- `r_regex_comp` for the bytes of a keyword, with or without `R_REGEX_ICASE`, and `r_regex_exec` with
-- `R_REGEX_STARTEND` for the window `[lo, hi]` of a buffer.
variable {RRegex : Type} (comp : List Ut8 → Bool → Option RRegex)
  (exec : RRegex → List Ut8 → Nat → Nat → Option (Nat × Nat))

/-- The loop for one keyword; `found` lists the matches that `r_search_hit_new` has been called for. -/
structure RegexpState where
  s : RSearch
  kw : RSearchKeyword
  rmSo : Nat
  count : Int
  found : List (Nat × Nat)

/-- `while (!r_regex_exec (..))`. -/
def regexpLoop (re : RRegex) (n : Nat) (from_ : Ut64) (buf : List Ut8) : Nat → RegexpState → Option RegexpState
  | 0, _ => none
  | fuel + 1, t =>
    match exec re buf t.rmSo buf.length with
    | none => some t
    | some (so, eo) =>
      let r := rSearchHitNew t.s n t.kw (from_ + BitVec.ofNat 64 so)
      regexpLoop re n from_ buf fuel
        ⟨r.1, { r.2.1 with count := r.2.1.count + 1 }, eo, t.count + 1, t.found ++ [(so, eo)]⟩

/-- What `r_search_regexp_update` leaves: `found` for each keyword that it has come to. -/
structure RegexpRun where
  s : RSearch
  kws : List RSearchKeyword
  ret : Int
  found : List (List (Nat × Nat))

/-- `r_list_foreach (s->kws, iter, kw)`, from the place `n` on. -/
def regexpKws (fuel : Nat) (from_ : Ut64) (buf : List Ut8) : Nat → List RSearchKeyword → RSearch → Int → Option RegexpRun
  | _, [], s, count => some ⟨s, [], count, []⟩
  | n, kw :: rest, s, count =>
    match comp kw.binKeyword kw.icase with
    | none => some ⟨s, kw :: rest, -1, []⟩
    | some re => do
      let t ← regexpLoop exec re n from_ buf fuel ⟨s, kw, 0, count, []⟩
      let r ← regexpKws fuel from_ buf (n + 1) rest t.s t.count
      some { r with kws := t.kw :: r.kws, found := t.found :: r.found }

def rSearchRegexpUpdate (fuel : Nat) (s : RSearch) (from_ : Ut64) (buf : List Ut8) : Option RegexpRun := do
  let r ← regexpKws comp exec fuel from_ buf 0 s.kws s 0
  some { r with s := { r.s with kws := r.kws } }

/-- The update ends, and what it reports for each keyword are separate matches inside the buffer. -/
def RegexpMeets (s : RSearch) (from_ : Ut64) (buf : List Ut8) : Prop :=
  ∃ fuel r, rSearchRegexpUpdate comp exec fuel s from_ buf = some r ∧ ∀ ms ∈ r.found, Separate buf.length ms

/-- For every keyword before the first that does not compile: none of the matches that `r_regex_exec` gives one
after another is empty. -/
def NoEmptyMatch (kws : List RSearchKeyword) (buf : List Ut8) : Prop :=
  ∀ kw ∈ kws.takeWhile (fun kw => (comp kw.binKeyword kw.icase).isSome), ∀ re, comp kw.binKeyword kw.icase = some re →
    Advances (fun lo => exec re buf lo buf.length) 0

variable {comp exec} {re : RRegex} {n : Nat} {from_ : Ut64} {buf : List Ut8} {fuel : Nat}

/-- The loop finds what is found one after another. -/
theorem regexpLoop_found (exec : RRegex → List Ut8 → Nat → Nat → Option (Nat × Nat)) (re : RRegex) (n : Nat) (from_ : Ut64)
    (buf : List Ut8) (fuel : Nat) (t : RegexpState) :
    (regexpLoop exec re n from_ buf fuel t).map RegexpState.found =
      (successive (fun lo => exec re buf lo buf.length) fuel t.rmSo).map (t.found ++ ·) := by
  induction fuel generalizing t with
  | zero => rfl
  | succ fuel ih =>
    cases hm : exec re buf t.rmSo buf.length with
    | none =>
      rw [regexpLoop, hm, successive_none (fun lo => exec re buf lo buf.length) hm]
      simp
    | some m =>
      rw [regexpLoop, hm, successive_some (fun lo => exec re buf lo buf.length) hm]
      simp only [ih, Option.map_map]
      congr 1
      funext ms
      simp

theorem regexpLoop_ends (n : Nat) (from_ : Ut64) {t : RegexpState} (ht : t.found = []) {ms : List (Nat × Nat)} :
    (∃ t', regexpLoop exec re n from_ buf fuel t = some t' ∧ t'.found = ms) ↔
      successive (fun lo => exec re buf lo buf.length) fuel t.rmSo = some ms := by
  have hfound := regexpLoop_found exec re n from_ buf fuel t
  rw [ht] at hfound
  simp only [List.nil_append, Option.map_id'] at hfound
  rw [← hfound, Option.map_eq_some_iff]

/-- More fuel changes nothing. -/
theorem regexpLoop_mono {t t' : RegexpState} (h : regexpLoop exec re n from_ buf fuel t = some t') {k : Nat} (hk : fuel ≤ k) :
    regexpLoop exec re n from_ buf k t = some t' := by
  induction fuel generalizing t k with
  | zero => cases h
  | succ fuel ih =>
    obtain ⟨k, rfl⟩ : ∃ k', k = k' + 1 := ⟨k - 1, by omega⟩
    rw [regexpLoop] at h ⊢
    cases hm : exec re buf t.rmSo buf.length with
    | none =>
      rw [hm] at h
      exact h
    | some m =>
      rw [hm] at h
      exact ih h (by omega)

theorem regexpKws_mono {kws : List RSearchKeyword} {s : RSearch} {count : Int} {r : RegexpRun}
    (h : regexpKws comp exec fuel from_ buf n kws s count = some r) {k : Nat} (hk : fuel ≤ k) :
    regexpKws comp exec k from_ buf n kws s count = some r := by
  induction kws generalizing n s count r with
  | nil => exact h
  | cons kw rest ih =>
    rw [regexpKws] at h ⊢
    cases hc : comp kw.binKeyword kw.icase with
    | none =>
      rw [hc] at h
      exact h
    | some re =>
      simp only [hc, Option.bind_eq_bind, Option.bind_eq_some_iff] at h ⊢
      obtain ⟨t, ht, r', hr', heq⟩ := h
      exact ⟨t, regexpLoop_mono ht hk, r', ih hr', heq⟩

variable {isMatch : RRegex → List Ut8 → Nat → Nat → Prop}

theorem regexpKws_iff (hexec : ∀ re buf hi, Leftmost (isMatch re buf) hi (fun lo => exec re buf lo hi))
    (kws : List RSearchKeyword) (n : Nat) (s : RSearch) (count : Int) :
    (∃ fuel r, regexpKws comp exec fuel from_ buf n kws s count = some r ∧ ∀ ms ∈ r.found, Separate buf.length ms) ↔
      NoEmptyMatch comp exec kws buf := by
  induction kws generalizing n s count with
  | nil =>
    refine iff_of_true ⟨0, _, rfl, ?_⟩ ?_
    · exact fun ms hms => absurd hms List.not_mem_nil
    · exact fun kw hkw => absurd hkw List.not_mem_nil
  | cons kw rest ih =>
    cases hc : comp kw.binKeyword kw.icase with
    | none =>
      refine iff_of_true ⟨0, ⟨s, kw :: rest, -1, []⟩, by simp only [regexpKws, hc], ?_⟩ ?_
      · exact fun ms hms => absurd hms List.not_mem_nil
      · intro kw' hkw'
        rw [List.takeWhile_cons_of_neg (by simp [hc])] at hkw'
        exact absurd hkw' List.not_mem_nil
    | some re =>
      have hsplit : NoEmptyMatch comp exec (kw :: rest) buf ↔
          Advances (fun lo => exec re buf lo buf.length) 0 ∧ NoEmptyMatch comp exec rest buf := by
        unfold NoEmptyMatch
        rw [List.takeWhile_cons_of_pos (by simp [hc]), List.forall_mem_cons, hc]
        simp
      rw [hsplit]
      constructor
      · intro h
        obtain ⟨fuel, r, hr, hsep⟩ := h
        simp only [regexpKws, hc, Option.bind_eq_bind, Option.bind_eq_some_iff] at hr
        obtain ⟨t, ht, r', hr', heq⟩ := hr
        obtain rfl := Option.some.inj heq
        obtain ⟨hfirst, hrest⟩ := List.forall_mem_cons.mp hsep
        exact ⟨(hexec re buf buf.length).ends_iff.mp ⟨fuel, _, (regexpLoop_ends _ _ rfl).mp ⟨t, ht, rfl⟩, hfirst⟩,
          (ih _ _ _).mp ⟨fuel, r', hr', hrest⟩⟩
      · intro h
        obtain ⟨hadv, hrest⟩ := h
        obtain ⟨k, ms, hms, hsep⟩ := (hexec re buf buf.length).ends_iff.mpr hadv
        obtain ⟨t, ht, hfound⟩ := (regexpLoop_ends n from_ (t := ⟨s, kw, 0, count, []⟩) rfl).mpr hms
        obtain ⟨k', r, hr, hall⟩ := (ih (n + 1) t.s t.count).mpr hrest
        refine ⟨max k k', { r with kws := t.kw :: r.kws, found := t.found :: r.found }, ?_, ?_⟩
        · simp only [regexpKws, hc, regexpLoop_mono ht (Nat.le_max_left k k'), regexpKws_mono hr (Nat.le_max_right k k'),
            Option.bind_eq_bind, Option.bind_some]
        · exact List.forall_mem_cons.mpr ⟨by rw [hfound]; exact hsep, hall⟩

/-- For every list of keywords and every buffer: the update ends and reports separate matches exactly when it meets
no empty match. -/
theorem regexpUpdate_iff (hexec : ∀ re buf hi, Leftmost (isMatch re buf) hi (fun lo => exec re buf lo hi))
    (s : RSearch) (from_ : Ut64) (buf : List Ut8) :
    RegexpMeets comp exec s from_ buf ↔ NoEmptyMatch comp exec s.kws buf := by
  rw [← regexpKws_iff hexec s.kws 0 s 0]
  constructor
  · intro h
    obtain ⟨fuel, r, hr, hsep⟩ := h
    simp only [rSearchRegexpUpdate, Option.bind_eq_bind, Option.bind_eq_some_iff] at hr
    obtain ⟨r', hr', heq⟩ := hr
    obtain rfl := Option.some.inj heq
    exact ⟨fuel, r', hr', hsep⟩
  · intro h
    obtain ⟨fuel, r, hr, hsep⟩ := h
    exact ⟨fuel, { r with s := { r.s with kws := r.kws } }, by simp only [rSearchRegexpUpdate, hr, Option.bind_eq_bind, Option.bind_some], hsep⟩

end Regexp

/-- An expression without operators matches where its letters stand. -/
def literalExec (w buf : List Ut8) (lo hi : Nat) : Option (Nat × Nat) :=
  ((List.range (hi + 1)).find? (fun so => decide (lo ≤ so ∧ so + w.length ≤ hi ∧ (buf.drop so).take w.length = w))).map
    (fun so => (so, so + w.length))

theorem literalExec_eq {w buf : List Ut8} {lo hi : Nat} {m : Nat × Nat} (h : literalExec w buf lo hi = some m) :
    m.2 = m.1 + w.length ∧ (lo ≤ m.1 ∧ m.2 ≤ hi ∧ (buf.drop m.1).take w.length = w) ∧
      ∀ so < m.1, ¬(lo ≤ so ∧ so + w.length ≤ hi ∧ (buf.drop so).take w.length = w) := by
  obtain ⟨so, hso, rfl⟩ := Option.map_eq_some_iff.mp h
  obtain ⟨hgood, _, hbefore⟩ := List.find?_range_eq_some.mp hso
  refine ⟨rfl, of_decide_eq_true hgood, fun so' hlt hgood' => ?_⟩
  have hnot := hbefore so' hlt
  rw [decide_eq_true hgood'] at hnot
  exact absurd hnot (by decide)

theorem literalExec_leftmost (w buf : List Ut8) (hi : Nat) :
    Leftmost (fun so eo => eo = so + w.length ∧ (buf.drop so).take w.length = w) hi (fun lo => literalExec w buf lo hi) := by
  refine ⟨fun {lo m} h => ?_, fun {lo m so eo} h hmatch hlo _ hhi => ?_, fun {lo so eo} hmatch hlo _ hhi h => ?_⟩
  · obtain ⟨hlen, ⟨hlo, hhi, hletters⟩, _⟩ := literalExec_eq h
    exact ⟨⟨hlen, hletters⟩, hlo, by omega, hhi⟩
  · obtain ⟨rfl, hletters⟩ := hmatch
    by_contra hlt
    exact (literalExec_eq h).2.2 so (by omega) ⟨hlo, hhi, hletters⟩
  · rw [literalExec, Option.map_eq_none_iff, List.find?_eq_none] at h
    obtain ⟨rfl, hletters⟩ := hmatch
    exact h so (List.mem_range.mpr (by omega)) (decide_eq_true ⟨hlo, hhi, hletters⟩)

/-- The expression `a` in the buffer `aba`. -/
theorem regexpUpdate_iff_letter :
    RegexpMeets (fun w _ => some w) literalExec { rSearchNew with kws := [RSearchKeyword.plain [97]] } 0 [97, 98, 97] := by
  refine (regexpUpdate_iff (fun re buf hi => literalExec_leftmost re buf hi) _ _ _).mpr ?_
  intro kw hkw re hre p m _ hm
  obtain rfl := Option.some.inj hre
  obtain rfl := List.mem_singleton.mp hkw
  have hlen := (literalExec_eq hm).1
  have hone : m.2 = m.1 + 1 := hlen
  omega

/-- What `x*` gives in a buffer without that letter. -/
def emptyExec (lo hi : Nat) : Option (Nat × Nat) := if lo ≤ hi then some (lo, lo) else none

/-- It is a leftmost match, and the update does not end. -/
theorem regexpUpdate_empty : (∀ hi, Leftmost (fun so eo => so = eo) hi (fun lo => emptyExec lo hi)) ∧
    ¬RegexpMeets (fun _ _ => some ()) (fun _ _ lo hi => emptyExec lo hi)
      { rSearchNew with kws := [RSearchKeyword.plain [120, 42]] } 0 [97] := by
  refine ⟨fun hi => ⟨fun {lo m} h => ?_, fun {lo m so eo} h _ hlo _ _ => ?_, fun {lo so eo} _ hlo hle hhi h => ?_⟩, ?_⟩
  · obtain ⟨hle, heq⟩ := Option.ite_none_right_eq_some.mp h
    cases heq
    exact ⟨rfl, Nat.le_refl _, Nat.le_refl _, hle⟩
  · obtain ⟨_, heq⟩ := Option.ite_none_right_eq_some.mp h
    cases heq
    exact hlo
  · rw [emptyExec, if_pos (by omega)] at h
    cases h
  · intro h
    obtain ⟨fuel, r, hr, -⟩ := h
    simp only [rSearchRegexpUpdate, regexpKws, Option.bind_eq_bind, Option.bind_eq_some_iff] at hr
    obtain ⟨-, ⟨t, ht, -⟩, -⟩ := hr
    have hstuck := successive_stuck (fun lo => emptyExec lo 1) (m := (0, 0)) rfl rfl fuel
    have hfound := (regexpLoop_ends _ _ rfl).mp ⟨t, ht, rfl⟩
    exact absurd (hstuck.symm.trans hfound) (by simp)

end Radare
