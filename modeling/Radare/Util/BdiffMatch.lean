import Radare.Framework.DiagonalRun
import Radare.Util.BdiffClasses

namespace Radare

open Framework

def classAt (l : List Link) (i : Nat) : Option Nat := l[i]?.map Link.e

/-- The links of `a` and `b` lead to the lines that meet. -/
structure LinksMeet (a b : List Link) (rare : Option Nat → Prop) : Prop where
  mem : ∀ i j, j ∈ chain b b.length (a[i]?.bind Link.n) ↔ Meets (classAt a) (classAt b) rare i j
  sorted : ∀ i : Nat, (chain b b.length (a[i]?.bind Link.n)).Pairwise (· < ·)

theorem Equated.linksMeet {a b : List Line} {al bl : List Link} (h : Equated a b al bl) :
    ∃ rare, LinksMeet al bl rare := by
  obtain ⟨rare, hlinks⟩ := h.links
  refine ⟨fun c => ∃ e, c = some e ∧ rare e, ?_, ?_⟩
  · intro i j
    cases hi : al[i]? with
    | none => simp [chain, Meets, classAt, hi]
    | some x =>
      rw [Option.bind_some, hlinks i x hi j, Meets, classAt, hi, Option.map_some, classAt]
      constructor
      · rintro ⟨hrare, y, hy, he⟩
        exact ⟨⟨x.e, rfl, hrare⟩, by rw [hy, Option.map_some, he]⟩
      · rintro ⟨⟨e, he, hrare⟩, hsame⟩
        obtain rfl := Option.some.inj he
        obtain ⟨y, hy, he⟩ := Option.map_eq_some_iff.mp hsame.symm
        exact ⟨hrare, y, hy, he⟩
  · intro i
    cases hi : al[i]? with
    | none => simp [chain]
    | some x => exact h.sorted i x hi

theorem dropWhile_sorted {l : List Nat} (b1 : Nat) (h : l.Pairwise (· < ·)) :
    l.dropWhile (· < b1) = l.filter (b1 ≤ ·) := by
  induction l with
  | nil => rfl
  | cons x l ih =>
    obtain ⟨hx, hl⟩ := List.pairwise_cons.mp h
    by_cases hlt : x < b1
    · rw [List.dropWhile_cons_of_pos (by simpa using hlt), ih hl, List.filter_cons_of_neg (by simpa using hlt)]
    · rw [List.dropWhile_cons_of_neg (by simpa using hlt), List.filter_eq_self.mpr]
      intro y hy
      rcases List.mem_cons.mp hy with rfl | hy
      · simpa using hlt
      · have hxy := hx y hy
        simp
        omega

theorem takeWhile_sorted {l : List Nat} (b2 : Nat) (h : l.Pairwise (· < ·)) :
    l.takeWhile (· < b2) = l.filter (· < b2) := by
  induction l with
  | nil => rfl
  | cons x l ih =>
    obtain ⟨hx, hl⟩ := List.pairwise_cons.mp h
    by_cases hlt : x < b2
    · rw [List.takeWhile_cons_of_pos (by simpa using hlt), ih hl, List.filter_cons_of_pos (by simpa using hlt)]
    · rw [List.takeWhile_cons_of_neg (by simpa using hlt), eq_comm, List.filter_eq_nil_iff]
      intro y hy
      rcases List.mem_cons.mp hy with rfl | hy
      · simpa using hlt
      · have hxy := hx y hy
        simp
        omega

/-- One pair of lines is looked at before the other. -/
def Before (x y : Nat × Nat) : Prop := x.1 < y.1 ∨ x.1 = y.1 ∧ x.2 < y.2

/-- The pairs of lines that `longest_match` looks at, in its order. -/
def visits (a b : List Link) (a1 a2 b1 b2 : Nat) : List (Nat × Nat) :=
  (List.range' a1 (a2 - a1)).flatMap (fun i => (candidates a b b1 b2 i).map (fun j => (i, j)))

theorem foldl_visits (a b : List Link) (a1 a2 b1 b2 : Nat) (st : MatchState) :
    (List.range' a1 (a2 - a1)).foldl
      (fun st i => (candidates a b b1 b2 i).foldl (matchRound a1 b1 i) st) st =
    (visits a b a1 a2 b1 b2).foldl (fun st x => matchRound a1 b1 x.1 st x.2) st := by
  rw [visits, List.foldl_flatMap]
  simp only [List.foldl_map]

section

variable {a b : List Link} {rare : Option Nat → Prop} {a1 a2 b1 b2 : Nat}

theorem LinksMeet.candidates_eq (h : LinksMeet a b rare) (i : Nat) :
    candidates a b b1 b2 i =
      ((chain b b.length (a[i]?.bind Link.n)).filter (b1 ≤ ·)).filter (· < b2) := by
  rw [candidates]
  show List.takeWhile _ (List.dropWhile _ (chain b b.length (a[i]?.bind Link.n))) = _
  rw [dropWhile_sorted b1 (h.sorted i), takeWhile_sorted b2 ((h.sorted i).filter _)]

theorem LinksMeet.mem_visits (h : LinksMeet a b rare) {i j : Nat} :
    (i, j) ∈ visits a b a1 a2 b1 b2 ↔
      (a1 ≤ i ∧ i < a2) ∧ (b1 ≤ j ∧ j < b2) ∧ Meets (classAt a) (classAt b) rare i j := by
  rw [visits, List.mem_flatMap]
  constructor
  · rintro ⟨i', hi, hj⟩
    obtain ⟨j', hj, heq⟩ := List.mem_map.mp hj
    cases heq
    rw [h.candidates_eq, List.mem_filter, List.mem_filter, h.mem] at hj
    rw [List.mem_range'_1] at hi
    simp only [decide_eq_true_eq] at hj
    exact ⟨by omega, ⟨hj.1.2, hj.2⟩, hj.1.1⟩
  · rintro ⟨hi, hj, hmeet⟩
    refine ⟨i, ?_, List.mem_map.mpr ⟨j, ?_, rfl⟩⟩
    · rw [List.mem_range'_1]
      omega
    · rw [h.candidates_eq, List.mem_filter, List.mem_filter, h.mem]
      simp only [decide_eq_true_eq]
      exact ⟨⟨hmeet, hj.1⟩, hj.2⟩

theorem LinksMeet.visits_sorted (h : LinksMeet a b rare) (a1 a2 b1 b2 : Nat) :
    (visits a b a1 a2 b1 b2).Pairwise Before := by
  rw [visits, List.pairwise_flatMap]
  constructor
  · intro i _
    rw [List.pairwise_map, h.candidates_eq]
    apply (((h.sorted i).filter _).filter _).imp
    intro j j' hlt
    exact .inr ⟨rfl, hlt⟩
  · refine List.Pairwise.imp ?_ List.pairwise_lt_range'
    intro i i' hlt x hx y hy
    obtain ⟨_, _, rfl⟩ := List.mem_map.mp hx
    obtain ⟨_, _, rfl⟩ := List.mem_map.mp hy
    exact .inl hlt

open Classical in
/-- The length of the match that ends at a pair of lines. -/
noncomputable def matchLen (a b : List Link) (rare : Option Nat → Prop) (a1 b1 : Nat) (x : Nat × Nat) :
    Nat :=
  runLen (classAt a) (classAt b) rare a1 b1 x.1 x.2

theorem matchLen_pos (a b : List Link) (rare : Option Nat → Prop) (a1 b1 : Nat) (x : Nat × Nat) :
    1 ≤ matchLen a b rare a1 b1 x := by
  classical exact runLen_pos _ _

/-- `pos` names only pairs that meet, also where an earlier call left it. -/
def PosOk (a b : List Link) (rare : Option Nat → Prop) (pos : Nat → Pos) : Prop :=
  ∀ j, (pos j).len ≠ 0 → ∃ i, (pos j).pos = some i ∧ Meets (classAt a) (classAt b) rare i j

/-- The loops of `longest_match` when they have looked at the pairs `seen`: `pos` holds the last pair
of each line of `b`, and the best match is the first of the longest. -/
structure Scanned (a b : List Link) (rare : Option Nat → Prop) (a1 b1 : Nat) (st : MatchState)
    (seen : List (Nat × Nat)) : Prop where
  pos : PosOk a b rare st.pos
  last : ∀ i j, (i, j) ∈ seen → (∀ i', (i', j) ∈ seen → i' ≤ i) →
    st.pos j = ⟨some i, matchLen a b rare a1 b1 (i, j)⟩
  best : seen = [] ∧ st.mi = a1 ∧ st.mj = b1 ∧ st.mk = 0 ∨
    (st.mi, st.mj) ∈ seen ∧ st.mk = matchLen a b rare a1 b1 (st.mi, st.mj) ∧
      ∀ x ∈ seen, matchLen a b rare a1 b1 x ≤ st.mk ∧
        (Before x (st.mi, st.mj) → matchLen a b rare a1 b1 x < st.mk)

theorem mem_seen {seen rest : List (Nat × Nat)} {x y : Nat × Nat}
    (hsorted : (seen ++ y :: rest).Pairwise Before) (hx : x ∈ seen ++ y :: rest) (hxy : Before x y) :
    x ∈ seen := by
  rcases List.mem_append.mp hx with hseen | hx
  · exact hseen
  · exfalso
    unfold Before at hxy
    rcases List.mem_cons.mp hx with rfl | hrest
    · omega
    · have hyx := (List.pairwise_cons.mp (List.pairwise_append.mp hsorted).2.1).1 x hrest
      unfold Before at hyx
      omega

/-- The length that the inner loop computes. -/
theorem Scanned.matchLen_eq {st : MatchState} {seen rest : List (Nat × Nat)} {i j : Nat}
    (hs : Scanned a b rare a1 b1 st seen) (hl : LinksMeet a b rare)
    (hall : visits a b a1 a2 b1 b2 = seen ++ (i, j) :: rest) :
    (if i > a1 ∧ j > b1 ∧ (st.pos (j - 1)).pos = some (i - 1) then (st.pos (j - 1)).len + 1 else 1) =
      matchLen a b rare a1 b1 (i, j) := by
  have hsorted := hl.visits_sorted a1 a2 b1 b2
  have hij : (i, j) ∈ visits a b a1 a2 b1 b2 := by
    rw [hall]
    simp
  obtain ⟨hi, hj, -⟩ := hl.mem_visits.mp hij
  have hseen : ∀ p q, Before (p, q) (i, j) → a1 ≤ p → b1 ≤ q → p < a2 → q < b2 →
      Meets (classAt a) (classAt b) rare p q → (p, q) ∈ seen := by
    intro p q hbef hp hq hp2 hq2 hmeet
    have hmem : (p, q) ∈ visits a b a1 a2 b1 b2 := hl.mem_visits.mpr ⟨⟨hp, hp2⟩, ⟨hq, hq2⟩, hmeet⟩
    rw [hall] at hsorted hmem
    exact mem_seen hsorted hmem hbef
  have hrow : ∀ p q, (p, q) ∈ seen → p ≤ i ∧ Meets (classAt a) (classAt b) rare p q := by
    intro p q hpq
    have hmem : (p, q) ∈ visits a b a1 a2 b1 b2 := by
      rw [hall]
      exact List.mem_append_left _ hpq
    rw [hall] at hsorted
    have hbef := (List.pairwise_append.mp hsorted).2.2 _ hpq (i, j) List.mem_cons_self
    unfold Before at hbef
    exact ⟨by omega, (hl.mem_visits.mp hmem).2.2⟩
  rw [matchLen]
  cases i with
  | zero => rw [if_neg (by omega), runLen]
  | succ i =>
    cases j with
    | zero =>
      rw [if_neg (by omega), runLen]
      omega
    | succ j =>
      rw [runLen, Nat.add_sub_cancel, Nat.add_sub_cancel]
      by_cases hin : a1 ≤ i ∧ b1 ≤ j
      · obtain ⟨hai, hbj⟩ := hin
        by_cases hsame : Meets (classAt a) (classAt b) rare (i + 1) j
        · -- the round of this line has already overwritten the entry
          have hmem := hseen (i + 1) j (.inr ⟨rfl, Nat.lt_succ_self j⟩) hi.1 hbj hi.2 (by omega) hsame
          have hpos := hs.last (i + 1) j hmem (fun p hp => (hrow p j hp).1)
          rw [hpos, if_neg, if_neg]
          · exact fun h => h.2.2.2 hsame
          · rintro ⟨-, -, heq⟩
            have := Option.some.inj heq
            omega
        · by_cases hprev : Meets (classAt a) (classAt b) rare i j
          · have hmem := hseen i j (.inl (Nat.lt_succ_self i)) hai hbj (by omega) (by omega) hprev
            have hpos := hs.last i j hmem (by
              intro p hp
              have hp' := hrow p j hp
              by_contra hgt
              have hpi : p = i + 1 := by omega
              exact hsame (hpi ▸ hp'.2))
            rw [hpos, if_pos ⟨by omega, by omega, rfl⟩, if_pos ⟨hai, hbj, hprev, hsame⟩]
            rfl
          · rw [if_neg (show ¬ (a1 ≤ i ∧ b1 ≤ j ∧ Meets _ _ rare i j ∧ _) from fun h => hprev h.2.2.1)]
            split_ifs with hold
            · -- an entry of an earlier call for this pair would say that it meets
              by_contra hne
              obtain ⟨p, hp, hmeet⟩ := hs.pos j (by omega)
              rw [hp] at hold
              obtain rfl := Option.some.inj hold.2.2
              exact hprev hmeet
            · rfl
      · rw [if_neg, if_neg]
        · exact fun h => hin ⟨h.1, h.2.1⟩
        · exact fun h => hin ⟨by omega, by omega⟩

/-- One round of the inner loop. -/
theorem Scanned.round {st : MatchState} {seen rest : List (Nat × Nat)} {i j : Nat}
    (hs : Scanned a b rare a1 b1 st seen) (hl : LinksMeet a b rare)
    (hall : visits a b a1 a2 b1 b2 = seen ++ (i, j) :: rest) :
    Scanned a b rare a1 b1 (matchRound a1 b1 i st j) (seen ++ [(i, j)]) := by
  have hsorted := hl.visits_sorted a1 a2 b1 b2
  rw [hall] at hsorted
  have hbefore : ∀ x ∈ seen, Before x (i, j) := fun x hx =>
    (List.pairwise_append.mp hsorted).2.2 x hx (i, j) List.mem_cons_self
  have hmeet : Meets (classAt a) (classAt b) rare i j := by
    have hmem : (i, j) ∈ visits a b a1 a2 b1 b2 := by
      rw [hall]
      simp
    exact (hl.mem_visits.mp hmem).2.2
  have hk := hs.matchLen_eq hl hall
  rw [matchRound]
  simp only [hk]
  have hpos : PosOk a b rare (Function.update st.pos j ⟨some i, matchLen a b rare a1 b1 (i, j)⟩) := by
    intro q hq
    by_cases hqj : q = j
    · subst hqj
      rw [Function.update_self]
      exact ⟨i, rfl, hmeet⟩
    · rw [Function.update_of_ne hqj] at hq ⊢
      exact hs.pos q hq
  have hlast : ∀ p q, (p, q) ∈ seen ++ [(i, j)] → (∀ p', (p', q) ∈ seen ++ [(i, j)] → p' ≤ p) →
      Function.update st.pos j ⟨some i, matchLen a b rare a1 b1 (i, j)⟩ q =
        ⟨some p, matchLen a b rare a1 b1 (p, q)⟩ := by
    intro p q hmem hmax
    by_cases hqj : q = j
    · subst hqj
      have hge := hmax i (by simp)
      have hpi : p = i := by
        rcases List.mem_append.mp hmem with hseen | hnew
        · rcases hbefore _ hseen with hlt | ⟨heq, _⟩
          · change p < i at hlt
            omega
          · exact heq
        · cases List.mem_singleton.mp hnew
          rfl
      rw [Function.update_self, hpi]
    · rw [Function.update_of_ne hqj]
      apply hs.last p q
      · rcases List.mem_append.mp hmem with hseen | hnew
        · exact hseen
        · cases List.mem_singleton.mp hnew
          exact absurd rfl hqj
      · intro p' hp'
        exact hmax p' (List.mem_append_left _ hp')
  have hkpos := matchLen_pos a b rare a1 b1 (i, j)
  split_ifs with hbest
  · refine ⟨hpos, hlast, .inr ⟨by simp, rfl, ?_⟩⟩
    intro x hx
    rcases List.mem_append.mp hx with hseen | hnew
    · have hle : matchLen a b rare a1 b1 x ≤ st.mk := by
        rcases hs.best with ⟨hnil, -⟩ | ⟨-, -, hmax⟩
        · rw [hnil] at hseen
          cases hseen
        · exact (hmax x hseen).1
      exact ⟨by show _ ≤ matchLen _ _ _ _ _ _; omega, fun _ => by show _ < matchLen _ _ _ _ _ _; omega⟩
    · rw [List.mem_singleton.mp hnew]
      refine ⟨Nat.le_refl _, fun hself => ?_⟩
      unfold Before at hself
      dsimp only at hself
      omega
  · refine ⟨hpos, hlast, .inr ?_⟩
    rcases hs.best with ⟨-, -, -, hzero⟩ | ⟨hmem, hlen, hmax⟩
    · omega
    · refine ⟨List.mem_append_left _ hmem, hlen, ?_⟩
      intro x hx
      rcases List.mem_append.mp hx with hseen | hnew
      · exact hmax x hseen
      · rw [List.mem_singleton.mp hnew]
        refine ⟨Nat.le_of_not_lt hbest, fun hself => ?_⟩
        have hfirst := hbefore _ hmem
        unfold Before at hself hfirst
        dsimp only at hself hfirst
        omega

theorem Scanned.run {st : MatchState} {seen rest : List (Nat × Nat)} (a2 b2 : Nat)
    (hs : Scanned a b rare a1 b1 st seen) (hl : LinksMeet a b rare)
    (hall : visits a b a1 a2 b1 b2 = seen ++ rest) :
    Scanned a b rare a1 b1 (rest.foldl (fun st x => matchRound a1 b1 x.1 st x.2) st)
      (visits a b a1 a2 b1 b2) := by
  induction rest generalizing st seen with
  | nil =>
    rw [List.append_nil] at hall
    rw [hall]
    exact hs
  | cons x rest ih =>
    rw [List.foldl_cons]
    apply ih (hs.round hl hall)
    rw [hall, List.append_assoc]
    rfl

/-- A block of equal lines, with no copy of itself beside it that starts earlier. -/
structure FirstBlock (a b : List Link) (a1 a2 b1 b2 i j k : Nat) : Prop where
  startA : a1 ≤ i
  startB : b1 ≤ j
  endA : i + k ≤ a2
  endB : j + k ≤ b2
  same : ∀ d < k, classAt a (i + d) = classAt b (j + d)
  first : ∀ i' j', a1 ≤ i' → b1 ≤ j' → (i' = i ∧ j' < j ∨ i' < i ∧ j' = j) →
    ∃ d < k, classAt a (i' + d) ≠ classAt b (j' + d)

/-- The best match of a scan, from its first pair on. -/
theorem Scanned.firstBlock {st : MatchState}
    (hs : Scanned a b rare a1 b1 st (visits a b a1 a2 b1 b2)) (hl : LinksMeet a b rare) (ha : a1 ≤ a2)
    (hb : b1 ≤ b2) :
    FirstBlock a b a1 a2 b1 b2 (if st.mk > 0 then st.mi + 1 - st.mk else st.mi)
      (if st.mk > 0 then st.mj + 1 - st.mk else st.mj) st.mk := by
  rcases hs.best with ⟨-, hmi, hmj, hmk⟩ | ⟨hmem, hmk, hmax⟩
  · rw [hmi, hmj, hmk]
    refine ⟨Nat.le_refl _, Nat.le_refl _, ha, hb, ?_, ?_⟩
    · intro d hd
      omega
    · intro i' j' hi hj hside
      rw [if_neg (Nat.lt_irrefl 0), if_neg (Nat.lt_irrefl 0)] at hside
      omega
  · have hpos := matchLen_pos a b rare a1 b1 (st.mi, st.mj)
    obtain ⟨hi, hj, hmeet⟩ := hl.mem_visits.mp hmem
    classical
    obtain ⟨p, q, hp, hq, hap, hbq, hrun⟩ :=
      runLen_run (classAt a) (classAt b) rare hi.1 hj.1
    have hlen : runLen (classAt a) (classAt b) rare a1 b1 st.mi st.mj = st.mk := hmk.symm
    rw [hlen] at hp hq hrun
    rw [if_pos (by omega), if_pos (by omega), hp, hq, Nat.add_sub_cancel, Nat.add_sub_cancel]
    have hlast : ∀ d, d + 1 = st.mk → Meets (classAt a) (classAt b) rare (p + d) (q + d) := by
      intro d hd
      rwa [show p + d = st.mi by omega, show q + d = st.mj by omega]
    refine ⟨hap, hbq, by omega, by omega, ?_, ?_⟩
    · intro d hd
      by_cases hl' : d + 1 = st.mk
      · exact (hlast d hl').2
      · exact (hrun.meets d (by omega)).2
    · intro p' q' hp' hq' hside
      by_contra hnone
      have hcopy : ∀ d < st.mk, classAt a (p' + d) = classAt b (q' + d) := by
        intro d hd
        by_contra hne
        exact hnone ⟨d, hd, hne⟩
      obtain ⟨hrun', hmeet'⟩ := hrun.parallel hlast hcopy (by omega)
      -- the copy ends at a pair that was looked at before and is as long
      have hend : (p' + (st.mk - 1), q' + (st.mk - 1)) ∈ visits a b a1 a2 b1 b2 :=
        hl.mem_visits.mpr ⟨by omega, by omega, hmeet' (st.mk - 1) (by omega)⟩
      have hless := (hmax _ hend).2 (by
        unfold Before
        dsimp only
        omega)
      have hge : st.mk ≤ matchLen a b rare a1 b1 (p' + (st.mk - 1), q' + (st.mk - 1)) :=
        hrun'.le_runLen hp' hq' (by omega) (by omega)
      omega

theorem countWhile_spec (p : Nat → Bool) (fuel k : Nat) (hstop : p (k + fuel) = false) :
    k ≤ countWhile p fuel k ∧ (∀ d, k ≤ d → d < countWhile p fuel k → p d = true) ∧
      p (countWhile p fuel k) = false := by
  induction fuel generalizing k with
  | zero => exact ⟨Nat.le_refl k, fun d hk hd => absurd hd (Nat.not_lt.mpr hk), hstop⟩
  | succ fuel ih =>
    rw [countWhile]
    split_ifs with hk
    · obtain ⟨hle, hall, hend⟩ := ih (k + 1) (by rwa [Nat.add_right_comm, Nat.add_assoc])
      refine ⟨by omega, ?_, hend⟩
      intro d hkd hd
      by_cases heq : d = k
      · rwa [heq]
      · exact hall d (by omega) hd
    · exact ⟨Nat.le_refl k, fun d hkd hd => absurd hd (Nat.not_lt.mpr hkd), by simpa using hk⟩

/-- What `longest_match` finds: the block can be extended on neither side. -/
structure MatchBlock (a b : List Link) (a1 a2 b1 b2 i j k : Nat) : Prop
    extends FirstBlock a b a1 a2 b1 b2 i j k where
  ahead : i + k < a2 → j + k < b2 → classAt a (i + k) ≠ classAt b (j + k)
  behind : ∀ i' j', i = i' + 1 → j = j' + 1 → a1 ≤ i' → b1 ≤ j' → classAt a i' ≠ classAt b j'

/-- A first block stays one when it is extended by equal lines before and behind it. -/
theorem FirstBlock.extend {mi mj mk mb mk' : Nat} (h : FirstBlock a b a1 a2 b1 b2 mi mj mk)
    (hback : ∀ d < mb, mi - d > a1 ∧ mj - d > b1 ∧ classAt a (mi - d - 1) = classAt b (mj - d - 1))
    (hbehind : ¬ (mi - mb > a1 ∧ mj - mb > b1 ∧ classAt a (mi - mb - 1) = classAt b (mj - mb - 1)))
    (hmk : mk ≤ mk')
    (hforth : ∀ d, mk ≤ d → d < mk' →
      mi + d < a2 ∧ mj + d < b2 ∧ classAt a (mi + d) = classAt b (mj + d))
    (hahead : ¬ (mi + mk' < a2 ∧ mj + mk' < b2 ∧ classAt a (mi + mk') = classAt b (mj + mk'))) :
    MatchBlock a b a1 a2 b1 b2 (mi - mb) (mj - mb) (mk' + mb) := by
  have hstartA := h.startA
  have hstartB := h.startB
  have hendA := h.endA
  have hendB := h.endB
  have hmb : a1 + mb ≤ mi ∧ b1 + mb ≤ mj := by
    cases mb with
    | zero => exact ⟨hstartA, hstartB⟩
    | succ mb =>
      have hd := hback mb (Nat.lt_succ_self mb)
      omega
  have hend : mi + mk' ≤ a2 ∧ mj + mk' ≤ b2 := by
    by_cases hk : mk' = mk
    · rw [hk]
      exact ⟨hendA, hendB⟩
    · have hd := hforth (mk' - 1) (by omega) (by omega)
      omega
  refine ⟨⟨by omega, by omega, by omega, by omega, ?_, ?_⟩, ?_, ?_⟩
  · intro d hd
    by_cases hlow : d < mb
    · have hsame := (hback (mb - 1 - d) (by omega)).2.2
      rwa [show mi - (mb - 1 - d) - 1 = mi - mb + d by omega,
        show mj - (mb - 1 - d) - 1 = mj - mb + d by omega] at hsame
    · have hmid : mi - mb + d = mi + (d - mb) ∧ mj - mb + d = mj + (d - mb) := by omega
      rw [hmid.1, hmid.2]
      by_cases hk : d - mb < mk
      · exact h.same (d - mb) hk
      · exact (hforth (d - mb) (by omega) (by omega)).2.2
  · intro i' j' hi hj hside
    obtain ⟨d, hd, hne⟩ := h.first (i' + mb) (j' + mb) (by omega) (by omega) (by omega)
    refine ⟨mb + d, by omega, ?_⟩
    rwa [← Nat.add_assoc, ← Nat.add_assoc]
  · intro hi hj hsame
    apply hahead
    refine ⟨by omega, by omega, ?_⟩
    rwa [show mi - mb + (mk' + mb) = mi + mk' by omega,
      show mj - mb + (mk' + mb) = mj + mk' by omega] at hsame
  · intro i' j' hi hj hai hbj hsame
    apply hbehind
    refine ⟨by omega, by omega, ?_⟩
    rwa [hi, hj]

theorem FirstBlock.expand {mi mj mk : Nat} (h : FirstBlock a b a1 a2 b1 b2 mi mj mk) :
    MatchBlock a b a1 a2 b1 b2
      (mi - countWhile (fun mb => mi - mb > a1 ∧ mj - mb > b1 ∧
        sameClass a b (mi - mb - 1) (mj - mb - 1)) mi 0)
      (mj - countWhile (fun mb => mi - mb > a1 ∧ mj - mb > b1 ∧
        sameClass a b (mi - mb - 1) (mj - mb - 1)) mi 0)
      (countWhile (fun mk => mi + mk < a2 ∧ mj + mk < b2 ∧ sameClass a b (mi + mk) (mj + mk)) a2 mk +
        countWhile (fun mb => mi - mb > a1 ∧ mj - mb > b1 ∧
          sameClass a b (mi - mb - 1) (mj - mb - 1)) mi 0) := by
  obtain ⟨-, hback, hbehind⟩ := countWhile_spec (fun mb => mi - mb > a1 ∧ mj - mb > b1 ∧
    sameClass a b (mi - mb - 1) (mj - mb - 1)) mi 0 (by simp)
  obtain ⟨hmk, hforth, hahead⟩ := countWhile_spec (fun mk => mi + mk < a2 ∧ mj + mk < b2 ∧
    sameClass a b (mi + mk) (mj + mk)) a2 mk (by simp; omega)
  have hsame : ∀ i j, sameClass a b i j = true ↔ classAt a i = classAt b j := by
    intro i j
    exact decide_eq_true_iff
  apply h.extend _ _ hmk
  · intro d hk hd
    have hd' := hforth d hk hd
    rwa [decide_eq_true_eq, hsame] at hd'
  · rwa [decide_eq_false_iff_not, hsame] at hahead
  · intro d hd
    have hd' := hback d (Nat.zero_le d) hd
    rwa [decide_eq_true_eq, hsame] at hd'
  · rwa [decide_eq_false_iff_not, hsame] at hbehind

theorem longestMatch_block {pos : Nat → Pos} (hl : LinksMeet a b rare) (hpos : PosOk a b rare pos)
    (ha : a1 ≤ a2) (hb : b1 ≤ b2) :
    ∃ i j k pos', longestMatch a b pos a1 a2 b1 b2 = (i, j, k, pos') ∧ PosOk a b rare pos' ∧
      MatchBlock a b a1 a2 b1 b2 i j k := by
  have hinit : Scanned a b rare a1 b1 ⟨pos, a1, b1, 0⟩ [] :=
    ⟨hpos, fun i j h => absurd h List.not_mem_nil, .inl ⟨rfl, rfl, rfl, rfl⟩⟩
  have hs := Scanned.run a2 b2 hinit hl (List.nil_append _).symm
  rw [← foldl_visits] at hs
  have hcore := hs.firstBlock hl ha hb
  exact ⟨_, _, _, _, rfl, hs.pos, hcore.expand⟩

end

/-- A hunk of equal lines in a part of the two files. -/
structure HunkIn (a b : List Link) (a1 a2 b1 b2 : Nat) (h : Hunk) : Prop where
  startA : a1 ≤ h.a1
  startB : b1 ≤ h.b1
  some : h.a1 < h.a2
  size : h.b2 + h.a1 = h.a2 + h.b1
  endA : h.a2 ≤ a2
  endB : h.b2 ≤ b2
  same : ∀ d, h.a1 + d < h.a2 → classAt a (h.a1 + d) = classAt b (h.b1 + d)

/-- The hunk `y` comes behind `x`. Where they touch, the lines behind `x` differ before `y` ends. -/
structure Follows (a b : List Link) (x y : Hunk) : Prop where
  orderA : x.a2 ≤ y.a1
  orderB : x.b2 ≤ y.b1
  stops : x.a2 = y.a1 ∨ x.b2 = y.b1 →
    ∃ d, y.a1 + d < y.a2 ∧ classAt a (x.a2 + d) ≠ classAt b (x.b2 + d)

section

variable {a b : List Link} {a1 a2 b1 b2 i j k : Nat} {h : Hunk}

theorem MatchBlock.hunkIn (hm : MatchBlock a b a1 a2 b1 b2 i j k) (hk : 0 < k) :
    HunkIn a b a1 a2 b1 b2 ⟨i, i + k, j, j + k⟩ := by
  refine ⟨hm.startA, hm.startB, ?_, ?_, hm.endA, hm.endB, ?_⟩
  · show i < i + k
    omega
  · show j + k + i = i + k + j
    omega
  · intro d hd
    exact hm.same d (Nat.lt_of_add_lt_add_left hd)

/-- A hunk before the block: a copy of the block there would have been found first. -/
theorem MatchBlock.follows_left (hm : MatchBlock a b a1 a2 b1 b2 i j k) (hh : HunkIn a b a1 i b1 j h) :
    Follows a b h ⟨i, i + k, j, j + k⟩ := by
  have hsome := hh.some
  have hsize := hh.size
  have hsA := hh.startA
  have hsB := hh.startB
  have heA := hh.endA
  have heB := hh.endB
  refine ⟨heA, heB, ?_⟩
  intro htouch
  change h.a2 = i ∨ h.b2 = j at htouch
  have hside : h.a2 = i ∧ h.b2 < j ∨ h.a2 < i ∧ h.b2 = j := by
    by_contra hboth
    have hends : h.a2 = i ∧ h.b2 = j := by omega
    apply hm.behind (h.a2 - 1) (h.b2 - 1) (by omega) (by omega) (by omega) (by omega)
    have hsame := hh.same (h.a2 - 1 - h.a1) (by omega)
    rwa [show h.a1 + (h.a2 - 1 - h.a1) = h.a2 - 1 by omega,
      show h.b1 + (h.a2 - 1 - h.a1) = h.b2 - 1 by omega] at hsame
  obtain ⟨d, hd, hne⟩ := hm.first h.a2 h.b2 (by omega) (by omega) hside
  exact ⟨d, by show i + d < i + k; omega, hne⟩

/-- A hunk behind the block, which could not be extended. -/
theorem MatchBlock.follows_right (hm : MatchBlock a b a1 a2 b1 b2 i j k)
    (hh : HunkIn a b (i + k) a2 (j + k) b2 h) : Follows a b ⟨i, i + k, j, j + k⟩ h := by
  have hsome := hh.some
  have hsize := hh.size
  have hsA := hh.startA
  have hsB := hh.startB
  have heA := hh.endA
  have heB := hh.endB
  refine ⟨hsA, hsB, fun _ => ⟨0, hsome, ?_⟩⟩
  exact hm.ahead (by omega) (by omega)

theorem HunkIn.widen {a1' a2' b1' b2' : Nat} (hh : HunkIn a b a1' a2' b1' b2' h) (ha1 : a1 ≤ a1')
    (ha2 : a2' ≤ a2) (hb1 : b1 ≤ b1') (hb2 : b2' ≤ b2) : HunkIn a b a1 a2 b1 b2 h :=
  ⟨Nat.le_trans ha1 hh.startA, Nat.le_trans hb1 hh.startB, hh.some, hh.size,
    Nat.le_trans hh.endA ha2, Nat.le_trans hh.endB hb2, hh.same⟩

end

/-- The hunks that `recurse` appends. -/
theorem recurse_hunks {a b : List Link} {rare : Option Nat → Prop} (hl : LinksMeet a b rare)
    (fuel : Nat) {a1 a2 b1 b2 : Nat} {pos : Nat → Pos} (hpos : PosOk a b rare pos) (ha : a1 ≤ a2)
    (hb : b1 ≤ b2) (hfuel : a2 - a1 < fuel) :
    ∃ hunks pos', recurse a b fuel pos a1 a2 b1 b2 = some (hunks, pos') ∧ PosOk a b rare pos' ∧
      (∀ h ∈ hunks, HunkIn a b a1 a2 b1 b2 h) ∧ hunks.IsChain (Follows a b) := by
  induction fuel generalizing pos a1 a2 b1 b2 with
  | zero => omega
  | succ fuel ih =>
    obtain ⟨i, j, k, pos1, hmatch, hpos1, hm⟩ := longestMatch_block hl hpos ha hb
    rw [recurse, hmatch]
    dsimp only
    by_cases hk : k = 0
    · rw [if_pos hk]
      exact ⟨[], pos1, rfl, hpos1, fun h hh => absurd hh List.not_mem_nil, List.isChain_nil⟩
    · have hsA := hm.startA
      have hsB := hm.startB
      have heA := hm.endA
      have heB := hm.endB
      obtain ⟨left, pos2, hleft, hpos2, hinL, hchainL⟩ := ih hpos1 hsA hsB (by omega)
      obtain ⟨right, pos3, hright, hpos3, hinR, hchainR⟩ := ih hpos2 heA heB (by omega)
      rw [if_neg hk, hleft]
      simp only [Option.bind_eq_bind, Option.bind_some, hright]
      refine ⟨_, pos3, rfl, hpos3, ?_, ?_⟩
      · intro h hh
        rcases List.mem_append.mp hh with hh | hh
        · exact (hinL h hh).widen (Nat.le_refl _) (by omega) (Nat.le_refl _) (by omega)
        · rcases List.mem_cons.mp hh with rfl | hh
          · exact hm.hunkIn (by omega)
          · exact (hinR h hh).widen (by omega) (Nat.le_refl _) (by omega) (Nat.le_refl _)
      · rw [List.isChain_append, List.isChain_cons]
        refine ⟨hchainL, ⟨?_, hchainR⟩, ?_⟩
        · intro y hy
          exact hm.follows_right (hinR y (List.mem_of_mem_head? hy))
        · intro x hx y hy
          obtain rfl := Option.some.inj hy
          exact hm.follows_left (hinL x (List.mem_of_mem_getLast? hx))

end Radare
