import Mathlib.Data.List.Chain
import Radare.Util.RListRemove

namespace Radare

open Framework

variable {α : Type} {h : ListMem α} {l : RList} {xs post : List (Nat × α)} {c : Cells α}
  {p : Option Nat} {cmp : α → α → Int}

/-- A comparator that orders all elements, possibly with ties. -/
structure TotalPreorder (cmp : α → α → Int) : Prop where
  total : ∀ x y, cmp x y ≤ 0 ∨ cmp y x ≤ 0
  trans : ∀ x y z, cmp x y ≤ 0 → cmp y z ≤ 0 → cmp x z ≤ 0

theorem TotalPreorder.le_of_gt (ho : TotalPreorder cmp) {x y : α} (h : cmp x y > 0) : cmp y x ≤ 0 := by
  rcases ho.total x y with h' | h'
  · omega
  · exact h'

/-- The order of two nodes by their data. -/
def nodeLe (cmp : α → α → Int) (x y : Nat × α) : Bool := decide (cmp x.2 y.2 ≤ 0)

/-- Chains on the same nodes, one after a routine that touches no others. -/
structure Resorts (c : Cells α) (xs : List (Nat × α)) (c' : Cells α) (p' : Option Nat)
    (zs : List (Nat × α)) : Prop where
  linked : Linked c' p' zs none
  perm : zs.Perm xs
  keeps : ∀ a, a ∉ addrs xs → c' a = c a

/-- The end of `_merge`: a node goes in front of a chain that is not empty. -/
theorem linkFront_spec {m : List (Nat × α)} {a : Nat} {d : α} {n0 p0 : Option Nat}
    (hm : Linked c p m none) (hnd : (addrs m).Nodup) (ha : a ∉ addrs m)
    (hcell : c a = some ⟨some d, n0, p0⟩) (hne : m ≠ []) :
    ∃ c', linkFront c a (firstPtr m none) = some ⟨c', some a⟩ ∧ Linked c' none ((a, d) :: m) none ∧
      ∀ b, b ≠ a → b ∉ addrs m → c' b = c b := by
  cases m with
  | nil => exact absurd rfl hne
  | cons z zs =>
    have hza : z.1 ≠ a := fun he => ha (by simp [he])
    have hs1 := storeNext_eq (v := some z.1) (show (c a).isSome by rw [hcell]; rfl)
    have hs2 := storePrev_eq (v := some a) ((setNext_isSome (a := a) (v := some z.1)).trans
      (hm.isSome (show z.1 ∈ addrs (z :: zs) by simp)))
    have hs3 := storePrev_eq (v := none) ((setPrev_isSome (a := z.1) (v := some a)).trans
      ((setNext_isSome (a := a) (v := some z.1)).trans (show (c a).isSome by rw [hcell]; rfl)))
    refine ⟨setPrev (setPrev (setNext c a (some z.1)) z.1 (some a)) a none, ?_, ⟨?_, ?_⟩, ?_⟩
    · simp only [linkFront, firstPtr_cons, Option.bind_eq_bind, Option.bind_some, hs1, hs2, hs3]
    · show setPrev _ a none a = _
      rw [setPrev_same, setPrev_other hza.symm, setNext_same, hcell]
      rfl
    · have h1 : Linked (setNext c a (some z.1)) p (z :: zs) none :=
        hm.congr (fun b hb => setNext_other (fun he : b = a => ha (he ▸ hb)))
      have h2 := h1.setFirst hnd (some a)
      exact h2.congr (fun b hb => setPrev_other (fun he : b = a => ha (he ▸ hb)))
    · intro b hb hbm
      rw [setPrev_other hb, setPrev_other (fun he : b = z.1 => hbm (by simp [he])), setNext_other hb]

theorem mergeNodes_none (fuel : Nat) (second : Option Nat) :
    mergeNodes cmp fuel c none second = some ⟨c, second⟩ := by
  cases fuel <;> rfl

theorem mergeNodes_some_none (fuel : Nat) (a : Nat) :
    mergeNodes cmp fuel c (some a) none = some ⟨c, some a⟩ := by
  cases fuel <;> rfl

theorem Resorts.mem_iff {c' : Cells α} {p' : Option Nat} {zs : List (Nat × α)}
    (hr : Resorts c xs c' p' zs) (a : Nat) : a ∈ addrs zs ↔ a ∈ addrs xs :=
  (hr.perm.map Prod.fst).mem_iff

theorem Resorts.nodup {c' : Cells α} {p' : Option Nat} {zs : List (Nat × α)}
    (hr : Resorts c xs c' p' zs) (hnd : (addrs xs).Nodup) : (addrs zs).Nodup :=
  (hr.perm.map Prod.fst).nodup_iff.mpr hnd

/-- One node of a merge put in front of the rest of it. -/
theorem Resorts.front {c' : Cells α} {p' : Option Nat} {ws zs : List (Nat × α)} {x : Nat × α}
    {n0 p0 : Option Nat} (hr : Resorts c ws c' p' zs) (hcell : c x.1 = some ⟨some x.2, n0, p0⟩)
    (hperm : (x :: ws).Perm xs) (hnd : (addrs xs).Nodup) (hne : ws ≠ []) :
    ∃ c'', linkFront c' x.1 (firstPtr zs none) = some ⟨c'', some x.1⟩ ∧
      Resorts c xs c'' none (x :: zs) := by
  have hnd' : (addrs (x :: ws)).Nodup := (hperm.map Prod.fst).nodup_iff.mpr hnd
  rw [addrs_cons, List.nodup_cons] at hnd'
  have hx : x.1 ∉ addrs zs := fun hin => hnd'.1 ((hr.mem_iff x.1).mp hin)
  have hzs : zs ≠ [] := by
    rintro rfl
    exact hne (List.nil_perm.mp hr.perm)
  obtain ⟨c'', hlf, hlink, hkeep⟩ := linkFront_spec hr.linked (hr.nodup hnd'.2) hx
    ((hr.keeps x.1 hnd'.1).trans hcell) hzs
  refine ⟨c'', hlf, hlink, (hr.perm.cons x).trans hperm, ?_⟩
  intro a ha
  have hout : a ∉ addrs (x :: ws) := fun hin => ha ((hperm.map Prod.fst).mem_iff.mp hin)
  rw [addrs_cons, List.mem_cons, not_or] at hout
  rw [hkeep a hout.1 (fun hin => hout.2 ((hr.mem_iff a).mp hin)), hr.keeps a hout.2]

theorem mergeNodes_spec (cmp : α → α → Int) (fuel : Nat) {ys : List (Nat × α)} {q : Option Nat}
    (hx : Linked c p xs none) (hy : Linked c q ys none) (hnd : (addrs (xs ++ ys)).Nodup)
    (hf : xs.length + ys.length ≤ fuel + 1) :
    ∃ c' p', mergeNodes cmp fuel c (firstPtr xs none) (firstPtr ys none) =
        some ⟨c', firstPtr (xs.merge ys (nodeLe cmp)) none⟩ ∧
      Resorts c (xs ++ ys) c' p' (xs.merge ys (nodeLe cmp)) ∧
      (xs ≠ [] → ys ≠ [] → p' = none) := by
  induction fuel generalizing xs ys p q with
  | zero =>
    cases xs with
    | nil =>
      rw [List.nil_merge, firstPtr_nil, mergeNodes_none]
      exact ⟨c, q, rfl, ⟨hy, List.Perm.refl _, fun _ _ => rfl⟩, fun h => absurd rfl h⟩
    | cons x xs =>
      cases ys with
      | nil =>
        rw [List.merge_right, firstPtr_cons, firstPtr_nil, mergeNodes_some_none, List.append_nil]
        exact ⟨c, p, rfl, ⟨hx, List.Perm.refl _, fun _ _ => rfl⟩, fun _ h => absurd rfl h⟩
      | cons y ys =>
        simp only [List.length_cons] at hf
        omega
  | succ fuel ih =>
    cases xs with
    | nil =>
      rw [List.nil_merge, firstPtr_nil, mergeNodes_none]
      exact ⟨c, q, rfl, ⟨hy, List.Perm.refl _, fun _ _ => rfl⟩, fun h => absurd rfl h⟩
    | cons x xs =>
      cases ys with
      | nil =>
        rw [List.merge_right, firstPtr_cons, firstPtr_nil, mergeNodes_some_none, List.append_nil]
        exact ⟨c, p, rfl, ⟨hx, List.Perm.refl _, fun _ _ => rfl⟩, fun _ h => absurd rfl h⟩
      | cons y ys =>
        simp only [List.length_cons] at hf
        have hstep : mergeNodes cmp (fuel + 1) c (firstPtr (x :: xs) none) (firstPtr (y :: ys) none) =
            if cmp x.2 y.2 > 0 then
              (mergeNodes cmp fuel c (firstPtr (x :: xs) none) (firstPtr ys none)).bind
                (fun r => linkFront r.cells y.1 r.ptr)
            else (mergeNodes cmp fuel c (firstPtr xs none) (firstPtr (y :: ys) none)).bind
                (fun r => linkFront r.cells x.1 r.ptr) := by
          rw [firstPtr_cons, firstPtr_cons, mergeNodes, hx.1, hy.1]
          rfl
        rw [hstep, List.cons_merge_cons]
        by_cases hgt : cmp x.2 y.2 > 0
        · rw [if_pos hgt, if_neg (by simp only [nodeLe, decide_eq_true_eq]; omega)]
          have hperm : (y :: (x :: xs ++ ys)).Perm (x :: xs ++ y :: ys) := List.perm_middle.symm
          have hnd' := (hperm.map Prod.fst).nodup_iff.mpr hnd
          obtain ⟨c', p', hm, hr, _⟩ := ih hx hy.2 (List.nodup_cons.mp hnd').2
            (by simp only [List.length_cons]; omega)
          obtain ⟨c'', hlf, hr'⟩ := hr.front hy.1 hperm hnd (by simp)
          rw [hm]
          exact ⟨c'', none, hlf, hr', fun _ _ => rfl⟩
        · rw [if_neg hgt, if_pos (by simp only [nodeLe, decide_eq_true_eq]; omega)]
          have hperm : (x :: (xs ++ y :: ys)).Perm (x :: xs ++ y :: ys) := List.Perm.refl _
          obtain ⟨c', p', hm, hr, _⟩ := ih hx.2 hy (List.nodup_cons.mp hnd).2
            (by simp only [List.length_cons]; omega)
          obtain ⟨c'', hlf, hr'⟩ := hr.front hx.1 hperm hnd (by simp)
          rw [hm]
          exact ⟨c'', none, hlf, hr', fun _ _ => rfl⟩

/-- `slow` stays behind `fast`, so it stops at a node with another one after it. -/
theorem halfSplitLoop_spec {s f : Nat × α} {m d : List (Nat × α)} {q : Option Nat} {fuel : Nat}
    (hs : Linked c p (s :: m) none) (hfast : Linked c q (f :: d) none) (hlen : d.length ≤ m.length)
    (hm : m ≠ []) (hf : d.length < 2 * fuel) :
    ∃ l1 s' m', s :: m = l1 ++ s' :: m' ∧ m' ≠ [] ∧ halfSplitLoop c fuel s.1 f.1 = some s'.1 := by
  induction fuel generalizing s f m d p q with
  | zero => omega
  | succ fuel ih =>
    cases d with
    | nil =>
      refine ⟨[], s, m, rfl, hm, ?_⟩
      rw [halfSplitLoop, hfast.1]
      rfl
    | cons b d =>
      cases d with
      | nil =>
        refine ⟨[], s, m, rfl, hm, ?_⟩
        rw [halfSplitLoop, hfast.1]
        show (c b.1).bind _ = _
        rw [hfast.2.1]
        rfl
      | cons f' d =>
        obtain ⟨m1, m2, rfl⟩ := List.exists_cons_of_ne_nil hm
        simp only [List.length_cons] at hlen hf
        have hm2 : m2 ≠ [] := by
          rintro rfl
          simp only [List.length_nil] at hlen
          omega
        obtain ⟨l1, s', m', hsplit, hne, hloop⟩ := ih hs.2 hfast.2.2 (by omega) hm2 (by omega)
        refine ⟨s :: l1, s', m', by rw [hsplit]; rfl, hne, ?_⟩
        rw [halfSplitLoop, hfast.1]
        show (c b.1).bind _ = _
        rw [hfast.2.1]
        show (c s.1).bind _ = _
        rw [hs.1]
        exact hloop

theorem halfSplit_spec (fuel : Nat) {x : Nat × α} (hx : Linked c p (x :: xs) none)
    (hnd : (addrs (x :: xs)).Nodup) (hne : xs ≠ []) (hf : xs.length < 2 * fuel) :
    ∃ l1 r1 c' q, x :: xs = (x :: l1) ++ r1 ∧ r1 ≠ [] ∧
      rListHalfSplit fuel c x.1 = some ⟨c', firstPtr r1 none⟩ ∧ Linked c' p (x :: l1) none ∧
      Linked c' q r1 none ∧ ∀ a, a ∉ addrs (x :: xs) → c' a = c a := by
  obtain ⟨l1, s, m, hsplit, hm, hloop⟩ := halfSplitLoop_spec hx hx (Nat.le_refl _) hne hf
  have hlink := hx
  rw [hsplit] at hlink hnd
  rw [List.append_cons] at hlink hnd
  rw [linked_append] at hlink
  rw [addrs_append, List.nodup_append] at hnd
  have hcell : c s.1 = some ⟨some s.2, firstPtr m none, lastPtr l1 p⟩ := (linked_append.mp hlink.1).2.1
  have hcut := hlink.1.setLast hnd.1 none
  rw [lastPtr_append] at hcut
  have hsm : s.1 ∈ addrs (l1 ++ [s]) := by simp
  have hrest : Linked (setNext c s.1 none) (lastPtr (l1 ++ [s]) p) m none := by
    apply hlink.2.congr
    intro a ha
    exact setNext_other (fun he : a = s.1 => hnd.2.2 s.1 hsm a ha he.symm)
  obtain ⟨l2, hl2⟩ : ∃ l2, l1 ++ [s] = x :: l2 := by
    cases l1 with
    | nil =>
      rw [List.nil_append] at hsplit
      rw [(List.cons.inj hsplit).1]
      exact ⟨[], rfl⟩
    | cons y ys =>
      rw [(List.cons.inj hsplit).1]
      exact ⟨ys ++ [s], rfl⟩
  refine ⟨l2, m, setNext c s.1 none, _, ?_, hm, ?_, ?_, hrest, ?_⟩
  · rw [← hl2, hsplit, List.append_cons]
  · have hstore := storeNext_eq (v := none) (show (c s.1).isSome by rw [hcell]; rfl)
    simp only [rListHalfSplit, hloop, Option.bind_eq_bind, Option.bind_some, hcell, hstore]
  · rw [← hl2]
    exact hcut
  · intro a ha
    refine setNext_other (fun he : a = s.1 => ha ?_)
    rw [hsplit, he]
    simp

theorem nodeLe_pairwise_merge (ho : TotalPreorder cmp) {ys : List (Nat × α)}
    (hx : xs.Pairwise (fun a b => cmp a.2 b.2 ≤ 0)) (hy : ys.Pairwise (fun a b => cmp a.2 b.2 ≤ 0)) :
    (xs.merge ys (nodeLe cmp)).Pairwise (fun a b => cmp a.2 b.2 ≤ 0) := by
  have htrans : ∀ a b c : Nat × α, nodeLe cmp a b → nodeLe cmp b c → nodeLe cmp a c := by
    intro a b c hab hbc
    simp only [nodeLe, decide_eq_true_eq] at hab hbc ⊢
    exact ho.trans _ _ _ hab hbc
  have htotal : ∀ a b : Nat × α, nodeLe cmp a b || nodeLe cmp b a := by
    intro a b
    simp only [nodeLe, Bool.or_eq_true, decide_eq_true_eq]
    exact ho.total a.2 b.2
  have hmerge := List.pairwise_merge htrans htotal xs ys (by simpa [nodeLe] using hx)
    (by simpa [nodeLe] using hy)
  simpa [nodeLe] using hmerge

/-- Neither of the two elements is greater. -/
def tied (cmp : α → α → Int) (x y : α) : Bool := decide (cmp x y ≤ 0) && decide (cmp y x ≤ 0)

/-- The nodes `zs` are those of `xs` in order, and tied ones are in the order that they had. -/
structure StableSort (cmp : α → α → Int) (xs zs : List (Nat × α)) : Prop where
  perm : zs.Perm xs
  ordered : zs.Pairwise (fun a b => cmp a.2 b.2 ≤ 0)
  stable : ∀ d, zs.filter (fun z => tied cmp d z.2) = xs.filter (fun z => tied cmp d z.2)

/-- A merge takes the tied elements of the first list before those of the second. -/
theorem filter_tied_merge (ho : TotalPreorder cmp) (d : α) {ys : List (Nat × α)}
    (hx : xs.Pairwise (fun a b => cmp a.2 b.2 ≤ 0)) :
    (xs.merge ys (nodeLe cmp)).filter (fun z => tied cmp d z.2) =
      xs.filter (fun z => tied cmp d z.2) ++ ys.filter (fun z => tied cmp d z.2) := by
  induction ys generalizing xs with
  | nil => simp
  | cons y ys ihy =>
    induction xs with
    | nil => simp
    | cons x xs ihx =>
      obtain ⟨hfirst, hrest⟩ := List.pairwise_cons.mp hx
      rw [List.cons_merge_cons]
      by_cases hle : cmp x.2 y.2 ≤ 0
      · rw [if_pos (by simpa [nodeLe] using hle), List.filter_cons, ihx hrest, List.filter_cons (x := x)]
        split_ifs <;> rfl
      · rw [if_neg (by simpa [nodeLe] using hle), List.filter_cons, ihy hx, List.filter_cons (x := y)]
        split_ifs with hy
        · -- everything in the first list is greater than `y`
          have hnone : (x :: xs).filter (fun z => tied cmp d z.2) = [] := by
            rw [List.filter_eq_nil_iff]
            intro z hz hd
            simp only [tied, Bool.and_eq_true, decide_eq_true_eq] at hy hd
            have hxz : cmp x.2 z.2 ≤ 0 := by
              rcases List.mem_cons.mp hz with rfl | hz
              · rcases ho.total z.2 z.2 with h | h <;> exact h
              · exact hfirst z hz
            exact hle (ho.trans _ _ _ hxz (ho.trans _ _ _ hd.2 hy.1))
          rw [hnone]
          rfl
        · rfl

theorem StableSort.merge (ho : TotalPreorder cmp) {l r zs ws : List (Nat × α)} (hl : StableSort cmp l zs)
    (hr : StableSort cmp r ws) (hperm : (zs.merge ws (nodeLe cmp)).Perm (zs ++ ws)) :
    StableSort cmp (l ++ r) (zs.merge ws (nodeLe cmp)) where
  perm := hperm.trans (hl.perm.append hr.perm)
  ordered := nodeLe_pairwise_merge ho hl.ordered hr.ordered
  stable d := by rw [filter_tied_merge ho d hl.ordered, hl.stable, hr.stable, List.filter_append]

theorem StableSort.short (hlen : xs.length ≤ 1) : StableSort cmp xs xs where
  perm := List.Perm.refl _
  ordered := by
    match xs with
    | [] => exact List.Pairwise.nil
    | [x] => exact List.pairwise_singleton _ _
  stable _ := rfl

theorem mergeSortNodes_spec (cmp : α → α → Int) {fuel : Nat} (hx : Linked c p xs none) (hnd : (addrs xs).Nodup)
    (hf : xs.length ≤ fuel) :
    ∃ c' p' zs, mergeSortNodes cmp fuel c (firstPtr xs none) = some ⟨c', firstPtr zs none⟩ ∧
      Resorts c xs c' p' zs ∧ (p = none → p' = none) ∧ (TotalPreorder cmp → StableSort cmp xs zs) := by
  induction fuel generalizing xs c p with
  | zero =>
    obtain rfl := List.eq_nil_of_length_eq_zero (Nat.le_zero.mp hf)
    exact ⟨c, p, [], rfl, ⟨hx, List.Perm.refl _, fun _ _ => rfl⟩, fun h => h, fun _ => .short (by simp)⟩
  | succ fuel ih =>
    cases xs with
    | nil =>
      exact ⟨c, p, [], rfl, ⟨hx, List.Perm.refl _, fun _ _ => rfl⟩, fun h => h, fun _ => .short (by simp)⟩
    | cons x xs =>
      cases xs with
      | nil =>
        refine ⟨c, p, [x], ?_, ⟨hx, List.Perm.refl _, fun _ _ => rfl⟩, fun h => h,
          fun _ => .short (by simp)⟩
        rw [firstPtr_cons, mergeSortNodes, hx.1]
        rfl
      | cons y ys =>
        simp only [List.length_cons] at hf
        obtain ⟨l1, r1, c1, q, hsplit, hr1, hhalf, hl, hr, hkeep⟩ := halfSplit_spec fuel hx hnd
          (by simp) (by simp only [List.length_cons]; omega)
        have hlen := congrArg List.length hsplit
        have hrpos := List.length_pos_iff.mpr hr1
        simp only [List.length_append, List.length_cons] at hlen
        rw [hsplit] at hnd
        have hdis := hnd
        rw [addrs_append, List.nodup_append] at hdis
        -- the first half, then the second half in what the first sort left
        obtain ⟨c2, p2, zs, hs2, hres2, _, hord2⟩ := ih hl hdis.1 (by simp only [List.length_cons]; omega)
        have hr' : Linked c2 q r1 none := by
          apply hr.congr
          intro a ha
          exact hres2.keeps a (fun hin => hdis.2.2 a hin a ha rfl)
        obtain ⟨c3, p3, ws, hs3, hres3, _, hord3⟩ := ih hr' hdis.2.1 (by omega)
        have hzs : Linked c3 p2 zs none := by
          apply hres2.linked.congr
          intro a ha
          exact hres3.keeps a (fun hin => hdis.2.2 a ((hres2.mem_iff a).mp ha) a hin rfl)
        have hperm : (zs ++ ws).Perm (x :: y :: ys) := by
          rw [hsplit]
          exact hres2.perm.append hres3.perm
        have hnd' : (addrs (zs ++ ws)).Nodup := by
          apply (hperm.map Prod.fst).nodup_iff.mpr
          rw [hsplit]
          exact hnd
        have hl2 := hres2.perm.length_eq
        have hl3 := hres3.perm.length_eq
        simp only [List.length_cons] at hl2
        obtain ⟨c4, p4, hm, hres4, hp4⟩ := mergeNodes_spec cmp fuel hzs hres3.linked hnd'
          (by omega)
        have hz0 : zs ≠ [] := List.ne_nil_of_length_pos (by omega)
        have hw0 : ws ≠ [] := List.ne_nil_of_length_pos (by omega)
        refine ⟨c4, p4, _, ?_, ⟨hres4.linked, hres4.perm.trans hperm, ?_⟩, fun _ => hp4 hz0 hw0, ?_⟩
        · have hstep : mergeSortNodes cmp (fuel + 1) c (firstPtr (x :: y :: ys) none) =
              (rListHalfSplit fuel c x.1).bind (fun s =>
                (mergeSortNodes cmp fuel s.cells (some x.1)).bind (fun r =>
                  (mergeSortNodes cmp fuel r.cells s.ptr).bind (fun t =>
                    mergeNodes cmp fuel t.cells r.ptr t.ptr))) := by
            rw [firstPtr_cons, mergeSortNodes, hx.1]
            rfl
          rw [hstep, hhalf]
          show (mergeSortNodes cmp fuel c1 (firstPtr (x :: l1) none)).bind _ = _
          rw [hs2]
          show (mergeSortNodes cmp fuel c2 (firstPtr r1 none)).bind _ = _
          rw [hs3]
          exact hm
        · intro a ha
          have hout : a ∉ addrs (x :: l1) ∧ a ∉ addrs r1 := by
            rw [hsplit, addrs_append, List.mem_append, not_or] at ha
            exact ha
          have hout' : a ∉ addrs (zs ++ ws) := fun hin => ha ((hperm.map Prod.fst).mem_iff.mp hin)
          rw [hres4.keeps a hout', hres3.keeps a hout.2, hres2.keeps a hout.1, hkeep a ha]
        · intro ho
          rw [hsplit]
          exact (hord2 ho).merge ho (hord3 ho) hres4.perm

theorem lastIter_spec {fuel : Nat} (hx : Linked c p xs none) (hf : xs.length ≤ fuel) :
    lastIter c fuel (firstPtr xs none) = some (lastPtr xs none) := by
  induction xs generalizing p fuel with
  | nil => cases fuel <;> rfl
  | cons x xs ih =>
    cases fuel with
    | zero => cases hf
    | succ fuel =>
      cases xs with
      | nil =>
        rw [firstPtr_cons, lastIter, hx.1]
        rfl
      | cons y ys =>
        rw [firstPtr_cons, lastIter, hx.1]
        exact ih hx.2 (Nat.le_of_succ_le_succ hf)

/-- One pass of `r_list_insertion_sort` leaves the least element in the node `a`. -/
theorem insertionInner_spec (cmp : α → α → Int) {l1 mid rest : List (Nat × α)} {a : Nat} {d : α}
    {fuel : Nat} (hx : Linked c p (l1 ++ (a, d) :: (mid ++ rest)) none)
    (hnd : (addrs (l1 ++ (a, d) :: (mid ++ rest))).Nodup) (hf : rest.length ≤ fuel) :
    ∃ c' d' rest', insertionInner cmp a fuel c (firstPtr rest none) = some c' ∧
      Linked c' p (l1 ++ (a, d') :: (mid ++ rest')) none ∧ addrs rest' = addrs rest ∧
      (∀ b, b ≠ a → b ∉ addrs rest → c' b = c b) ∧
      (d' :: rest'.map Prod.snd).Perm (d :: rest.map Prod.snd) ∧
      (TotalPreorder cmp → cmp d' d ≤ 0 ∧ ∀ y ∈ rest', cmp d' y.2 ≤ 0) := by
  induction rest generalizing c d mid fuel with
  | nil =>
    refine ⟨c, d, [], ?_, hx, rfl, fun _ _ _ => rfl, List.Perm.refl _, fun ho => ⟨?_, ?_⟩⟩
    · cases fuel <;> rfl
    · rcases ho.total d d with h | h <;> exact h
    · intro y hy
      cases hy
  | cons y rest ih =>
    cases fuel with
    | zero => cases hf
    | succ fuel =>
      have hcells := hx
      rw [linked_append, linked_cons, linked_append, linked_cons] at hcells
      have hxa : c a = some ⟨some d, firstPtr mid (some y.1), lastPtr l1 p⟩ := by
        rw [hcells.2.1, firstPtr_append]
        rfl
      have hxy := hcells.2.2.2.1
      have hstep : insertionInner cmp a (fuel + 1) c (firstPtr (y :: rest) none) =
          if cmp d y.2 > 0 then
            (storeData c a (some y.2)).bind (fun c => (storeData c y.1 (some d)).bind (fun c =>
              insertionInner cmp a fuel c (firstPtr rest none)))
          else insertionInner cmp a fuel c (firstPtr rest none) := by
        rw [firstPtr_cons, insertionInner, hxy]
        show (c a).bind _ = _
        rw [hxa]
        rfl
      rw [hstep]
      by_cases hgt : cmp d y.2 > 0
      · have hswap1 := hx.setData hnd y.2
        have hnd1 : (addrs (l1 ++ (a, y.2) :: (mid ++ y :: rest))).Nodup := by simpa using hnd
        rw [List.append_cons, ← List.append_assoc] at hswap1 hnd1
        have hswap2 := hswap1.setData hnd1 d
        have hs1 := storeData_eq (v := some y.2) (show (c a).isSome by rw [hxa]; rfl)
        have hs2 := storeData_eq (v := some d) (hswap1.isSome (show y.1 ∈ addrs _ by simp))
        rw [if_pos hgt, hs1]
        simp only [Option.bind_some]
        rw [hs2]
        simp only [Option.bind_some]
        have hlink2 : Linked (setData (setData c a (some y.2)) y.1 (some d)) p
            (l1 ++ (a, y.2) :: (mid ++ [(y.1, d)] ++ rest)) none := by
          simpa only [List.append_assoc, List.cons_append, List.nil_append] using hswap2
        have hnd2 : (addrs (l1 ++ (a, y.2) :: (mid ++ [(y.1, d)] ++ rest))).Nodup := by simpa using hnd
        obtain ⟨c', d', rest', hr, hlink, haddrs, hkeep, hperm, hord⟩ := ih hlink2 hnd2
          (Nat.le_of_succ_le_succ hf)
        refine ⟨c', d', (y.1, d) :: rest', hr, ?_, ?_, ?_, ?_, ?_⟩
        · rw [List.append_cons mid]
          exact hlink
        · rw [addrs_cons, addrs_cons, haddrs]
        · intro b hb hout
          rw [addrs_cons, List.mem_cons, not_or] at hout
          rw [hkeep b hb hout.2, setData_other hout.1, setData_other hb]
        · exact (List.Perm.swap _ _ _).trans (hperm.cons d)
        · intro ho
          obtain ⟨hdy, hall⟩ := hord ho
          have hdd := ho.trans _ _ _ hdy (ho.le_of_gt hgt)
          refine ⟨hdd, ?_⟩
          intro z hz
          rcases List.mem_cons.mp hz with rfl | hz
          · exact hdd
          · exact hall z hz
      · rw [if_neg hgt]
        have hmid : mid ++ y :: rest = mid ++ [y] ++ rest := List.append_cons _ _ _
        rw [hmid] at hx hnd
        obtain ⟨c', d', rest', hr, hlink, haddrs, hkeep, hperm, hord⟩ := ih hx hnd
          (Nat.le_of_succ_le_succ hf)
        refine ⟨c', d', y :: rest', hr, ?_, ?_, ?_, ?_, ?_⟩
        · rw [List.append_cons mid]
          exact hlink
        · rw [addrs_cons, addrs_cons, haddrs]
        · intro b hb hout
          rw [addrs_cons, List.mem_cons, not_or] at hout
          exact hkeep b hb hout.2
        · exact ((List.Perm.swap _ _ _).trans (hperm.cons y.2)).trans (List.Perm.swap _ _ _)
        · intro ho
          obtain ⟨hdd, hall⟩ := hord ho
          refine ⟨hdd, ?_⟩
          intro z hz
          rcases List.mem_cons.mp hz with rfl | hz
          · exact ho.trans _ _ _ hdd (by omega)
          · exact hall z hz

theorem insertionOuter_spec (cmp : α → α → Int) {l1 rest : List (Nat × α)} {fuel : Nat}
    (hx : Linked c p (l1 ++ rest) none) (hnd : (addrs (l1 ++ rest)).Nodup) (hf : rest.length ≤ fuel) :
    ∃ c' rest', insertionOuter cmp fuel c (firstPtr rest none) = some c' ∧
      Linked c' p (l1 ++ rest') none ∧ addrs rest' = addrs rest ∧
      (∀ b, b ∉ addrs rest → c' b = c b) ∧ (rest'.map Prod.snd).Perm (rest.map Prod.snd) ∧
      (TotalPreorder cmp → (rest'.map Prod.snd).Pairwise (fun x y => cmp x y ≤ 0)) := by
  induction fuel generalizing c l1 rest with
  | zero =>
    obtain rfl := List.eq_nil_of_length_eq_zero (Nat.le_zero.mp hf)
    exact ⟨c, [], rfl, hx, rfl, fun _ _ => rfl, List.Perm.refl _, fun _ => List.Pairwise.nil⟩
  | succ fuel ih =>
    cases rest with
    | nil => exact ⟨c, [], rfl, hx, rfl, fun _ _ => rfl, List.Perm.refl _, fun _ => List.Pairwise.nil⟩
    | cons x rest =>
      have hcell := (linked_append.mp hx).2.1
      obtain ⟨c1, d1, rest1, hr1, hlink1, haddrs1, hkeep1, hperm1, hord1⟩ := insertionInner_spec cmp
        (show Linked c p (l1 ++ (x.1, x.2) :: ([] ++ rest)) none from hx) hnd (Nat.le_of_succ_le_succ hf)
      rw [List.nil_append] at hlink1
      have hcell1 := (linked_append.mp hlink1).2.1
      have hnd1 : (addrs (l1 ++ [(x.1, d1)] ++ rest1)).Nodup := by simpa [haddrs1] using hnd
      have hlen1 := congrArg List.length haddrs1
      simp only [addrs, List.length_map] at hlen1
      rw [List.append_cons] at hlink1
      obtain ⟨c2, rest2, hr2, hlink2, haddrs2, hkeep2, hperm2, hord2⟩ := ih hlink1 hnd1
        (by simp only [List.length_cons] at hf; omega)
      refine ⟨c2, (x.1, d1) :: rest2, ?_, ?_, ?_, ?_, ?_, ?_⟩
      · rw [firstPtr_cons, insertionOuter, hcell]
        show (insertionInner cmp x.1 fuel c (firstPtr rest none)).bind _ = _
        rw [hr1]
        show (c1 x.1).bind _ = _
        rw [hcell1]
        exact hr2
      · rw [List.append_cons]
        exact hlink2
      · rw [addrs_cons, addrs_cons, haddrs2, haddrs1]
      · intro b hb
        rw [addrs_cons, List.mem_cons, not_or] at hb
        rw [hkeep2 b (by rw [haddrs1]; exact hb.2), hkeep1 b hb.1 hb.2]
      · exact (hperm2.cons d1).trans hperm1
      · intro ho
        rw [List.map_cons, List.pairwise_cons]
        refine ⟨?_, hord2 ho⟩
        intro e he
        obtain ⟨y, hy, rfl⟩ := List.mem_map.mp (hperm2.mem_iff.mp he)
        exact (hord1 ho).2 y hy

/-- What `r_list_sort` leaves: the same elements, in order when the flag was clear, and the very
same chain when it was set. -/
structure Sorts (cmp : α → α → Int) (h : ListMem α) (l : RList) (xs post : List (Nat × α))
    (r : ListResult α Unit) (xs' post' : List (Nat × α)) : Prop where
  turns : Turns h l xs post r xs' post'
  perm : ((xs' ++ post').map Prod.snd).Perm ((xs ++ post).map Prod.snd)
  ordered : l.sorted = false → TotalPreorder cmp →
    ((xs' ++ post').map Prod.snd).Pairwise (fun x y => cmp x y ≤ 0)
  trusted : l.sorted = true → xs' = xs ∧ post' = post

theorem Sorts.trust (hl : ListAt h l xs post) (hs : l.sorted = true) (b : Bool) :
    Sorts cmp h l xs post ⟨h, { l with sorted := b }, ()⟩ xs post := by
  refine ⟨relabel_turns hl rfl rfl hl.linked (fun _ _ => rfl) b (), List.Perm.refl _, ?_,
    fun _ => ⟨rfl, rfl⟩⟩
  intro hclear
  rw [hs] at hclear
  cases hclear

theorem insertionSort_sorts (hv : h.Valid) (hl : ListAt h l xs post) (cmp : α → α → Int) :
    ∃ r xs' post', rListInsertionSort h l cmp = some r ∧ Sorts cmp h l xs post r xs' post' := by
  unfold rListInsertionSort
  by_cases hs : l.sorted = false
  · rw [if_pos hs]
    obtain ⟨c', ys, hr, hlink, haddrs, hkeep, hperm, hord⟩ := insertionOuter_spec cmp
      (show Linked h.cells none ([] ++ (xs ++ post)) none from hl.linked) hl.nodup
      (hl.length_le_fresh hv)
    rw [← hl.head] at hr
    rw [hr]
    obtain ⟨xs', post', rfl, hxs', hpost'⟩ := split_as haddrs
    refine ⟨_, xs', post', rfl, relabel_turns hl hxs' hpost' hlink hkeep true (), hperm,
      fun _ ho => hord ho, ?_⟩
    intro hset
    rw [hs] at hset
    cases hset
  · rw [if_neg hs]
    exact ⟨_, xs, post, rfl, Sorts.trust hl (by simpa using hs) l.sorted⟩

/-- What `r_list_merge_sort` leaves of a list that has nodes. -/
theorem rListMergeSort_spec (hv : h.Valid) (hl : ListAt h l xs post) (cmp : α → α → Int)
    (hgo : l.sorted = false ∧ l.head.isSome) :
    ∃ c' zs, rListMergeSort h l cmp = some ⟨{ h with cells := c' },
        { l with head := firstPtr zs none, tail := lastPtr zs none, sorted := true }, ()⟩ ∧
      Resorts h.cells (xs ++ post) c' none zs ∧ (TotalPreorder cmp → StableSort cmp (xs ++ post) zs) := by
  have hfuel := hl.length_le_fresh hv
  obtain ⟨c', p', zs, hr, hres, hp', hstable⟩ := mergeSortNodes_spec cmp hl.linked hl.nodup hfuel
  have hlen := hres.perm.length_eq
  have hlast := lastIter_spec hres.linked (hlen ▸ hfuel)
  obtain rfl := hp' rfl
  rw [← hl.head] at hr
  refine ⟨c', zs, ?_, hres, hstable⟩
  rw [rListMergeSort, if_pos hgo, hr]
  simp only [Option.bind_eq_bind, Option.bind_some, hlast]

theorem Resorts.listAt {c' : Cells α} {zs : List (Nat × α)} (hres : Resorts h.cells (xs ++ post) c' none zs)
    (hl : ListAt h l xs post) :
    ListAt ⟨c', h.fresh⟩ { l with head := firstPtr zs none, tail := lastPtr zs none, sorted := true } zs [] := by
  refine ⟨?_, ?_, ?_, rfl, fun _ => rfl⟩
  · rw [List.append_nil]
    exact hres.linked
  · rw [List.append_nil]
    exact hres.nodup hl.nodup
  · rw [List.append_nil]

theorem ListAt.nodes_eq_nil (hl : ListAt h l xs post) (hhead : l.head.isSome = false) : xs ++ post = [] := by
  rw [hl.head] at hhead
  cases hys : xs ++ post with
  | nil => rfl
  | cons y ys =>
    rw [hys] at hhead
    cases hhead

theorem mergeSort_sorts (hv : h.Valid) (hl : ListAt h l xs post) (cmp : α → α → Int) :
    ∃ r xs' post', rListMergeSort h l cmp = some r ∧ Sorts cmp h l xs post r xs' post' := by
  by_cases hgo : l.sorted = false ∧ l.head.isSome
  · obtain ⟨c', zs, hr, hres, hstable⟩ := rListMergeSort_spec hv hl cmp hgo
    have hlen := hres.perm.length_eq
    have hperm : ((zs ++ []).map Prod.snd).Perm ((xs ++ post).map Prod.snd) := by
      rw [List.append_nil]
      exact hres.perm.map Prod.snd
    refine ⟨_, zs, [], hr, ⟨hres.listAt hl, Nat.le_refl _, ?_, ?_, ?_⟩, hperm, ?_, ?_⟩
    · intro a ha _
      exact hres.keeps a ha
    · intro a ha
      rw [List.append_nil] at ha
      exact Or.inl ((hres.mem_iff a).mp ha)
    · intro hpost
      rw [hpost, List.append_nil] at hlen
      refine ⟨rfl, ?_⟩
      show l.length - l.length = _
      omega
    · intro _ ho
      rw [List.append_nil]
      exact List.pairwise_map.mpr (hstable ho).ordered
    · intro hset
      rw [hgo.1] at hset
      cases hset
  · rw [rListMergeSort, if_neg hgo]
    by_cases hs : l.sorted = false
    · have hnil : xs ++ post = [] := hl.nodes_eq_nil (by simpa [hs] using hgo)
      refine ⟨_, xs, post, rfl, relabel_turns hl rfl rfl hl.linked (fun _ _ => rfl) true (),
        List.Perm.refl _, ?_, fun _ => ⟨rfl, rfl⟩⟩
      intro _ _
      rw [hnil]
      exact List.Pairwise.nil
    · exact ⟨_, xs, post, rfl, Sorts.trust hl (by simpa using hs) true⟩

theorem sort_sorts (hv : h.Valid) (hl : ListAt h l xs post) (cmp : α → α → Int) :
    ∃ r xs' post', rListSort h l cmp = some r ∧ Sorts cmp h l xs post r xs' post' := by
  unfold rListSort
  split
  · exact mergeSort_sorts hv hl cmp
  · exact insertionSort_sorts hv hl cmp

end Radare

namespace Radare

open Framework

variable {α : Type} {h : ListMem α} {l : RList} {xs post : List (Nat × α)} {cmp : α → α → Int}

/-- A call leaves a list whose data stand in the order `ds`. -/
def LeavesOrder (result : Option (ListResult α Unit)) (ds : List α) : Prop :=
  ∃ r xs post, result = some r ∧ ListAt r.mem r.list xs post ∧ (xs ++ post).map Prod.snd = ds

/-- Only an element itself compares equal to it. -/
def NoTies (cmp : α → α → Int) (ds : List α) : Prop := ∀ x ∈ ds, ∀ y ∈ ds, tied cmp x y → x = y

/-- The data along the list from a node on. -/
def dataAlong (c : Cells α) : Nat → Option Nat → List (Option α)
  | _, none => []
  | 0, some _ => []
  | fuel + 1, some it => (c it).elim [] (fun x => x.data :: dataAlong c fuel x.n)

theorem mergeSort_stable (hv : h.Valid) (hl : ListAt h l xs post) (hs : l.sorted = false) (ho : TotalPreorder cmp) :
    ∃ r zs, rListMergeSort h l cmp = some r ∧ ListAt r.mem r.list zs [] ∧ StableSort cmp (xs ++ post) zs := by
  cases hhead : l.head.isSome with
  | true =>
    obtain ⟨c', zs, hr, hres, hstable⟩ := rListMergeSort_spec hv hl cmp ⟨hs, hhead⟩
    exact ⟨_, zs, hr, hres.listAt hl, hstable ho⟩
  | false =>
    have hnil := hl.nodes_eq_nil hhead
    obtain ⟨rfl, rfl⟩ := List.append_eq_nil_iff.mp hnil
    refine ⟨⟨h, { l with sorted := true }, ()⟩, [], ?_, ⟨hl.linked, hl.nodup, hl.head, hl.tail, fun h => h⟩, .short ?_⟩
    · rw [rListMergeSort, if_neg (by simp [hhead])]
    · exact Nat.zero_le 1

/-- Without ties there is one order, so whatever sorts the elements leaves it. -/
theorem Sorts.leavesOrder {r : ListResult α Unit} {xs' post' zs : List (Nat × α)} (hsorts : Sorts cmp h l xs post r xs' post')
    (hs : l.sorted = false) (ho : TotalPreorder cmp) (hstable : StableSort cmp (xs ++ post) zs)
    (hties : NoTies cmp ((xs ++ post).map Prod.snd)) : LeavesOrder (some r) (zs.map Prod.snd) := by
  have hperm : ((xs' ++ post').map Prod.snd).Perm (zs.map Prod.snd) :=
    hsorts.perm.trans (hstable.perm.map Prod.snd).symm
  have hzs : (zs.map Prod.snd).Pairwise (fun x y => cmp x y ≤ 0) := List.pairwise_map.mpr hstable.ordered
  refine ⟨r, xs', post', rfl, hsorts.turns.listAt, hperm.eq_of_pairwise ?_ (hsorts.ordered hs ho) hzs⟩
  intro x y hx hy hxy hyx
  apply hties x (hsorts.perm.mem_iff.mp hx) y ((hstable.perm.map Prod.snd).mem_iff.mp hy)
  simp [tied, hxy, hyx]

/-- The merge sort is stable and links the nodes anew; without ties the other routines leave its order. -/
theorem sort_paths_agree (hv : h.Valid) (hl : ListAt h l xs post) (hs : l.sorted = false) (ho : TotalPreorder cmp) :
    ∃ r zs, rListMergeSort h l cmp = some r ∧ ListAt r.mem r.list zs [] ∧ StableSort cmp (xs ++ post) zs ∧
      (NoTies cmp ((xs ++ post).map Prod.snd) →
        LeavesOrder (rListInsertionSort h l cmp) (zs.map Prod.snd) ∧ LeavesOrder (rListSort h l cmp) (zs.map Prod.snd)) := by
  obtain ⟨r, zs, hr, hlist, hstable⟩ := mergeSort_stable hv hl hs ho
  refine ⟨r, zs, hr, hlist, hstable, fun hties => ⟨?_, ?_⟩⟩
  · obtain ⟨r', xs', post', hr', hsorts⟩ := insertionSort_sorts hv hl cmp
    rw [hr']
    exact hsorts.leavesOrder hs ho hstable hties
  · obtain ⟨r', xs', post', hr', hsorts⟩ := sort_sorts hv hl cmp
    rw [hr']
    exact hsorts.leavesOrder hs ho hstable hties

/-- Three nodes in a row. -/
def threeNodes (x y z : Option α) : ListMem α :=
  ⟨fun a => [⟨x, some 1, none⟩, ⟨y, some 2, some 0⟩, ⟨z, none, some 1⟩][a]?, 3⟩

theorem sort_paths_agree_three :
    ∃ r zs, rListMergeSort (threeNodes (some 2) (some 3) (some 1)) ⟨some 0, some 2, 3, false⟩ (fun x y : Int => x - y) =
        some r ∧ ListAt r.mem r.list zs [] ∧
      StableSort (fun x y : Int => x - y) [(0, 2), (1, 3), (2, 1)] zs ∧
      LeavesOrder (rListInsertionSort (threeNodes (some 2) (some 3) (some 1)) ⟨some 0, some 2, 3, false⟩
        (fun x y : Int => x - y)) (zs.map Prod.snd) := by
  have hlist : ListAt (threeNodes (some 2) (some 3) (some 1)) ⟨some 0, some 2, 3, false⟩
      [(0, (2 : Int)), (1, 3), (2, 1)] [] :=
    ⟨⟨rfl, rfl, rfl, trivial⟩, by decide, rfl, rfl, fun h => by cases h⟩
  have horder : TotalPreorder (fun x y : Int => x - y) := ⟨fun x y => by omega, fun x y z hxy hyz => by omega⟩
  obtain ⟨r, zs, hr, hl, hstable, hsame⟩ := sort_paths_agree (fun a ha => List.getElem?_eq_none ha) hlist rfl horder
  refine ⟨r, zs, hr, hl, hstable, (hsame ?_).1⟩
  intro x _ y _ htied
  simp only [tied, Bool.and_eq_true, decide_eq_true_eq] at htied
  omega

/-- A comparator that takes the null pointer for the least element. -/
def cmpNull : Option Int → Option Int → Int
  | none, none => 0
  | none, some _ => -1
  | some _, none => 1
  | some x, some y => x - y

/-- On 2, null, 1 the merge sort compares all three data; the other one stops at the null pointer. -/
theorem sorts_differ_at_null :
    (rListMergeSort (threeNodes (some (some 2)) (some none) (some (some 1))) ⟨some 0, some 2, 3, false⟩ cmpNull).map
        (fun r => dataAlong r.mem.cells 3 r.list.head) = some [some none, some (some 1), some (some 2)] ∧
      (rListInsertionSort (threeNodes (some 2) none (some 1)) ⟨some 0, some 2, 3, false⟩ (fun x y : Int => x - y)).map
        (fun r => dataAlong r.mem.cells 3 r.list.head) = some [some 2, none, some 1] := by
  decide

end Radare
