import Radare.Util.RList

namespace Radare

open Framework

variable {α β : Type} {h : ListMem α} {l : RList} {xs post : List (Nat × α)}

/-- No address is in use that has not been given out. -/
def ListMem.Valid (h : ListMem α) : Prop := ∀ a, h.fresh ≤ a → h.cells a = none

/-- The list has the nodes `xs ++ post` and `tail` points to the last of `xs`; only a list that
`r_list_join` has made longer has a `post`. -/
structure ListAt (h : ListMem α) (l : RList) (xs post : List (Nat × α)) : Prop where
  linked : Linked h.cells none (xs ++ post) none
  nodup : (addrs (xs ++ post)).Nodup
  head : l.head = firstPtr (xs ++ post) none
  tail : l.tail = lastPtr xs none
  closed : xs = [] → post = []

/-- What a call on a list with nodes `xs ++ post` leaves. -/
structure Turns (h : ListMem α) (l : RList) (xs post : List (Nat × α)) (r : ListResult α β)
    (xs' post' : List (Nat × α)) : Prop where
  listAt : ListAt r.mem r.list xs' post'
  grows : h.fresh ≤ r.mem.fresh
  keeps : ∀ a, a ∉ addrs (xs ++ post) → a < h.fresh ∨ r.mem.fresh ≤ a → r.mem.cells a = h.cells a
  source : ∀ a ∈ addrs (xs' ++ post'), a ∈ addrs (xs ++ post) ∨ h.fresh ≤ a
  whole : post = [] → post' = [] ∧ r.list.length - l.length = xs'.length - xs.length

theorem Linked.lt_fresh {p q : Option Nat} (hv : h.Valid) (hl : Linked h.cells p xs q) {a : Nat}
    (ha : a ∈ addrs xs) : a < h.fresh := by
  have hsome := hl.isSome ha
  by_contra hge
  rw [hv a (by omega)] at hsome
  cases hsome

theorem ListAt.length_le_fresh (hl : ListAt h l xs post) (hv : h.Valid) :
    (xs ++ post).length ≤ h.fresh :=
  length_le_of_addrs_lt hl.nodup (fun _ ha => Linked.lt_fresh hv hl.linked ha)

/-- The chain is as it was after an allocation. -/
theorem Linked.alloc {p q : Option Nat} (hv : h.Valid) (hl : Linked h.cells p xs q) (x : Node α) :
    Linked (h.alloc x).cells p xs q := by
  apply hl.congr
  intro a ha
  exact Function.update_of_ne (by have := Linked.lt_fresh hv hl ha; omega) _ _

theorem alloc_self (h : ListMem α) (x : Node α) : (h.alloc x).cells h.fresh = some x :=
  Function.update_self _ _ _

theorem alloc_other (h : ListMem α) (x : Node α) {a : Nat} (ha : a ≠ h.fresh) :
    (h.alloc x).cells a = h.cells a := Function.update_of_ne ha _ _

theorem lastPtr_cons_ne_none (x : Nat × α) (xs : List (Nat × α)) (p : Option Nat) :
    lastPtr (x :: xs) p ≠ none := by
  induction xs generalizing x p with
  | nil => simp
  | cons y ys ih => exact ih y (some x.1)

theorem Turns.valid {r : ListResult α β} {xs' post' : List (Nat × α)} (hv : h.Valid)
    (hl : ListAt h l xs post) (ht : Turns h l xs post r xs' post') : r.mem.Valid := by
  intro a ha
  have hge : h.fresh ≤ a := Nat.le_trans ht.grows ha
  have hout : a ∉ addrs (xs ++ post) := by
    intro hin
    exact absurd (Linked.lt_fresh hv hl.linked hin) (by omega)
  rw [ht.keeps a hout (Or.inr ha), hv a hge]

/-- A new node between two parts of the chain, for the calls that link one in. -/
theorem insert_turns (hv : h.Valid) (hl : ListAt h l xs post) {l1 r1 xs' post' : List (Nat × α)} {d : α}
    (hsplit : xs ++ post = l1 ++ r1) (hsplit' : xs' ++ post' = l1 ++ (h.fresh, d) :: r1)
    {r : ListResult α β} (hfresh : r.mem.fresh = h.fresh + 1)
    (hnew : r.mem.cells h.fresh = some ⟨some d, firstPtr r1 none, lastPtr l1 none⟩)
    (hcells : ∀ a, a ≠ h.fresh → r.mem.cells a =
      setPrevIf (setNextIf h.cells (lastPtr l1 none) (some h.fresh)) (firstPtr r1 none) (some h.fresh) a)
    (hhead : r.list.head = firstPtr (l1 ++ (h.fresh, d) :: r1) none)
    (htail : r.list.tail = lastPtr xs' none) (hne : xs' ≠ [])
    (hwhole : post = [] → post' = []) (hlen : r.list.length = l.length + 1) :
    Turns h l xs post r xs' post' := by
  have hlink := hl.linked
  have hnd := hl.nodup
  rw [hsplit] at hlink hnd
  have hlt : ∀ a ∈ addrs (l1 ++ r1), a < h.fresh := fun a ha => Linked.lt_fresh hv hlink ha
  rw [addrs_append, List.nodup_append] at hnd
  rw [addrs_append] at hlt
  have hfirst : ∀ b ∈ addrs l1, firstPtr r1 none ≠ some b :=
    fun b hb he => hnd.2.2 b hb b (firstPtr_mem he) rfl
  have hlast : ∀ b ∈ addrs r1, lastPtr l1 none ≠ some b :=
    fun b hb he => hnd.2.2 b (lastPtr_mem he) b hb rfl
  have hother : ∀ a, a ∉ addrs l1 → a ∉ addrs r1 → a ≠ h.fresh → r.mem.cells a = h.cells a := by
    intro a hal har hne
    rw [hcells a hne, setPrevIf_other (fun he => har (firstPtr_mem he)),
      setNextIf_other (fun he => hal (lastPtr_mem he))]
  refine ⟨⟨?_, ?_, ?_, htail, fun h => absurd h hne⟩, by omega, ?_, ?_, ?_⟩
  · rw [hsplit']
    refine hlink.insert hnd.1 hnd.2.1 hnew ?_ ?_
    · intro b hb
      have hb' := hlt b (List.mem_append_left _ hb)
      rw [hcells b (by omega), setPrevIf_other (hfirst b hb)]
    · intro b hb
      have hb' := hlt b (List.mem_append_right _ hb)
      rw [hcells b (by omega)]
      exact setPrevIf_congr (setNextIf_other (hlast b hb))
  · rw [hsplit', addrs_append, addrs_cons, List.nodup_append, List.nodup_cons]
    refine ⟨hnd.1, ⟨?_, hnd.2.1⟩, ?_⟩
    · intro hin
      exact absurd (hlt _ (List.mem_append_right _ hin)) (Nat.lt_irrefl _)
    · intro a ha b hb
      rcases List.mem_cons.mp hb with rfl | hb
      · exact Nat.ne_of_lt (hlt a (List.mem_append_left _ ha))
      · exact hnd.2.2 a ha b hb
  · rw [hsplit']
    exact hhead
  · intro a ha hside
    rw [hsplit, addrs_append, List.mem_append, not_or] at ha
    exact hother a ha.1 ha.2 (by omega)
  · intro a ha
    rw [hsplit', addrs_append, addrs_cons] at ha
    rw [hsplit, addrs_append]
    simp only [List.mem_append, List.mem_cons] at ha ⊢
    rcases ha with h1 | rfl | h2
    · exact Or.inl (Or.inl h1)
    · exact Or.inr (Nat.le_refl _)
    · exact Or.inl (Or.inr h2)
  · intro hpost
    have hlen1 := congrArg List.length hsplit
    have hlen2 := congrArg List.length hsplit'
    rw [hpost] at hlen1
    rw [hwhole hpost] at hlen2
    simp only [List.append_nil, List.length_append, List.length_cons] at hlen1 hlen2
    exact ⟨hwhole hpost, by omega⟩

/-- `r_list_append` drops whatever hangs behind `tail`. -/
theorem append_turns (hv : h.Valid) (hl : ListAt h l xs post) (data : α) :
    ∃ r, rListAppend h l data = some r ∧ r.list.sorted = false ∧
      Turns h l xs post r (xs ++ [(h.fresh, data)]) [] := by
  have hlink := Linked.alloc hv (linked_append.mp hl.linked).1 ⟨some data, none, l.tail⟩
  have hnd := hl.nodup
  rw [addrs_append, List.nodup_append] at hnd
  have hnew : h.fresh ∉ addrs xs := by
    intro hin
    exact absurd (Linked.lt_fresh hv (linked_append.mp hl.linked).1 hin) (Nat.lt_irrefl _)
  have htail : lastPtr xs none ≠ some h.fresh := fun he => hnew (lastPtr_mem he)
  have hstore : storeNextIf (h.alloc ⟨some data, none, l.tail⟩).cells l.tail (some h.fresh) =
      some (setNextIf (h.alloc ⟨some data, none, l.tail⟩).cells (lastPtr xs none) (some h.fresh)) := by
    rw [hl.tail]
    apply storeNextIf_eq
    intro b hb
    rw [← hl.tail]
    exact hlink.isSome (lastPtr_mem hb)
  simp only [rListAppend, hstore]
  refine ⟨_, rfl, rfl, ?_, ?_, ?_, ?_, ?_⟩
  · constructor
    · rw [List.append_nil, linked_append]
      refine ⟨hlink.setLast hnd.1 _, ?_, trivial⟩
      show setNextIf _ _ _ h.fresh = _
      rw [setNextIf_other htail, alloc_self, hl.tail]
      rfl
    · rw [List.append_nil, addrs_append, List.nodup_append]
      refine ⟨hnd.1, by simp, ?_⟩
      intro a ha b hb he
      simp only [addrs_cons, addrs_nil, List.mem_singleton] at hb
      exact hnew (hb ▸ he ▸ ha)
    · show ite _ _ _ = _
      rw [hl.head]
      cases xs with
      | nil => rw [hl.closed rfl]; rfl
      | cons x xs => rfl
    · rw [lastPtr_append]
      rfl
    · intro _
      rfl
  · exact Nat.le_succ _
  · intro a ha hside
    show setNextIf _ _ _ a = _
    have hne : a ≠ h.fresh := by
      rcases hside with hlt | hge
      · omega
      · exact Nat.ne_of_gt hge
    rw [setNextIf_other, alloc_other _ _ hne]
    intro he
    exact ha (by rw [addrs_append]; exact List.mem_append_left _ (lastPtr_mem he))
  · intro a ha
    rw [List.append_nil, addrs_append, List.mem_append] at ha
    rcases ha with hold | hnew
    · left
      rw [addrs_append]
      exact List.mem_append_left _ hold
    · right
      simp only [addrs_cons, addrs_nil, List.mem_singleton] at hnew
      omega
  · intro _
    refine ⟨rfl, ?_⟩
    show l.length + 1 - l.length = _
    rw [List.length_append, List.length_singleton]
    omega

theorem prepend_turns (hv : h.Valid) (hl : ListAt h l xs post) (data : α) :
    ∃ r, rListPrepend h l data = some r ∧ Turns h l xs post r ((h.fresh, data) :: xs) post := by
  have hlink := Linked.alloc hv hl.linked ⟨some data, l.head, none⟩
  have hstore : storePrevIf (h.alloc ⟨some data, l.head, none⟩).cells l.head (some h.fresh) =
      some (setPrevIf (h.alloc ⟨some data, l.head, none⟩).cells l.head (some h.fresh)) := by
    apply storePrevIf_eq
    intro b hb
    rw [hl.head] at hb
    exact hlink.isSome (firstPtr_mem hb)
  have hhead : l.head ≠ some h.fresh := by
    rw [hl.head]
    intro he
    exact absurd (Linked.lt_fresh hv hl.linked (firstPtr_mem he)) (Nat.lt_irrefl _)
  simp only [rListPrepend, hstore]
  refine ⟨_, rfl, ?_⟩
  refine insert_turns hv hl (show xs ++ post = [] ++ (xs ++ post) from rfl)
    (show ((h.fresh, data) :: xs) ++ post = [] ++ (h.fresh, data) :: (xs ++ post) from rfl)
    rfl ?_ ?_ rfl ?_ (by simp) (fun hp => hp) rfl
  · show setPrevIf _ _ _ h.fresh = _
    rw [setPrevIf_other hhead, alloc_self, hl.head]
    rfl
  · intro a ha
    rw [← hl.head]
    exact setPrevIf_congr (alloc_other _ _ ha)
  · show ite _ _ _ = _
    rw [hl.tail]
    cases xs with
    | nil => rfl
    | cons x xs => exact if_neg (by simpa using lastPtr_cons_ne_none x xs none)

/-- Where a node stands in `xs ++ post`, and how a node put before it extends the two. -/
theorem split_before {l1 r1 : List (Nat × α)} {x : Nat × α} (hs : xs ++ post = l1 ++ x :: r1)
    (hc : xs = [] → post = []) (y : Nat × α) :
    ∃ xs' post', xs' ++ post' = l1 ++ y :: x :: r1 ∧ lastPtr xs' none = lastPtr xs none ∧
      xs' ≠ [] ∧ (post = [] → post' = []) := by
  rcases List.append_eq_append_iff.mp hs with ⟨m, hm1, hm2⟩ | ⟨m, hm1, hm2⟩
  · -- the node stands behind `tail`, or is the first one there
    refine ⟨xs, m ++ y :: x :: r1, ?_, rfl, ?_, ?_⟩
    · rw [hm1, List.append_assoc]
    · intro hx
      rw [hc hx] at hm2
      simp at hm2
    · intro hp
      rw [hp] at hm2
      simp at hm2
  · cases m with
    | nil =>
      rw [List.nil_append] at hm2
      rw [List.append_nil] at hm1
      refine ⟨xs, y :: x :: r1, by rw [hm1], rfl, ?_, ?_⟩
      · intro hx
        rw [hc hx] at hm2
        cases hm2
      · intro hp
        rw [hp] at hm2
        cases hm2
    | cons z m =>
      obtain ⟨rfl, rfl⟩ := List.cons.inj hm2
      refine ⟨l1 ++ y :: x :: m, post, by simp, ?_, by simp, fun hp => hp⟩
      rw [hm1]
      simp

/-- Putting a node before `x`, when the list's head follows if `x` was first. -/
theorem linkBefore_turns (hv : h.Valid) (hl : ListAt h l xs post) {l1 r1 : List (Nat × α)}
    {x : Nat × α} (hs : xs ++ post = l1 ++ x :: r1) {d : α} {r : ListResult α β}
    (hfresh : r.mem.fresh = h.fresh + 1)
    (hcells : ∀ a, r.mem.cells a = setPrevIf (setNextIf
      (h.alloc ⟨some d, some x.1, lastPtr l1 none⟩).cells (lastPtr l1 none) (some h.fresh))
        (some x.1) (some h.fresh) a)
    (hhead : r.list.head = if (lastPtr l1 none).isNone then some h.fresh else l.head)
    (htail : r.list.tail = l.tail) (hlen : r.list.length = l.length + 1) :
    ∃ xs' post', xs' ++ post' = l1 ++ (h.fresh, d) :: x :: r1 ∧ Turns h l xs post r xs' post' := by
  obtain ⟨xs', post', hs', hlast, hne, hpost⟩ := split_before hs hl.closed (h.fresh, d)
  have hlink := hl.linked
  rw [hs] at hlink
  have hfar : ∀ a ∈ addrs (l1 ++ x :: r1), a ≠ h.fresh :=
    fun a ha => Nat.ne_of_lt (Linked.lt_fresh hv hlink ha)
  refine ⟨xs', post', hs', insert_turns hv hl hs hs' hfresh ?_ ?_ ?_ (by rw [htail, hl.tail, hlast]) hne
    hpost hlen⟩
  · rw [hcells, setPrevIf_other, setNextIf_other, alloc_self]
    · rfl
    · intro he
      exact hfar _ (by rw [addrs_append]; exact List.mem_append_left _ (lastPtr_mem he)) rfl
    · intro he
      exact hfar x.1 (by simp) (Option.some.inj he)
  · intro a ha
    rw [hcells]
    apply setPrevIf_congr
    exact setNextIf_congr (alloc_other _ _ ha)
  · rw [hhead, hl.head, hs]
    cases l1 with
    | nil => rfl
    | cons y ys => exact if_neg (by simpa using lastPtr_cons_ne_none y ys none)

theorem insertBefore_turns (hv : h.Valid) (hl : ListAt h l xs post) {l1 r1 : List (Nat × α)}
    {x : Nat × α} (hs : xs ++ post = l1 ++ x :: r1) (hne : l1 ≠ []) (d : α) :
    ∃ r, insertBefore h l x.1 d = some r ∧ ∃ xs' post', Turns h l xs post r xs' post' := by
  have hlink := hl.linked
  have hall := Linked.alloc hv hl.linked ⟨some d, some x.1, lastPtr l1 none⟩
  rw [hs] at hall
  rw [hs, linked_append, linked_cons] at hlink
  have hstoreN := storeNextIf_eq (v := some h.fresh) (fun b (hb : lastPtr l1 none = some b) =>
    hall.isSome (by rw [addrs_append]; exact List.mem_append_left _ (lastPtr_mem hb)))
  have hstoreP := storePrev_eq (v := some h.fresh)
    ((setNextIf_isSome (a := lastPtr l1 none) (v := some h.fresh)).trans
      (hall.isSome (show x.1 ∈ addrs (l1 ++ x :: r1) by simp)))
  simp only [insertBefore, hlink.2.1, Option.bind_eq_bind, Option.bind_some, hstoreN, hstoreP]
  refine ⟨_, rfl, Exists.imp (fun _ => Exists.imp (fun _ => And.right))
    (linkBefore_turns hv hl hs rfl (fun _ => rfl) ?_ rfl rfl)⟩
  cases l1 with
  | nil => exact absurd rfl hne
  | cons y ys => exact (if_neg (by simpa using lastPtr_cons_ne_none y ys none)).symm

theorem addBefore_turns (hv : h.Valid) (hl : ListAt h l xs post) {l1 r1 : List (Nat × α)}
    {x : Nat × α} (hs : xs ++ post = l1 ++ x :: r1) (d : α) :
    ∃ r, addBefore h l x.1 d = some r ∧
      ∃ xs' post', xs' ++ post' = l1 ++ (h.fresh, d) :: x :: r1 ∧ Turns h l xs post r xs' post' := by
  have hlink := hl.linked
  have hall := Linked.alloc hv hl.linked ⟨some d, some x.1, lastPtr l1 none⟩
  rw [hs] at hall
  rw [hs, linked_append, linked_cons] at hlink
  have hstoreP := storePrev_eq (v := some h.fresh)
    (hall.isSome (show x.1 ∈ addrs (l1 ++ x :: r1) by simp))
  have hstoreN := storeNextIf_eq (v := some h.fresh) (fun b (hb : lastPtr l1 none = some b) =>
    (setPrev_isSome (a := x.1) (v := some h.fresh)).trans
      (hall.isSome (by rw [addrs_append]; exact List.mem_append_left _ (lastPtr_mem hb))))
  simp only [addBefore, hlink.2.1, Option.bind_eq_bind, Option.bind_some, hstoreN, hstoreP]
  refine ⟨_, rfl, linkBefore_turns (d := d) hv hl hs rfl ?_ rfl rfl rfl⟩
  intro a
  exact congrFun setNextIf_setPrev a

/-- The search stops at a node of the chain or runs off its end. -/
theorem iterAt_spec {c : Cells α} {p : Option Nat} (hc : Linked c p xs none) (n : Int) {fuel : Nat}
    (hf : xs.length ≤ fuel) (i : Int) :
    iterAt c n fuel (firstPtr xs none) i = some none ∨
      ∃ l1 x r1, xs = l1 ++ x :: r1 ∧ iterAt c n fuel (firstPtr xs none) i = some (some x.1) ∧
        (i ≠ n → l1 ≠ []) := by
  induction xs generalizing p fuel i with
  | nil =>
    left
    cases fuel <;> rfl
  | cons x xs ih =>
    cases fuel with
    | zero => cases hf
    | succ fuel =>
      have hstep : iterAt c n (fuel + 1) (firstPtr (x :: xs) none) i =
          if i = n then some (some x.1) else iterAt c n fuel (firstPtr xs none) (i + 1) := by
        rw [firstPtr_cons, iterAt, hc.1]
        rfl
      rw [hstep]
      by_cases hi : i = n
      · right
        exact ⟨[], x, xs, rfl, if_pos hi, fun hne => absurd hi hne⟩
      · rw [if_neg hi]
        rcases ih hc.2 (Nat.le_of_succ_le_succ hf) (i + 1) with hnone | ⟨l1, y, r1, hxs, hsome, _⟩
        · exact Or.inl hnone
        · right
          exact ⟨x :: l1, y, r1, by rw [hxs]; rfl, hsome, fun _ => by simp⟩

theorem insert_op_turns (hv : h.Valid) (hl : ListAt h l xs post) (n : Int) (d : α) :
    ∃ r, rListInsert h l n d = some r ∧ ∃ xs' post', Turns h l xs post r xs' post' := by
  unfold rListInsert
  by_cases hfront : l.head.isNone ∨ n = 0
  · rw [if_pos hfront]
    obtain ⟨r, hr, ht⟩ := prepend_turns hv hl d
    exact ⟨r, hr, _, _, ht⟩
  · rw [if_neg hfront, hl.head]
    rcases iterAt_spec hl.linked n (hl.length_le_fresh hv) 0 with hnone | ⟨l1, x, r1, hs, hsome, hne⟩
    · rw [hnone]
      obtain ⟨r, hr, _, ht⟩ := append_turns hv hl d
      exact ⟨r, hr, _, _, ht⟩
    · rw [hsome]
      exact insertBefore_turns hv hl hs (hne (fun h0 => hfront (Or.inr h0.symm))) d

/-- The search stops at the first node that the new data are not behind. -/
theorem findSorted_spec {c : Cells α} {p : Option Nat} (hc : Linked c p xs none) (cmp : α → α → Int)
    (d : α) {fuel : Nat} (hf : xs.length ≤ fuel) :
    (findSorted c cmp d fuel (firstPtr xs none) = some none ∧ ∀ y ∈ xs, 0 < cmp d y.2) ∨
      ∃ l1 x r1, xs = l1 ++ x :: r1 ∧ findSorted c cmp d fuel (firstPtr xs none) = some (some x.1) ∧
        (∀ y ∈ l1, 0 < cmp d y.2) ∧ ¬0 < cmp d x.2 := by
  induction xs generalizing p fuel with
  | nil =>
    left
    exact ⟨by cases fuel <;> rfl, fun y hy => absurd hy List.not_mem_nil⟩
  | cons x xs ih =>
    cases fuel with
    | zero => cases hf
    | succ fuel =>
      have hstep : findSorted c cmp d (fuel + 1) (firstPtr (x :: xs) none) =
          if cmp d x.2 > 0 then findSorted c cmp d fuel (firstPtr xs none) else some (some x.1) := by
        rw [firstPtr_cons, findSorted, hc.1]
        rfl
      rw [hstep]
      by_cases hgt : cmp d x.2 > 0
      · rw [if_pos hgt]
        rcases ih hc.2 (Nat.le_of_succ_le_succ hf) with ⟨hnone, hall⟩ | ⟨l1, y, r1, hxs, hsome, hl1, hy⟩
        · exact Or.inl ⟨hnone, List.forall_mem_cons.mpr ⟨hgt, hall⟩⟩
        · right
          exact ⟨x :: l1, y, r1, by rw [hxs]; rfl, hsome, List.forall_mem_cons.mpr ⟨hgt, hl1⟩, hy⟩
      · right
        exact ⟨[], x, xs, rfl, if_neg hgt, fun y hy => absurd hy List.not_mem_nil, hgt⟩

/-- The new data come before the first that they are not behind, or to the end of all nodes. -/
theorem addSorted_places (hv : h.Valid) (hl : ListAt h l xs post) (cmp : α → α → Int) (d : α) :
    ∃ r xs' post', rListAddSorted h l d cmp = some r ∧ Turns h l xs post r xs' post' ∧
      ((∃ l1 x r1, xs ++ post = l1 ++ x :: r1 ∧ xs' ++ post' = l1 ++ (h.fresh, d) :: x :: r1 ∧
          (∀ y ∈ l1, 0 < cmp d y.2) ∧ ¬0 < cmp d x.2) ∨
        (xs' = xs ++ [(h.fresh, d)] ∧ post' = [] ∧ ∀ y ∈ xs ++ post, 0 < cmp d y.2)) := by
  unfold rListAddSorted
  rw [hl.head]
  rcases findSorted_spec hl.linked cmp d (hl.length_le_fresh hv) with
    ⟨hnone, hall⟩ | ⟨l1, x, r1, hs, hsome, hl1, hx⟩
  · rw [hnone]
    obtain ⟨r, hr, _, ht⟩ := append_turns hv hl d
    rw [hr]
    have hat := ht.listAt
    exact ⟨_, _, _, rfl, ⟨⟨hat.linked, hat.nodup, hat.head, hat.tail, hat.closed⟩, ht.grows, ht.keeps,
      ht.source, ht.whole⟩, Or.inr ⟨rfl, rfl, hall⟩⟩
  · rw [hsome]
    obtain ⟨r, hr, xs', post', hs', ht⟩ := addBefore_turns hv hl hs d
    exact ⟨r, xs', post', hr, ht, Or.inl ⟨l1, x, r1, hs, hs', hl1, hx⟩⟩

theorem addSorted_turns (hv : h.Valid) (hl : ListAt h l xs post) (cmp : α → α → Int) (d : α) :
    ∃ r, rListAddSorted h l d cmp = some r ∧ ∃ xs' post', Turns h l xs post r xs' post' := by
  obtain ⟨r, xs', post', hr, ht, _⟩ := addSorted_places hv hl cmp d
  exact ⟨r, hr, xs', post', ht⟩

/-- A call that moves no node: it may change data, and the list's flag. -/
theorem relabel_turns (hl : ListAt h l xs post) {xs' post' : List (Nat × α)} {c' : Cells α}
    (hx : addrs xs' = addrs xs) (hp : addrs post' = addrs post)
    (hlink : Linked c' none (xs' ++ post') none)
    (hkeep : ∀ a, a ∉ addrs (xs ++ post) → c' a = h.cells a) (b : Bool) (ret : β) :
    Turns h l xs post ⟨{ h with cells := c' }, { l with sorted := b }, ret⟩ xs' post' := by
  have hall : addrs (xs' ++ post') = addrs (xs ++ post) := by rw [addrs_append, addrs_append, hx, hp]
  have hnil : ∀ {ys zs : List (Nat × α)}, addrs ys = addrs zs → zs = [] → ys = [] := by
    intro ys zs he hz
    rw [hz] at he
    exact List.map_eq_nil_iff.mp he
  refine ⟨⟨hlink, ?_, ?_, ?_, ?_⟩, Nat.le_refl _, fun a ha _ => hkeep a ha, ?_, ?_⟩
  · rw [hall]
    exact hl.nodup
  · rw [firstPtr_congr hall]
    exact hl.head
  · rw [lastPtr_congr hx]
    exact hl.tail
  · intro hxs
    exact hnil hp (hl.closed (hnil hx.symm hxs))
  · intro a ha
    rw [hall] at ha
    exact Or.inl ha
  · intro hpost
    have hlen := congrArg List.length hx
    simp only [addrs, List.length_map] at hlen
    refine ⟨hnil hp hpost, ?_⟩
    show l.length - l.length = _
    omega

/-- A chain on the nodes of `xs ++ post`, cut where `xs` ends. -/
theorem split_as {ys : List (Nat × α)} (h : addrs ys = addrs (xs ++ post)) :
    ∃ xs' post', ys = xs' ++ post' ∧ addrs xs' = addrs xs ∧ addrs post' = addrs post := by
  have hlen : (addrs xs).length = xs.length := List.length_map _
  rw [addrs_append] at h
  refine ⟨ys.take xs.length, ys.drop xs.length, (List.take_append_drop _ _).symm, ?_, ?_⟩
  · rw [addrs, List.map_take]
    show (addrs ys).take xs.length = _
    rw [h, ← hlen, List.take_left]
  · rw [addrs, List.map_drop]
    show (addrs ys).drop xs.length = _
    rw [h, ← hlen, List.drop_left]

theorem setN_turns (hv : h.Valid) (hl : ListAt h l xs post) (n : Int) (d : α) :
    ∃ r, rListSetN h l n d = some r ∧ ∃ xs' post', Turns h l xs post r xs' post' := by
  have hfind := iterAt_spec hl.linked n (hl.length_le_fresh hv) 0
  rw [← hl.head] at hfind
  unfold rListSetN
  rcases hfind with hnone | ⟨l1, x, r1, hs, hsome, _⟩
  · rw [hnone]
    exact ⟨_, rfl, xs, post, relabel_turns hl rfl rfl hl.linked (fun _ _ => rfl) l.sorted false⟩
  · have hx : x.1 ∈ addrs (xs ++ post) := by
      rw [hs]
      simp
    have hlink := hl.linked
    have hnd := hl.nodup
    rw [hs] at hlink hnd
    have hdata := hlink.setData hnd d
    have haddrs : addrs (l1 ++ (x.1, d) :: r1) = addrs (xs ++ post) := by
      rw [hs]
      simp
    obtain ⟨xs', post', hys, hxs', hpost'⟩ := split_as haddrs
    rw [hys] at hdata
    have hstore := storeData_eq (v := some d) (hl.linked.isSome hx)
    rw [hsome]
    simp only [hstore]
    exact ⟨_, rfl, xs', post', relabel_turns hl hxs' hpost' hdata
      (fun a ha => setData_other (fun he : a = x.1 => ha (he ▸ hx))) false true⟩

/-- A node taken out and freed, for the calls that remove one. -/
theorem remove_turns (hl : ListAt h l xs []) {l1 r1 : List (Nat × α)} {x : Nat × α}
    (hs : xs = l1 ++ x :: r1) {r : ListResult α β}
    (hmem : r.mem = ⟨Function.update (setPrevIf (setNextIf h.cells (lastPtr l1 none) (firstPtr r1 none))
      (firstPtr r1 none) (lastPtr l1 none)) x.1 none, h.fresh⟩)
    (hhead : r.list.head = firstPtr (l1 ++ r1) none) (htail : r.list.tail = lastPtr (l1 ++ r1) none)
    (hlen : r.list.length = l.length - 1) : Turns h l xs [] r (l1 ++ r1) [] := by
  have hlink := hl.linked
  have hnd := hl.nodup
  rw [hs, List.append_nil] at hlink hnd
  rw [addrs_append, addrs_cons, List.nodup_append, List.nodup_cons] at hnd
  obtain ⟨hnd1, ⟨hxr, hndr⟩, hdis⟩ := hnd
  have hxl : x.1 ∉ addrs l1 := fun hin => hdis x.1 hin x.1 List.mem_cons_self rfl
  have hlr : ∀ b ∈ addrs l1, b ∉ addrs r1 :=
    fun b hb hbr => hdis b hb b (List.mem_cons_of_mem _ hbr) rfl
  have hcells : ∀ b, b ≠ x.1 → r.mem.cells b = setPrevIf (setNextIf h.cells (lastPtr l1 none)
      (firstPtr r1 none)) (firstPtr r1 none) (lastPtr l1 none) b := by
    intro b hb
    rw [hmem]
    exact Function.update_of_ne hb _ _
  refine ⟨⟨?_, ?_, ?_, htail, fun _ => rfl⟩, ?_, ?_, ?_, ?_⟩
  · rw [List.append_nil]
    refine hlink.remove hnd1 hndr ?_ ?_
    · intro b hb
      rw [hcells b (fun he => hxl (he ▸ hb)),
        setPrevIf_other (fun he => hlr b hb (firstPtr_mem he))]
    · intro b hb
      rw [hcells b (fun he => hxr (he ▸ hb))]
      exact setPrevIf_congr (setNextIf_other (fun he => hlr b (lastPtr_mem he) hb))
  · rw [List.append_nil, addrs_append, List.nodup_append]
    exact ⟨hnd1, hndr, fun a ha b hb he => hlr a ha (he ▸ hb)⟩
  · rw [List.append_nil]
    exact hhead
  · rw [hmem]
  · intro a ha _
    rw [List.append_nil, hs, addrs_append, addrs_cons, List.mem_append, List.mem_cons, not_or,
      not_or] at ha
    rw [hcells a ha.2.1, setPrevIf_other (fun he => ha.2.2 (firstPtr_mem he)),
      setNextIf_other (fun he => ha.1 (lastPtr_mem he))]
  · intro a ha
    left
    rw [List.append_nil, addrs_append, List.mem_append] at ha
    rw [List.append_nil, hs, addrs_append, addrs_cons, List.mem_append, List.mem_cons]
    rcases ha with h1 | h2
    · exact Or.inl h1
    · exact Or.inr (Or.inr h2)
  · intro _
    refine ⟨rfl, ?_⟩
    rw [hlen, hs, List.length_append, List.length_append, List.length_cons]
    omega

end Radare
