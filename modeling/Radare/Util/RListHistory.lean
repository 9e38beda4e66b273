import Radare.Util.RListSort

namespace Radare

open Framework

variable {α : Type}

/-- The calls of a history, with the names of the lists they are made on. -/
inductive ListOp (α : Type) where
  | append (id : Nat) (data : α)
  | prepend (id : Nat) (data : α)
  | insert (id : Nat) (n : Int) (data : α)
  | pop (id : Nat)
  | popHead (id : Nat)
  | delN (id : Nat) (n : Int)
  | delete (id : Nat) (k : Nat)
  | split (id : Nat) (ptr : α)
  | join (id1 id2 : Nat)
  | reverse (id : Nat)
  | addSorted (id : Nat) (data : α) (cmp : α → α → Int)
  | setN (id : Nat) (n : Int) (p : α)
  | sort (id : Nat) (cmp : α → α → Int)
  | purge (id : Nat)

/-- One call; the iterator of `r_list_delete` is the `k`-th node of its list. -/
def ListPool.step [DecidableEq α] (s : ListPool α) : ListOp α → Option (ListPool α)
  | .append id data => (rListAppend s.mem (s.lists id) data).map (s.put id)
  | .prepend id data => (rListPrepend s.mem (s.lists id) data).map (s.put id)
  | .insert id n data => (rListInsert s.mem (s.lists id) n data).map (s.put id)
  | .pop id => (rListPop s.mem (s.lists id)).map (s.put id)
  | .popHead id => (rListPopHead s.mem (s.lists id)).map (s.put id)
  | .delN id n => (rListDelN s.mem (s.lists id) n).map (s.put id)
  | .delete id k => do
    let nodes ← walkNext s.mem.cells s.mem.fresh (s.lists id).head
    (rListDelete s.mem (s.lists id) nodes[k]?).map (s.put id)
  | .split id ptr => (rListSplit s.mem (s.lists id) ptr).map (s.put id)
  | .join id1 id2 => rListJoin s id1 id2
  | .reverse id => (rListReverse s.mem (s.lists id)).map (s.put id)
  | .addSorted id data cmp => (rListAddSorted s.mem (s.lists id) data cmp).map (s.put id)
  | .setN id n p => (rListSetN s.mem (s.lists id) n p).map (s.put id)
  | .sort id cmp => (rListSort s.mem (s.lists id) cmp).map (s.put id)
  | .purge id => (rListPurge s.mem (s.lists id)).map (s.put id)

def ListPool.run [DecidableEq α] (s : ListPool α) : List (ListOp α) → Option (ListPool α)
  | [] => some s
  | op :: ops => do
    let s ← s.step op
    s.run ops

/-- The lists a call is made on. -/
def ListOp.names : ListOp α → List Nat
  | .append id _ => [id]
  | .prepend id _ => [id]
  | .insert id _ _ => [id]
  | .pop id => [id]
  | .popHead id => [id]
  | .delN id _ => [id]
  | .delete id _ => [id]
  | .split id _ => [id]
  | .join id1 id2 => [id1, id2]
  | .reverse id => [id]
  | .addSorted id _ _ => [id]
  | .setN id _ _ => [id]
  | .sort id _ => [id]
  | .purge id => [id]

/-- The links of a list are right in both directions, and so is its length. -/
structure ListPool.RepOk (s : ListPool α) (id : Nat) : Prop where
  visits : ∃ nodes, walkNext s.mem.cells s.mem.fresh (s.lists id).head = some nodes ∧
    walkPrev s.mem.cells s.mem.fresh (s.lists id).tail = some nodes.reverse ∧
    (s.lists id).length = nodes.length
  ends : (s.lists id).head = none ↔ (s.lists id).tail = none
  first : ∀ a, (s.lists id).head = some a → ∃ x, s.mem.cells a = some x ∧ x.p = none
  last : ∀ a, (s.lists id).tail = some a → ∃ x, s.mem.cells a = some x ∧ x.n = none

/-- The lists of a pool and their nodes, no node in two of them. -/
structure PoolAt (s : ListPool α) (xs post : Nat → List (Nat × α)) : Prop where
  valid : s.mem.Valid
  lists : ∀ id, ListAt s.mem (s.lists id) (xs id) (post id)
  apart : ∀ i j, i ≠ j → ∀ a ∈ addrs (xs i ++ post i), a ∉ addrs (xs j ++ post j)

theorem PoolAt.empty : PoolAt (ListPool.empty : ListPool α) (fun _ => []) (fun _ => []) := by
  refine ⟨fun _ _ => rfl, fun _ => ⟨trivial, List.nodup_nil, rfl, rfl, fun _ => rfl⟩, ?_⟩
  intro i j _ a ha
  cases ha

/-- The other lists do not notice a change to the nodes of one. -/
theorem PoolAt.change {s s' : ListPool α} {xs post : Nat → List (Nat × α)} (hp : PoolAt s xs post)
    {id : Nat} {xs' post' : List (Nat × α)} (hat : ListAt s'.mem (s'.lists id) xs' post')
    (hgrows : s.mem.fresh ≤ s'.mem.fresh)
    (hkeeps : ∀ a, a ∉ addrs (xs id ++ post id) → a < s.mem.fresh ∨ s'.mem.fresh ≤ a →
      s'.mem.cells a = s.mem.cells a)
    (hsource : ∀ a ∈ addrs (xs' ++ post'), a ∈ addrs (xs id ++ post id) ∨ s.mem.fresh ≤ a)
    (hrest : ∀ j, j ≠ id → s'.lists j = s.lists j) :
    PoolAt s' (Function.update xs id xs') (Function.update post id post') := by
  have hlt : ∀ j, ∀ a ∈ addrs (xs j ++ post j), a < s.mem.fresh :=
    fun j a ha => Linked.lt_fresh hp.valid (hp.lists j).linked ha
  have hnew : ∀ j, j ≠ id → ∀ a ∈ addrs (xs j ++ post j), a ∉ addrs (xs' ++ post') := by
    intro j hj a ha hin
    rcases hsource a hin with hold | hge
    · exact hp.apart j id hj a ha hold
    · exact absurd (hlt j a ha) (by omega)
  refine ⟨?_, ?_, ?_⟩
  · intro a ha
    rw [hkeeps a (fun hin => absurd (hlt id a hin) (by omega)) (Or.inr ha)]
    exact hp.valid a (by omega)
  · intro j
    by_cases hj : j = id
    · subst hj
      rw [Function.update_self, Function.update_self]
      exact hat
    · rw [Function.update_of_ne hj, Function.update_of_ne hj, hrest j hj]
      have hl := hp.lists j
      refine ⟨hl.linked.congr ?_, hl.nodup, hl.head, hl.tail, hl.closed⟩
      intro a ha
      exact hkeeps a (hp.apart j id hj a ha) (Or.inl (hlt j a ha))
  · intro i j hij a ha hin
    by_cases hi : i = id
    · subst hi
      simp only [Function.update_self] at ha
      simp only [Function.update_of_ne (Ne.symm hij)] at hin
      exact hnew j (Ne.symm hij) a hin ha
    · simp only [Function.update_of_ne hi] at ha
      by_cases hj : j = id
      · subst hj
        simp only [Function.update_self] at hin
        exact hnew i hi a ha hin
      · simp only [Function.update_of_ne hj] at hin
        exact hp.apart i j hij a ha hin

theorem PoolAt.put {β : Type} {s : ListPool α} {xs post : Nat → List (Nat × α)} (hp : PoolAt s xs post)
    {id : Nat} {r : ListResult α β} {xs' post' : List (Nat × α)}
    (ht : Turns s.mem (s.lists id) (xs id) (post id) r xs' post') :
    PoolAt (s.put id r) (Function.update xs id xs') (Function.update post id post') := by
  refine hp.change ?_ ht.grows ht.keeps ht.source (fun j hj => Function.update_of_ne hj _ _)
  show ListAt r.mem (Function.update s.lists id r.list id) xs' post'
  rw [Function.update_self]
  exact ht.listAt

theorem ListAt.isEmpty_iff {h : ListMem α} {l : RList} {xs post : List (Nat × α)}
    (hl : ListAt h l xs post) : l.isEmpty = true ↔ xs = [] := by
  rw [RList.isEmpty, hl.head, hl.tail]
  cases xs with
  | nil => simp [hl.closed rfl]
  | cons x xs => simp

/-- What `r_list_join` does to two lists after it has linked them. -/
theorem join_finish {s t : ListPool α} {id1 id2 : Nat} (hne : id1 ≠ id2)
    (h2 : (s.lists id2).isEmpty = false) (ht : joinLink s id1 id2 = some t) :
    ∃ s', rListJoin s id1 id2 = some s' ∧ s'.mem = t.mem ∧
      s'.owned = Function.update t.owned id2 false ∧
      s'.lists id1 = { t.lists id1 with
        length := (t.lists id1).length + (t.lists id2).length, sorted := true } ∧
      s'.lists id2 = { t.lists id2 with head := none, tail := none } ∧
      ∀ j, j ≠ id1 → j ≠ id2 → s'.lists j = t.lists j := by
  rw [rListJoin, h2, if_neg (by decide), ht]
  refine ⟨_, rfl, rfl, rfl, ?_, ?_, ?_⟩
  · simp [Function.update_of_ne hne]
  · simp [Function.update_of_ne hne.symm]
  · intro j h1 h2
    simp [Function.update_of_ne h1, Function.update_of_ne h2]

/-- A list joined to itself ends up with no nodes. -/
theorem join_finish_self {s t : ListPool α} {id : Nat} (h2 : (s.lists id).isEmpty = false)
    (ht : joinLink s id id = some t) :
    ∃ s', rListJoin s id id = some s' ∧ s'.mem = t.mem ∧
      (s'.lists id).head = none ∧ (s'.lists id).tail = none ∧
      ∀ j, j ≠ id → s'.lists j = t.lists j := by
  rw [rListJoin, h2, if_neg (by decide), ht]
  refine ⟨_, rfl, rfl, ?_, ?_, ?_⟩
  · simp
  · simp
  · intro j hj
    simp [Function.update_of_ne hj]

/-- The pool after a join of two lists: the first has all nodes, the second none. -/
theorem PoolAt.joined {s s' : ListPool α} {xs post : Nat → List (Nat × α)} (hp : PoolAt s xs post)
    {id1 id2 : Nat} (hne : id1 ≠ id2) {ys zs : List (Nat × α)} (hfresh : s'.mem.fresh = s.mem.fresh)
    (hkeep : ∀ a, a ∉ addrs (xs id1 ++ post id1) → a ∉ addrs (xs id2 ++ post id2) →
      s'.mem.cells a = s.mem.cells a)
    (h1 : ListAt s'.mem (s'.lists id1) ys zs)
    (hsource : ∀ a ∈ addrs (ys ++ zs), a ∈ addrs (xs id1 ++ post id1) ∨ a ∈ addrs (xs id2 ++ post id2))
    (h2 : (s'.lists id2).head = none ∧ (s'.lists id2).tail = none)
    (hrest : ∀ j, j ≠ id1 → j ≠ id2 → s'.lists j = s.lists j) :
    PoolAt s' (Function.update (Function.update xs id1 ys) id2 [])
      (Function.update (Function.update post id1 zs) id2 []) := by
  have hothers : ∀ j, j ≠ id1 → j ≠ id2 → ∀ a ∈ addrs (xs j ++ post j),
      a ∉ addrs (xs id1 ++ post id1) ∧ a ∉ addrs (xs id2 ++ post id2) := by
    intro j hj1 hj2 a ha
    exact ⟨hp.apart j id1 hj1 a ha, hp.apart j id2 hj2 a ha⟩
  have hfar : ∀ j, j ≠ id1 → j ≠ id2 → ∀ a ∈ addrs (xs j ++ post j), a ∉ addrs (ys ++ zs) := by
    intro j hj1 hj2 a ha hin
    obtain ⟨ho1, ho2⟩ := hothers j hj1 hj2 a ha
    rcases hsource a hin with hs | hs
    · exact ho1 hs
    · exact ho2 hs
  refine ⟨?_, ?_, ?_⟩
  · intro a ha
    rw [hfresh] at ha
    have hout : ∀ id, a ∉ addrs (xs id ++ post id) := by
      intro id hin
      exact absurd (Linked.lt_fresh hp.valid (hp.lists id).linked hin) (by omega)
    rw [hkeep a (hout id1) (hout id2)]
    exact hp.valid a ha
  · intro j
    by_cases hj2 : j = id2
    · subst hj2
      simp only [Function.update_self]
      exact ⟨trivial, List.nodup_nil, h2.1, h2.2, fun _ => rfl⟩
    · by_cases hj1 : j = id1
      · subst hj1
        simp only [Function.update_of_ne hj2, Function.update_self]
        exact h1
      · simp only [Function.update_of_ne hj2, Function.update_of_ne hj1]
        rw [hrest j hj1 hj2]
        have hl := hp.lists j
        refine ⟨hl.linked.congr ?_, hl.nodup, hl.head, hl.tail, hl.closed⟩
        intro a ha
        obtain ⟨ho1, ho2⟩ := hothers j hj1 hj2 a ha
        exact hkeep a ho1 ho2
  · intro i j hij a ha hin
    by_cases hi2 : i = id2
    · subst hi2
      simp at ha
    by_cases hj2 : j = id2
    · subst hj2
      simp at hin
    by_cases hi1 : i = id1
    · subst hi1
      simp only [Function.update_of_ne hi2, Function.update_self] at ha
      simp only [Function.update_of_ne hj2, Function.update_of_ne (Ne.symm hij)] at hin
      exact hfar j (Ne.symm hij) hj2 a hin ha
    · simp only [Function.update_of_ne hi2, Function.update_of_ne hi1] at ha
      by_cases hj1 : j = id1
      · subst hj1
        simp only [Function.update_of_ne hj2, Function.update_self] at hin
        exact hfar i hi1 hi2 a ha hin
      · simp only [Function.update_of_ne hj2, Function.update_of_ne hj1] at hin
        exact hp.apart i j hij a ha hin

/-- An empty first list takes over the second as it is. -/
theorem join_into_empty {s : ListPool α} {xs post : Nat → List (Nat × α)} (hp : PoolAt s xs post)
    {id1 id2 : Nat} (h1 : xs id1 = []) (h2 : xs id2 ≠ []) :
    ∃ s', rListJoin s id1 id2 = some s' ∧ id1 ≠ id2 ∧
      PoolAt s' (Function.update (Function.update xs id1 (xs id2)) id2 [])
        (Function.update (Function.update post id1 (post id2)) id2 []) ∧
      s'.owned = Function.update s.owned id2 false ∧
      (s'.lists id1).length = (s.lists id1).length + (s.lists id2).length ∧
      ∀ j, j ≠ id1 → j ≠ id2 → s'.lists j = s.lists j := by
  have hne : id1 ≠ id2 := by
    rintro rfl
    exact h2 h1
  have hl2 := hp.lists id2
  have he1 := (hp.lists id1).isEmpty_iff.mpr h1
  have he2 : (s.lists id2).isEmpty = false := by
    rw [Bool.eq_false_iff, Ne, hl2.isEmpty_iff]
    exact h2
  have hlink : joinLink s id1 id2 = some
      { s with
        lists := Function.update s.lists id1
          { s.lists id1 with head := (s.lists id2).head, tail := (s.lists id2).tail } } := if_pos he1
  obtain ⟨s', hj, hmem, howned, hs1, hs2, hrest⟩ := join_finish hne he2 hlink
  simp only [Function.update_self, Function.update_of_ne hne.symm] at hs1 hs2
  have hrest' : ∀ j, j ≠ id1 → j ≠ id2 → s'.lists j = s.lists j := by
    intro j hj1 hj2
    rw [hrest j hj1 hj2]
    exact Function.update_of_ne hj1 _ _
  refine ⟨s', hj, hne, hp.joined hne (by rw [hmem]) ?_ ?_ ?_ ?_ hrest', howned, by rw [hs1], hrest'⟩
  · intro a _ _
    rw [hmem]
  · rw [hmem, hs1]
    exact ⟨hl2.linked, hl2.nodup, hl2.head, hl2.tail, hl2.closed⟩
  · intro a ha
    exact Or.inr ha
  · rw [hs2]
    exact ⟨rfl, rfl⟩

/-- Linking the second list's first node behind the first list's tail. -/
theorem joinLink_eq {s : ListPool α} {xs post : Nat → List (Nat × α)} (hp : PoolAt s xs post)
    {id1 id2 : Nat} (h1 : xs id1 ≠ []) (h2 : xs id2 ≠ []) :
    ∃ t b, lastPtr (xs id1) none = some t ∧ firstPtr (xs id2 ++ post id2) none = some b ∧
      joinLink s id1 id2 = some
        { s with mem := ⟨setPrev (setNext s.mem.cells t (some b)) b (some t), s.mem.fresh⟩ } := by
  have hl1 := hp.lists id1
  have hl2 := hp.lists id2
  obtain ⟨x, xr, hx⟩ := List.exists_cons_of_ne_nil h1
  obtain ⟨y, yr, hy⟩ := List.exists_cons_of_ne_nil h2
  obtain ⟨t, ht⟩ := Option.ne_none_iff_exists'.mp (hx ▸ lastPtr_cons_ne_none x xr none :
    lastPtr (xs id1) none ≠ none)
  have hb : firstPtr (xs id2 ++ post id2) none = some y.1 := by rw [hy]; rfl
  have hempty : ¬ (s.lists id1).isEmpty = true := fun he => h1 (hl1.isEmpty_iff.mp he)
  have hst : (s.mem.cells t).isSome := by
    apply hl1.linked.isSome
    rw [addrs_append]
    exact List.mem_append_left _ (lastPtr_mem ht)
  have hsb : (s.mem.cells y.1).isSome := hl2.linked.isSome (firstPtr_mem hb)
  refine ⟨t, y.1, ht, hb, ?_⟩
  simp only [joinLink, if_neg hempty, hl1.tail, ht, hl2.head, hb]
  rw [storeNext_eq hst]
  show (storePrev _ _ _).bind _ = _
  rw [storePrev_eq (setNext_isSome.trans hsb)]
  rfl

/-- A list of nodes takes the place of whatever hung behind the tail of the first. -/
theorem join_onto {s : ListPool α} {xs post : Nat → List (Nat × α)} (hp : PoolAt s xs post)
    {id1 id2 : Nat} (hne : id1 ≠ id2) (h1 : xs id1 ≠ []) (h2 : xs id2 ≠ []) :
    ∃ s', rListJoin s id1 id2 = some s' ∧
      PoolAt s' (Function.update (Function.update xs id1 (xs id1)) id2 [])
        (Function.update (Function.update post id1 (xs id2 ++ post id2)) id2 []) := by
  have hl1 := hp.lists id1
  have hl2 := hp.lists id2
  have he2 : (s.lists id2).isEmpty = false := by
    rw [Bool.eq_false_iff, Ne, hl2.isEmpty_iff]
    exact h2
  obtain ⟨t, b, ht, hb, hlink⟩ := joinLink_eq hp h1 h2
  obtain ⟨s', hj, hmem, _, hs1, hs2, hrest⟩ := join_finish hne he2 hlink
  have hnd1 := hl1.nodup
  rw [addrs_append, List.nodup_append] at hnd1
  have htm := lastPtr_mem ht
  have hbm := firstPtr_mem hb
  have hcross : ∀ a ∈ addrs (xs id1), a ∉ addrs (xs id2 ++ post id2) := by
    intro a ha
    exact hp.apart id1 id2 hne a (by rw [addrs_append]; exact List.mem_append_left _ ha)
  have hcells : s'.mem.cells = setPrevIf (setNextIf s.mem.cells (lastPtr (xs id1) none) (some b))
      (firstPtr (xs id2 ++ post id2) none) (some t) := by
    rw [hmem, ht, hb]
    rfl
  refine ⟨s', hj, hp.joined hne (by rw [hmem]) ?_ ?_ ?_ ?_ hrest⟩
  · intro a ha1 ha2
    rw [hcells, setPrevIf_other (fun he => ha2 (firstPtr_mem he)), setNextIf_other]
    intro he
    exact ha1 (by rw [addrs_append]; exact List.mem_append_left _ (lastPtr_mem he))
  · refine ⟨?_, ?_, ?_, ?_, fun h => absurd h h1⟩
    · rw [linked_append, hcells, hb, ht]
      constructor
      · have hlast := (linked_append.mp hl1.linked).1.setLast hnd1.1 (some b)
        rw [ht] at hlast
        apply hlast.congr
        intro a ha
        apply setPrevIf_other
        intro he
        exact hcross a ha (Option.some.inj he ▸ hbm)
      · have hfirst := hl2.linked.setFirst hl2.nodup (some t)
        rw [hb] at hfirst
        apply hfirst.congr
        intro a ha
        apply setPrevIf_congr
        apply setNextIf_other
        intro he
        exact hcross a (Option.some.inj he ▸ htm) ha
    · rw [addrs_append, List.nodup_append]
      exact ⟨hnd1.1, hl2.nodup, fun a ha c hc he => hcross a ha (he ▸ hc)⟩
    · rw [hs1, firstPtr_append]
      show (s.lists id1).head = _
      rw [hl1.head]
      obtain ⟨x, xr, hx⟩ := List.exists_cons_of_ne_nil h1
      rw [hx]
      rfl
    · rw [hs1]
      exact hl1.tail
  · intro a ha
    rw [addrs_append, List.mem_append] at ha
    rcases ha with ha | ha
    · left
      rw [addrs_append]
      exact List.mem_append_left _ ha
    · exact Or.inr ha
  · rw [hs2]
    exact ⟨rfl, rfl⟩

theorem join_self {s : ListPool α} {xs post : Nat → List (Nat × α)} (hp : PoolAt s xs post)
    {id : Nat} (h1 : xs id ≠ []) :
    ∃ s', rListJoin s id id = some s' ∧
      PoolAt s' (Function.update xs id []) (Function.update post id []) := by
  have hl := hp.lists id
  have he : (s.lists id).isEmpty = false := by
    rw [Bool.eq_false_iff, Ne, hl.isEmpty_iff]
    exact h1
  obtain ⟨t, b, ht, hb, hlink⟩ := joinLink_eq hp h1 h1
  obtain ⟨s', hj, hmem, hhead, htail, hrest⟩ := join_finish_self he hlink
  refine ⟨s', hj, hp.change ⟨trivial, List.nodup_nil, hhead, htail, fun _ => rfl⟩ (by rw [hmem]) ?_ ?_
    hrest⟩
  · intro a ha _
    have hat : a ≠ t := by
      rintro rfl
      exact ha (by rw [addrs_append]; exact List.mem_append_left _ (lastPtr_mem ht))
    have hab : a ≠ b := by
      rintro rfl
      exact ha (firstPtr_mem hb)
    rw [hmem]
    show setPrev _ _ _ a = _
    rw [setPrev_other hab, setNext_other hat]
  · intro a ha
    cases ha

/-- `r_list_join` never faults, whatever the two lists are. -/
theorem join_poolAt {s : ListPool α} {xs post : Nat → List (Nat × α)} (hp : PoolAt s xs post)
    (id1 id2 : Nat) : ∃ s' xs' post', rListJoin s id1 id2 = some s' ∧ PoolAt s' xs' post' := by
  by_cases h2 : xs id2 = []
  · have he2 := (hp.lists id2).isEmpty_iff.mpr h2
    exact ⟨s, xs, post, if_pos he2, hp⟩
  by_cases hid : id1 = id2
  · subst hid
    obtain ⟨s', hj, hp'⟩ := join_self hp h2
    exact ⟨s', _, _, hj, hp'⟩
  by_cases h1 : xs id1 = []
  · obtain ⟨s', hj, _, hp', _⟩ := join_into_empty hp h1 h2
    exact ⟨s', _, _, hj, hp'⟩
  · obtain ⟨s', hj, hp'⟩ := join_onto hp hid h1 h2
    exact ⟨s', _, _, hj, hp'⟩

/-- The condition on a call: the lists are the caller's, nothing is popped off an empty list, and
of two lists that are joined one is empty. -/
def ListPool.StepOk (s : ListPool α) (op : ListOp α) : Prop :=
  (∀ id ∈ op.names, s.owned id = true) ∧
  match op with
  | .pop id => (s.lists id).isEmpty = false
  | .popHead id => (s.lists id).isEmpty = false
  | .join id1 id2 => (s.lists id1).isEmpty = true ∨ (s.lists id2).isEmpty = true
  | _ => True

/-- Every call of the run meets the condition. -/
def ListPool.RunOk [DecidableEq α] (s : ListPool α) : List (ListOp α) → Prop
  | [] => True
  | op :: ops => s.StepOk op ∧ ∀ s', s.step op = some s' → s'.RunOk ops

/-- Whole lists, each of the caller's with the right length. -/
structure PoolOk (s : ListPool α) (xs : Nat → List (Nat × α)) : Prop where
  pool : PoolAt s xs (fun _ => [])
  count : ∀ id, s.owned id = true → (s.lists id).length = (xs id).length

/-- A call on one list keeps the pool whole. -/
theorem PoolOk.put {β : Type} {s : ListPool α} {xs : Nat → List (Nat × α)} (hp : PoolOk s xs) {id : Nat}
    {f : Option (ListResult α β)} (hown : s.owned id = true)
    (ht : ∃ r, f = some r ∧ ∃ xs' post', Turns s.mem (s.lists id) (xs id) [] r xs' post') :
    ∃ s' xs', f.map (s.put id) = some s' ∧ PoolOk s' xs' := by
  obtain ⟨r, rfl, xs', post', ht⟩ := ht
  obtain ⟨rfl, hlen⟩ := ht.whole rfl
  refine ⟨s.put id r, Function.update xs id xs', rfl, ?_, ?_⟩
  · have hput := hp.pool.put ht
    rwa [Function.update_eq_self id (fun _ : Nat => ([] : List (Nat × α)))] at hput
  · intro j hj
    show (Function.update s.lists id r.list j).length = _
    by_cases hid : j = id
    · subst hid
      have hold := hp.count j hown
      rw [Function.update_self, Function.update_self]
      omega
    · rw [Function.update_of_ne hid, Function.update_of_ne hid]
      exact hp.count j hj

theorem PoolOk.join {s : ListPool α} {xs : Nat → List (Nat × α)} (hp : PoolOk s xs) {id1 id2 : Nat}
    (hown1 : s.owned id1 = true) (hown2 : s.owned id2 = true)
    (hone : (s.lists id1).isEmpty = true ∨ (s.lists id2).isEmpty = true) :
    ∃ s' xs', rListJoin s id1 id2 = some s' ∧ PoolOk s' xs' := by
  by_cases he2 : (s.lists id2).isEmpty = true
  · exact ⟨s, xs, if_pos he2, hp⟩
  have h2 : xs id2 ≠ [] := fun h => he2 ((hp.pool.lists id2).isEmpty_iff.mpr h)
  have he1 : (s.lists id1).isEmpty = true := by
    rcases hone with h | h
    · exact h
    · exact absurd h he2
  have h1 := (hp.pool.lists id1).isEmpty_iff.mp he1
  obtain ⟨s', hj, hne, hp', howned, hlen, hrest⟩ := join_into_empty hp.pool h1 h2
  rw [Function.update_eq_self id1 (fun _ : Nat => ([] : List (Nat × α))),
    Function.update_eq_self id2 (fun _ : Nat => ([] : List (Nat × α)))] at hp'
  refine ⟨s', _, hj, hp', ?_⟩
  intro j hown
  have hj2 : j ≠ id2 := by
    rintro rfl
    rw [howned, Function.update_self] at hown
    cases hown
  rw [howned, Function.update_of_ne hj2] at hown
  rw [Function.update_of_ne hj2]
  by_cases hj1 : j = id1
  · subst hj1
    have hc1 := hp.count j hown1
    have hc2 := hp.count id2 hown2
    rw [h1, List.length_nil] at hc1
    rw [Function.update_self, hlen]
    omega
  · rw [Function.update_of_ne hj1, hrest j hj1 hj2]
    exact hp.count j hown

theorem walkNext_head {s : ListPool α} {xs : Nat → List (Nat × α)} (hp : PoolOk s xs) (id : Nat) :
    walkNext s.mem.cells s.mem.fresh (s.lists id).head = some (addrs (xs id)) := by
  have hl := hp.pool.lists id
  have hlink := hl.linked
  have hfuel := hl.length_le_fresh hp.pool.valid
  have hhead := hl.head
  rw [List.append_nil] at hlink hfuel hhead
  rw [hhead]
  exact hlink.walkNext hfuel

theorem deleteAt_turns {s : ListPool α} {xs : Nat → List (Nat × α)} (hp : PoolOk s xs) (id k : Nat) :
    ∃ r, rListDelete s.mem (s.lists id) (addrs (xs id))[k]? = some r ∧
      ∃ xs' post', Turns s.mem (s.lists id) (xs id) [] r xs' post' := by
  have hl := hp.pool.lists id
  by_cases hk : k < (xs id).length
  · have hget : (addrs (xs id))[k]? = some ((xs id).get ⟨k, hk⟩).1 := by
      simp [addrs, List.getElem?_eq_getElem hk]
    have hsplit : xs id = (xs id).take k ++ (xs id).get ⟨k, hk⟩ :: (xs id).drop (k + 1) := by
      simp
    rw [hget]
    rw [hsplit] at hl
    obtain ⟨r, hr, ht⟩ := delete_turns hl
    rw [← hsplit] at ht
    exact ⟨r, hr, _, _, ht⟩
  · have hget : (addrs (xs id))[k]? = none := by
      rw [List.getElem?_eq_none_iff, addrs, List.length_map]
      omega
    rw [hget]
    exact ⟨_, rfl, xs id, [], relabel_turns hl rfl rfl hl.linked (fun _ _ => rfl) (s.lists id).sorted ()⟩

/-- Every call that meets the condition succeeds and keeps all lists whole. -/
theorem PoolOk.step [DecidableEq α] {s : ListPool α} {xs : Nat → List (Nat × α)} (hp : PoolOk s xs)
    {op : ListOp α} (hok : s.StepOk op) : ∃ s' xs', s.step op = some s' ∧ PoolOk s' xs' := by
  obtain ⟨hown, hcond⟩ := hok
  have hv := hp.pool.valid
  have hne : ∀ id, (s.lists id).isEmpty = false → xs id ≠ [] := by
    intro id he hnil
    rw [(hp.pool.lists id).isEmpty_iff.mpr hnil] at he
    cases he
  cases op with
  | append id data =>
    obtain ⟨r, hr, _, ht⟩ := append_turns hv (hp.pool.lists id) data
    exact hp.put (hown id (by simp [ListOp.names])) ⟨r, hr, _, _, ht⟩
  | prepend id data =>
    obtain ⟨r, hr, ht⟩ := prepend_turns hv (hp.pool.lists id) data
    exact hp.put (hown id (by simp [ListOp.names])) ⟨r, hr, _, _, ht⟩
  | insert id n data =>
    exact hp.put (hown id (by simp [ListOp.names])) (insert_op_turns hv (hp.pool.lists id) n data)
  | pop id =>
    obtain ⟨r, hr, xs', ht⟩ := pop_turns (hp.pool.lists id) (hne id hcond)
    exact hp.put (hown id (by simp [ListOp.names])) ⟨r, hr, xs', [], ht⟩
  | popHead id =>
    obtain ⟨r, hr, xs', ht⟩ := popHead_turns (hp.pool.lists id) (hne id hcond)
    exact hp.put (hown id (by simp [ListOp.names])) ⟨r, hr, xs', [], ht⟩
  | delN id n =>
    obtain ⟨r, hr, xs', ht⟩ := delN_turns hv (hp.pool.lists id) n
    exact hp.put (hown id (by simp [ListOp.names])) ⟨r, hr, xs', [], ht⟩
  | delete id k =>
    rw [ListPool.step, walkNext_head hp id]
    exact hp.put (hown id (by simp [ListOp.names])) (deleteAt_turns hp id k)
  | split id ptr =>
    obtain ⟨r, hr, xs', ht⟩ := split_turns hv (hp.pool.lists id) ptr
    exact hp.put (hown id (by simp [ListOp.names])) ⟨r, hr, xs', [], ht⟩
  | join id1 id2 =>
    exact hp.join (hown id1 (by simp [ListOp.names])) (hown id2 (by simp [ListOp.names])) hcond
  | reverse id =>
    obtain ⟨r, hr, xs', ht⟩ := reverse_turns hv (hp.pool.lists id)
    exact hp.put (hown id (by simp [ListOp.names])) ⟨r, hr, xs', [], ht⟩
  | addSorted id data cmp =>
    exact hp.put (hown id (by simp [ListOp.names])) (addSorted_turns hv (hp.pool.lists id) cmp data)
  | setN id n p =>
    exact hp.put (hown id (by simp [ListOp.names])) (setN_turns hv (hp.pool.lists id) n p)
  | sort id cmp =>
    obtain ⟨r, xs', post', hr, ht⟩ := sort_sorts hv (hp.pool.lists id) cmp
    exact hp.put (hown id (by simp [ListOp.names])) ⟨r, hr, xs', post', ht.turns⟩
  | purge id =>
    obtain ⟨r, hr, xs', ht⟩ := purge_turns hv (hp.pool.lists id)
    exact hp.put (hown id (by simp [ListOp.names])) ⟨r, hr, xs', [], ht⟩

theorem PoolOk.run [DecidableEq α] {s : ListPool α} {xs : Nat → List (Nat × α)} (hp : PoolOk s xs)
    {ops : List (ListOp α)} (hok : s.RunOk ops) : ∃ s' xs', s.run ops = some s' ∧ PoolOk s' xs' := by
  induction ops generalizing s xs with
  | nil => exact ⟨s, xs, rfl, hp⟩
  | cons op ops ih =>
    obtain ⟨t, ys, hstep, ht⟩ := hp.step hok.1
    obtain ⟨s', xs', hrun, hs'⟩ := ih ht (hok.2 t hstep)
    refine ⟨s', xs', ?_, hs'⟩
    rw [ListPool.run, hstep]
    exact hrun

/-- What the nodes say of a list, in the words of the pointers. -/
theorem PoolOk.repOk {s : ListPool α} {xs : Nat → List (Nat × α)} (hp : PoolOk s xs) {id : Nat}
    (hown : s.owned id = true) : s.RepOk id := by
  have hl := hp.pool.lists id
  have hlink := hl.linked
  have hfuel := hl.length_le_fresh hp.pool.valid
  have hhead := hl.head
  have htail := hl.tail
  rw [List.append_nil] at hlink hfuel hhead
  refine ⟨⟨addrs (xs id), walkNext_head hp id, ?_, ?_⟩, ?_, ?_, ?_⟩
  · rw [htail]
    exact hlink.walkPrev hfuel
  · rw [hp.count id hown, addrs, List.length_map]
  · rw [hhead, htail]
    cases xs id with
    | nil => simp
    | cons x ys => simp [lastPtr_cons_ne_none x ys none, -lastPtr_cons]
  · intro a ha
    rw [hhead] at ha
    cases hxs : xs id with
    | nil =>
      rw [hxs] at ha
      cases ha
    | cons x ys =>
      rw [hxs] at ha hlink
      obtain rfl : x.1 = a := Option.some.inj ha
      exact ⟨_, hlink.1, rfl⟩
  · intro a ha
    rw [htail] at ha
    rcases List.eq_nil_or_concat (xs id) with hxs | ⟨ys, x, hxs⟩
    · rw [hxs] at ha
      cases ha
    · rw [List.concat_eq_append] at hxs
      rw [hxs] at ha hlink
      rw [lastPtr_append] at ha
      obtain rfl : x.1 = a := Option.some.inj ha
      exact ⟨_, (linked_append.mp hlink).2.1, rfl⟩

theorem PoolOk.empty : PoolOk (ListPool.empty : ListPool α) (fun _ => []) := ⟨PoolAt.empty, fun _ _ => rfl⟩

/-- The calls that build a list. -/
def ListOp.Builds : ListOp α → Prop
  | .append _ _ => True
  | .prepend _ _ => True
  | .insert _ _ _ => True
  | .join _ _ => True
  | .setN _ _ _ => True
  | .addSorted _ _ _ => True
  | _ => False

/-- What `r_list_foreach` goes through. -/
def foreachData (c : Cells α) : Nat → Option Nat → Option (List α)
  | _, none => some []
  | 0, some _ => none
  | fuel + 1, some it => do
    let x ← c it
    match x.data with
    | none => some []
    | some d => do
      let rest ← foreachData c fuel x.n
      some (d :: rest)

def listElements (h : ListMem α) (l : RList) : Option (List α) := foreachData h.cells h.fresh l.head

theorem foreachData_eq {c : Cells α} {p : Option Nat} {xs : List (Nat × α)} (hx : Linked c p xs none)
    {fuel : Nat} (hf : xs.length ≤ fuel) :
    foreachData c fuel (firstPtr xs none) = some (xs.map Prod.snd) := by
  induction xs generalizing p fuel with
  | nil => cases fuel <;> rfl
  | cons x xs ih =>
    cases fuel with
    | zero => cases hf
    | succ fuel =>
      rw [firstPtr_cons, foreachData, hx.1]
      show (foreachData c fuel (firstPtr xs none)).bind _ = _
      rw [ih hx.2 (Nat.le_of_succ_le_succ hf)]
      rfl

theorem ListAt.elements {h : ListMem α} {l : RList} {xs post : List (Nat × α)} (hl : ListAt h l xs post)
    (hv : h.Valid) : listElements h l = some ((xs ++ post).map Prod.snd) := by
  rw [listElements, hl.head]
  exact foreachData_eq hl.linked (hl.length_le_fresh hv)

theorem PoolAt.put_step {β : Type} {s : ListPool α} {xs post : Nat → List (Nat × α)}
    (hp : PoolAt s xs post) {id : Nat} {f : Option (ListResult α β)}
    (ht : ∃ r, f = some r ∧ ∃ xs' post', Turns s.mem (s.lists id) (xs id) (post id) r xs' post') :
    ∃ s' xs' post', f.map (s.put id) = some s' ∧ PoolAt s' xs' post' := by
  obtain ⟨r, rfl, xs', post', ht⟩ := ht
  exact ⟨_, _, _, rfl, hp.put ht⟩

/-- The building calls work on any lists, also on those a join has left with an old tail. -/
theorem PoolAt.build [DecidableEq α] {s : ListPool α} {xs post : Nat → List (Nat × α)}
    (hp : PoolAt s xs post) {op : ListOp α} (hb : op.Builds) :
    ∃ s' xs' post', s.step op = some s' ∧ PoolAt s' xs' post' := by
  have hv := hp.valid
  cases op with
  | append id data =>
    obtain ⟨r, hr, _, ht⟩ := append_turns hv (hp.lists id) data
    exact hp.put_step ⟨r, hr, _, _, ht⟩
  | prepend id data =>
    obtain ⟨r, hr, ht⟩ := prepend_turns hv (hp.lists id) data
    exact hp.put_step ⟨r, hr, _, _, ht⟩
  | insert id n data => exact hp.put_step (insert_op_turns hv (hp.lists id) n data)
  | join id1 id2 => exact join_poolAt hp id1 id2
  | setN id n p => exact hp.put_step (setN_turns hv (hp.lists id) n p)
  | addSorted id data cmp => exact hp.put_step (addSorted_turns hv (hp.lists id) cmp data)
  | pop id => cases hb
  | popHead id => cases hb
  | delN id n => cases hb
  | delete id k => cases hb
  | split id ptr => cases hb
  | reverse id => cases hb
  | sort id cmp => cases hb
  | purge id => cases hb

theorem PoolAt.build_run [DecidableEq α] {s : ListPool α} {xs post : Nat → List (Nat × α)}
    (hp : PoolAt s xs post) {ops : List (ListOp α)} (hb : ∀ op ∈ ops, op.Builds) :
    ∃ s' xs' post', s.run ops = some s' ∧ PoolAt s' xs' post' := by
  induction ops generalizing s xs post with
  | nil => exact ⟨s, xs, post, rfl, hp⟩
  | cons op ops ih =>
    obtain ⟨t, ys, zs, hstep, ht⟩ := hp.build (hb op List.mem_cons_self)
    obtain ⟨s', xs', post', hrun, hs'⟩ := ih ht (fun o ho => hb o (List.mem_cons_of_mem _ ho))
    refine ⟨s', xs', post', ?_, hs'⟩
    rw [ListPool.run, hstep]
    exact hrun

/-- However a list was built, `r_list_sort` keeps its elements, and orders them exactly when the
`sorted` flag is clear or they are in order already. -/
theorem sort_orders_iff [DecidableEq α] (ops : List (ListOp α)) (hb : ∀ op ∈ ops, op.Builds) (id : Nat)
    (cmp : α → α → Int) (ho : TotalPreorder cmp) :
    ∃ s r before after, ListPool.empty.run ops = some s ∧ rListSort s.mem (s.lists id) cmp = some r ∧
      listElements s.mem (s.lists id) = some before ∧ listElements r.mem r.list = some after ∧
      after.Perm before ∧
      (after.IsChain (fun x y => cmp x y ≤ 0) ↔
        (s.lists id).sorted = false ∨ before.IsChain (fun x y => cmp x y ≤ 0)) := by
  obtain ⟨s, xs, post, hrun, hp⟩ := PoolAt.empty.build_run hb
  have hl := hp.lists id
  obtain ⟨r, xs', post', hsort, hs⟩ := sort_sorts hp.valid hl cmp
  have hafter := hs.turns.listAt.elements (hs.turns.valid hp.valid hl)
  refine ⟨s, r, _, _, hrun, hsort, hl.elements hp.valid, hafter, hs.perm, ?_⟩
  cases hflag : (s.lists id).sorted with
  | false =>
    have hchain := (hs.ordered hflag ho).isChain
    exact ⟨fun _ => Or.inl rfl, fun _ => hchain⟩
  | true =>
    obtain ⟨rfl, rfl⟩ := hs.trusted hflag
    constructor
    · intro h
      exact Or.inr h
    · intro h
      rcases h with h | h
      · cases h
      · exact h

theorem intDiff_totalPreorder : TotalPreorder (fun x y : Int => x - y) := by
  constructor
  · intro x y
    omega
  · intro x y z hxy hyz
    omega

theorem sort_orders_iff_two_appends : ∃ (s : ListPool Int) (r : ListResult Int Unit) (before after : List Int),
    ListPool.empty.run [.append 0 2, .append 0 1] = some s ∧
    rListSort s.mem (s.lists 0) (fun x y => x - y) = some r ∧
    listElements s.mem (s.lists 0) = some before ∧ listElements r.mem r.list = some after ∧
    after.Perm before ∧
    (after.IsChain (fun x y => x - y ≤ 0) ↔
      (s.lists 0).sorted = false ∨ before.IsChain (fun x y => x - y ≤ 0)) := by
  refine sort_orders_iff [.append 0 2, .append 0 1] ?_ 0 (fun x y => x - y) intDiff_totalPreorder
  intro op hop
  simp only [List.mem_cons, List.not_mem_nil, or_false] at hop
  rcases hop with rfl | rfl <;> trivial

/-- Two elements put in front one after the other stay in the wrong order: `r_list_prepend` has
set the flag. -/
theorem sort_trusts_flag : TotalPreorder (fun x y : Int => x - y) ∧
    ∃ (s : ListPool Int) (r : ListResult Int Unit),
      ListPool.empty.run [.prepend 0 1, .prepend 0 2] = some s ∧
      rListSort s.mem (s.lists 0) (fun x y => x - y) = some r ∧
      listElements r.mem r.list = some [2, 1] ∧ ¬ [2, 1].IsChain (fun x y : Int => x - y ≤ 0) :=
  ⟨intDiff_totalPreorder, _, _, rfl, rfl, rfl, by decide⟩

end Radare
