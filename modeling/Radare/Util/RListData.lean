import Radare.Framework.Marks
import Radare.Util.RListHistory

namespace Radare

open Framework

variable {α : Type} {h : ListMem α} {l : RList} {cmp : α → α → Int}

/-- `r_list_append` for each of the data in turn. -/
def rListAppendAll (h : ListMem α) (l : RList) : List α → Option (ListResult α Unit)
  | [] => some ⟨h, l, ()⟩
  | x :: xs => do
    let r ← rListAppend h l x
    rListAppendAll r.mem r.list xs

/-- `r_list_sort` on a list that holds these data and has this flag: the data in their new order and
the flag afterwards. -/
def sortData (cmp : α → α → Int) (xs : List α) (sorted : Bool) : Option (List α × Bool) := do
  let r ← rListAppendAll ⟨fun _ => none, 0⟩ RList.init xs
  let s ← rListSort r.mem { r.list with sorted := sorted } cmp
  let ys ← listElements s.mem s.list
  some (ys, s.list.sorted)

theorem appendAll_listAt {ns : List (Nat × α)} (hv : h.Valid) (hl : ListAt h l ns []) (xs : List α) :
    ∃ r ms, rListAppendAll h l xs = some r ∧ r.mem.Valid ∧ ListAt r.mem r.list ms [] ∧
      ms.map Prod.snd = ns.map Prod.snd ++ xs := by
  induction xs generalizing h l ns with
  | nil => exact ⟨_, ns, rfl, hv, hl, (List.append_nil _).symm⟩
  | cons x xs ih =>
    obtain ⟨r, hr, _, ht⟩ := append_turns hv hl x
    obtain ⟨r', ms, hr', hv', hl', hms⟩ := ih (ht.valid hv hl) ht.listAt
    refine ⟨r', ms, ?_, hv', hl', ?_⟩
    · rw [rListAppendAll, hr]
      exact hr'
    · rw [hms, List.map_append, List.append_assoc]
      rfl

theorem rListSort_flag {r : ListResult α Unit} (hr : rListSort h l cmp = some r) : r.list.sorted = true := by
  unfold rListSort at hr
  split_ifs at hr
  · unfold rListMergeSort at hr
    split_ifs at hr
    · obtain ⟨a, _, hr⟩ := Option.bind_eq_some_iff.mp hr
      obtain ⟨b, _, hr⟩ := Option.bind_eq_some_iff.mp hr
      cases hr
      rfl
    · cases hr
      rfl
  · unfold rListInsertionSort at hr
    split_ifs at hr with hs
    · obtain ⟨a, _, hr⟩ := Option.bind_eq_some_iff.mp hr
      cases hr
      rfl
    · cases hr
      simpa using hs

/-- The sort always comes to an end; it orders the data unless the flag says that they are in order. -/
theorem sortData_spec (cmp : α → α → Int) (xs : List α) (sorted : Bool) :
    ∃ ys, sortData cmp xs sorted = some (ys, true) ∧ ys.Perm xs ∧ (sorted = true → ys = xs) ∧
      (sorted = false → TotalPreorder cmp → ys.Pairwise (fun x y => cmp x y ≤ 0)) := by
  have hempty : ListAt (⟨fun _ => none, 0⟩ : ListMem α) RList.init [] [] :=
    ⟨trivial, List.nodup_nil, rfl, rfl, fun _ => rfl⟩
  obtain ⟨r, ms, hr, hv, hl, hms⟩ := appendAll_listAt (fun _ _ => rfl) hempty xs
  have hl' : ListAt r.mem { r.list with sorted := sorted } ms [] :=
    ⟨hl.linked, hl.nodup, hl.head, hl.tail, hl.closed⟩
  obtain ⟨s, ns, post, hs, hsorts⟩ := sort_sorts hv hl' cmp
  have helems := hsorts.turns.listAt.elements (hsorts.turns.valid hv hl')
  have hxs : (ms ++ []).map Prod.snd = xs := by
    rw [List.append_nil, hms]
    rfl
  refine ⟨(ns ++ post).map Prod.snd, ?_, hxs ▸ hsorts.perm, ?_, hsorts.ordered⟩
  · simp only [sortData, hr, hs, helems, rListSort_flag hs, Option.bind_eq_bind, Option.bind_some]
  · intro hset
    obtain ⟨rfl, rfl⟩ := hsorts.trusted hset
    exact hxs

/-- `r_list_add_sorted` for each of the data in turn. -/
def rListAddSortedAll (cmp : α → α → Int) (h : ListMem α) (l : RList) : List α → Option (ListResult α Unit)
  | [] => some ⟨h, l, ()⟩
  | x :: xs => do
    let r ← rListAddSorted h l x cmp
    rListAddSortedAll cmp r.mem r.list xs

/-- The data of a list that was made by `r_list_add_sorted`. -/
def addSortedData (cmp : α → α → Int) (xs : List α) : Option (List α) := do
  let r ← rListAddSortedAll cmp ⟨fun _ => none, 0⟩ RList.init xs
  listElements r.mem r.list

/-- Before the first that it is not behind. -/
def insertSorted (cmp : α → α → Int) (xs : List α) (d : α) : List α :=
  xs.takeWhile (fun x => 0 < cmp d x) ++ d :: xs.dropWhile (fun x => 0 < cmp d x)

theorem addSorted_listAt {ns : List (Nat × α)} (hv : h.Valid) (hl : ListAt h l ns []) (cmp : α → α → Int) (d : α) :
    ∃ r ms, rListAddSorted h l d cmp = some r ∧ r.mem.Valid ∧ ListAt r.mem r.list ms [] ∧
      ms.map Prod.snd = insertSorted cmp (ns.map Prod.snd) d := by
  obtain ⟨r, xs', post', hr, ht, hplace⟩ := addSorted_places hv hl cmp d
  obtain rfl : post' = [] := (ht.whole rfl).1
  refine ⟨r, xs', hr, ht.valid hv hl, ht.listAt, ?_⟩
  rw [List.append_nil, List.append_nil] at hplace
  unfold insertSorted
  rcases hplace with ⟨l1, x, r1, hns, hxs, hl1, hx⟩ | ⟨hxs, _, hall⟩
  · have hfront : ∀ y ∈ l1.map Prod.snd, decide (0 < cmp d y) = true := by
      rw [List.forall_mem_map]
      exact fun y hy => decide_eq_true (hl1 y hy)
    rw [hxs, hns]
    simp only [List.map_append, List.map_cons]
    rw [List.takeWhile_append_of_pos hfront, List.dropWhile_append_of_pos hfront,
      List.takeWhile_cons_of_neg (by simpa using hx), List.dropWhile_cons_of_neg (by simpa using hx), List.append_nil]
  · have hfront : ∀ y ∈ ns.map Prod.snd, decide (0 < cmp d y) = true := by
      rw [List.forall_mem_map]
      exact fun y hy => decide_eq_true (hall y hy)
    rw [hxs, List.takeWhile_eq_self_iff.mpr hfront, List.dropWhile_eq_nil_iff.mpr hfront, List.map_append]
    rfl

/-- A list that is made so holds the data as they were inserted one after another. -/
theorem addSortedData_eq (cmp : α → α → Int) (xs : List α) :
    addSortedData cmp xs = some (xs.foldl (insertSorted cmp) []) := by
  have hrun : ∀ (xs : List α) (h : ListMem α) (l : RList) (ns : List (Nat × α)), h.Valid → ListAt h l ns [] →
      (rListAddSortedAll cmp h l xs).bind (fun r => listElements r.mem r.list) =
        some (xs.foldl (insertSorted cmp) (ns.map Prod.snd)) := by
    intro xs
    induction xs with
    | nil =>
      intro h l ns hv hl
      have helems := hl.elements hv
      rw [List.append_nil] at helems
      exact helems
    | cons x xs ih =>
      intro h l ns hv hl
      obtain ⟨r, ms, hr, hv', hl', hms⟩ := addSorted_listAt hv hl cmp x
      simp only [rListAddSortedAll, hr, Option.bind_eq_bind, Option.bind_some]
      rw [ih r.mem r.list ms hv' hl', hms, List.foldl_cons]
  exact hrun xs _ _ [] (fun _ _ => rfl) ⟨trivial, List.nodup_nil, rfl, rfl, fun _ => rfl⟩

theorem insertSorted_perm (cmp : α → α → Int) (xs : List α) (d : α) : (insertSorted cmp xs d).Perm (d :: xs) := by
  refine List.perm_middle.trans (List.Perm.of_eq ?_)
  rw [List.takeWhile_append_dropWhile]

theorem insertSortedAll_perm (cmp : α → α → Int) (ds : List α) : (ds.foldl (insertSorted cmp) []).Perm ds := by
  induction ds using List.reverseRecOn with
  | nil => exact List.Perm.refl _
  | append_singleton ds d ih =>
    rw [List.foldl_append]
    exact ((insertSorted_perm cmp _ d).trans (ih.cons d)).trans (List.perm_append_singleton d ds).symm

/-- The keys are in increasing order, and of equal ones those that came later are first. -/
theorem insertSortedAll_pairwise (key : α → Int) {before : α → α → Prop} (hcmp : ∀ x y, 0 < cmp x y ↔ key y < key x)
    {ds : List α} (h : ds.Pairwise before) :
    (ds.foldl (insertSorted cmp) []).Pairwise (fun a b => key a < key b ∨ (key a = key b ∧ before b a)) := by
  induction ds using List.reverseRecOn with
  | nil => exact List.Pairwise.nil
  | append_singleton ds d ih =>
    obtain ⟨hds, _, hlast⟩ := List.pairwise_append.mp h
    have hold := ih hds
    have hperm := insertSortedAll_perm cmp ds
    rw [List.foldl_append]
    generalize ds.foldl (insertSorted cmp) [] = xs at hold hperm
    have hlater : ∀ x ∈ xs, before x d := fun x hx => hlast x (hperm.mem_iff.mp hx) d (List.mem_singleton_self d)
    have hfront : ∀ x ∈ xs.takeWhile (fun x => decide (0 < cmp d x)), key x < key d :=
      fun x hx => (hcmp d x).mp (of_decide_eq_true (List.mem_takeWhile_imp (p := fun x => decide (0 < cmp d x)) hx))
    have hback : ∀ x ∈ xs.dropWhile (fun x => decide (0 < cmp d x)), key d ≤ key x := by
      intro x hx
      have hnot := not_of_mem_dropWhile (p := fun x => decide (0 < cmp d x)) (fun a b hab hb => by
        have hlt := (hcmp d b).mp (of_decide_eq_true hb)
        exact decide_eq_true ((hcmp d a).mpr (by omega))) hold x hx
      have hle := mt (hcmp d x).mpr (of_decide_eq_false hnot)
      omega
    have hsplit := List.takeWhile_append_dropWhile (p := fun x => decide (0 < cmp d x)) (l := xs)
    rw [← hsplit] at hold
    obtain ⟨hleft, hright, hcross⟩ := List.pairwise_append.mp hold
    refine List.pairwise_append.mpr ⟨hleft, List.pairwise_cons.mpr ⟨fun x hx => ?_, hright⟩, fun x hx y hy => ?_⟩
    · have hle := hback x hx
      rcases Int.lt_or_eq_of_le hle with hlt | heq
      · exact Or.inl hlt
      · exact Or.inr ⟨heq, hlater x ((List.dropWhile_suffix _).subset hx)⟩
    · rcases List.mem_cons.mp hy with rfl | hy
      · exact Or.inl (hfront x hx)
      · exact hcross x hx y hy

end Radare
