import Radare.Util.Tree

namespace Radare

open Framework RoseTree

section Turns

variable {st : RTreeStack} {q : RQueue (Option Nat)} {xs : List Nat}

theorem stackChildren_spec (cs : List Nat) (h : st.Holds xs) (log : List TreeEvent) :
    (cs.length + xs.length ≤ 2147483648 → ∃ st', stackChildren logVisitor cs st log =
      some (st', log ++ cs.map .discover) ∧ st'.Holds (cs.reverse ++ xs)) ∧
    (xs.length ≤ 2147483648 → ¬ cs.length + xs.length ≤ 2147483648 → stackChildren logVisitor cs st log = none) := by
  induction cs generalizing st xs log with
  | nil => exact ⟨fun _ => ⟨st, by simp [stackChildren], h⟩, fun hle hno => absurd (by simpa using hle) hno⟩
  | cons c cs ih =>
    have hcall : callBack logVisitor.discoverChild c log = some (log ++ [.discover c]) := rfl
    by_cases hlt : xs.length < 2147483648
    · obtain ⟨st1, hpush, h1⟩ := h.push c hlt
      obtain ⟨hgo, hstop⟩ := ih h1 (log ++ [.discover c])
      have hturn : stackChildren logVisitor (c :: cs) st log = stackChildren logVisitor cs st1 (log ++ [.discover c]) := by
        simp only [stackChildren, hcall, hpush, Option.bind_eq_bind, Option.bind_some]
      rw [hturn]
      rw [List.length_cons] at hgo hstop ⊢
      refine ⟨fun hle => ?_, fun _ hno => hstop (by omega) (by omega)⟩
      obtain ⟨st', hrest, h'⟩ := hgo (by omega)
      refine ⟨st', by rw [hrest, List.map_cons, List.append_assoc, List.singleton_append], ?_⟩
      rwa [List.reverse_cons, List.append_assoc, List.singleton_append]
    · rw [List.length_cons]
      refine ⟨fun hle => absurd hle (by omega), fun _ _ => ?_⟩
      simp only [stackChildren, hcall, h.push_full c (by omega), Option.bind_eq_bind, Option.bind_some, Option.bind_none]

theorem queueChildren_spec (cs : List Nat) (h : QueueHolds q xs) (log : List TreeEvent) :
    (xs.length + cs.length ≤ 2147483648 → ∃ q', queueChildren logVisitor cs q log =
      some (q', log ++ cs.map .discover) ∧ QueueHolds q' (xs ++ cs)) ∧
    (xs.length ≤ 2147483648 → ¬ xs.length + cs.length ≤ 2147483648 → queueChildren logVisitor cs q log = none) := by
  induction cs generalizing q xs log with
  | nil => exact ⟨fun _ => ⟨q, by simp [queueChildren], by simpa using h⟩, fun hle hno => absurd (by simpa using hle) hno⟩
  | cons c cs ih =>
    have hcall : callBack logVisitor.discoverChild c log = some (log ++ [.discover c]) := rfl
    by_cases hlt : xs.length < 2147483648
    · obtain ⟨q1, hput, h1⟩ := h.enqueue c hlt
      obtain ⟨hgo, hstop⟩ := ih h1 (log ++ [.discover c])
      have hturn : queueChildren logVisitor (c :: cs) q log = queueChildren logVisitor cs q1 (log ++ [.discover c]) := by
        simp only [queueChildren, hcall, hput, Option.bind_eq_bind, Option.bind_some]
      rw [hturn]
      rw [List.length_append, List.length_singleton] at hgo hstop
      rw [List.length_cons]
      refine ⟨fun hle => ?_, fun _ hno => hstop (by omega) (by omega)⟩
      obtain ⟨q', hrest, h'⟩ := hgo (by omega)
      refine ⟨q', by rw [hrest, List.map_cons, List.append_assoc, List.singleton_append], ?_⟩
      rwa [List.append_assoc, List.singleton_append] at h'
    · rw [List.length_cons]
      refine ⟨fun hle => absurd hle (by omega), fun hle _ => ?_⟩
      simp only [queueChildren, hcall, h.enqueue_full c (by omega), Option.bind_eq_bind, Option.bind_some, Option.bind_none]

end Turns

section Loops

variable {α : Type} {nodes : List (RTreeNode α)} {st : RTreeStack} {q : RQueue (Option Nat)} {ts : List (RoseTree Nat)}
  {log : List TreeEvent} {n : Nat}

theorem RTreeStack.Holds.length_le {xs : List Nat} (h : st.Holds xs) : xs.length ≤ 2147483648 := by
  obtain ⟨k, hk, -, hle⟩ := h.size
  exact hle.trans (Nat.pow_le_pow_right (by decide) hk)

theorem QueueHolds.length_le {xs : List Nat} (h : QueueHolds q xs) : xs.length ≤ 2147483648 := by
  obtain ⟨hq, k, hk, hcap⟩ := h
  have hpow : 2 ^ k ≤ 2 ^ 31 := Nat.pow_le_pow_right (by decide) hk
  have hsize : q.size = xs.length := by rw [hq.size, List.length_map]
  have hfits := hq.fits
  omega

/-- The forest `ts` is in the memory. -/
def TreeLinked (nodes : List (RTreeNode α)) (ts : List (RoseTree Nat)) : Prop :=
  ∀ t ∈ preorder ts, childrenOf nodes t.label = some (t.children.map label)

theorem TreeLinked.put {t : RoseTree Nat} {rest pending : List (RoseTree Nat)} (h : TreeLinked nodes (t :: rest))
    (hp : (preorder pending).Perm (preorder (t.children ++ rest))) : TreeLinked nodes pending := by
  intro u hu
  refine h u ?_
  rw [preorder_cons, ← preorder_append]
  exact List.mem_cons_of_mem _ (hp.mem_iff.mp hu)

/-- The calls of the visitor for a node whose children are met in the order `cs`. -/
def turnLog (t : RoseTree Nat) (cs : List Nat) : List TreeEvent :=
  TreeEvent.pre t.label :: (cs.map .discover ++ [.post t.label])

def dfsLog (ts : List (RoseTree Nat)) : List TreeEvent := ts.flatMap fun t => turnLog t (t.children.map label).reverse

def bfsLog (ts : List (RoseTree Nat)) : List TreeEvent := ts.flatMap fun t => turnLog t (t.children.map label)

theorem preVisits_turnLog (t : RoseTree Nat) (cs : List Nat) : preVisits (turnLog t cs) = [t.label] := by
  have hcs : preVisits (cs.map .discover ++ [.post t.label]) = [] := by
    rw [preVisits, List.filterMap_append, List.filterMap_map]
    simp
  rw [turnLog, preVisits, List.filterMap_cons]
  exact congrArg (t.label :: ·) hcs

theorem preVisits_flatMap (f : RoseTree Nat → List Nat) (ts : List (RoseTree Nat)) :
    preVisits (ts.flatMap fun t => turnLog t (f t)) = ts.map label := by
  induction ts with
  | nil => rfl
  | cons t ts ih =>
    rw [List.flatMap_cons, preVisits, List.filterMap_append, ← preVisits, ← preVisits, preVisits_turnLog, ih]
    rfl

theorem treeDfsLoop_spec (log : List TreeEvent) (hn : size ts ≤ n) (hts : TreeLinked nodes ts) (h : st.Holds (ts.map label)) :
    (Within onStack 2147483648 n ts → treeDfsLoop (fun _ n => childrenOf nodes n) logVisitor (n + 1) st log =
      some (log ++ dfsLog (visited onStack n ts))) ∧
    (¬ Within onStack 2147483648 n ts →
      treeDfsLoop (fun _ n => childrenOf nodes n) logVisitor (n + 1) st log = none) := by
  induction n generalizing st ts log with
  | zero =>
    have hnil : ts = [] := List.eq_nil_of_length_eq_zero (by have hle := length_le_size ts; omega)
    subst hnil
    refine ⟨fun _ => ?_, fun hno => absurd trivial hno⟩
    rw [treeDfsLoop, h.elems]
    simp [visited, dfsLog]
  | succ n ih =>
    cases ts with
    | nil =>
      refine ⟨fun _ => ?_, fun hno => absurd trivial hno⟩
      rw [treeDfsLoop, h.elems]
      simp [visited, dfsLog]
    | cons t rest =>
      rw [size_cons] at hn
      have hchildren := hts t (by rw [preorder_cons]; exact List.mem_cons_self)
      have hpre : callBack logVisitor.preVisit t.label log = some (log ++ [.pre t.label]) := rfl
      have hpop : RTreeStack.Holds { st with elems := rest.map label } (rest.map label) := by
        obtain ⟨k, hk, hsize, hle⟩ := h.size
        exact ⟨rfl, k, hk, hsize, Nat.le_of_succ_le (by simpa using hle)⟩
      obtain ⟨hgo, hstop⟩ := stackChildren_spec (t.children.map label).reverse hpop (log ++ [.pre t.label])
      simp only [List.length_reverse, List.length_map, List.reverse_reverse] at hgo hstop
      have hlen : (onStack rest t.children).length = t.children.length + rest.length := List.length_append
      rw [treeDfsLoop, h.elems]
      simp only [List.map_cons, hpre, hchildren, Option.bind_eq_bind, Option.bind_some, Within, visited, hlen]
      by_cases hroom : t.children.length + rest.length ≤ 2147483648
      · obtain ⟨st', hpush, hholds⟩ := hgo hroom
        rw [← List.map_append] at hholds
        have hpost : ∀ l, callBack logVisitor.postVisit t.label l = some (l ++ [.post t.label]) := fun l => rfl
        obtain ⟨hrun, hnone⟩ := @ih st' (onStack rest t.children)
          (log ++ [.pre t.label] ++ (t.children.map label).reverse.map .discover ++ [.post t.label])
          (by rw [onStack, size_append]; omega) (hts.put (List.Perm.refl _)) hholds
        simp only [hpush, hpost, Option.bind_some]
        refine ⟨fun hall => ?_, fun hno => hnone fun hall => hno ⟨hroom, hall⟩⟩
        rw [hrun hall.2]
        simp [dfsLog, turnLog]
      · rw [hstop (by simpa using hpop.length_le) hroom]
        exact ⟨fun hall => absurd hall.1 hroom, fun _ => rfl⟩

theorem treeBfsLoop_spec (log : List TreeEvent) (hn : size ts ≤ n) (hts : TreeLinked nodes ts) (h : QueueHolds q (ts.map label)) :
    (Within inQueue 2147483648 n ts → treeBfsLoop (fun _ n => childrenOf nodes n) logVisitor (n + 1) q log =
      some (log ++ bfsLog (visited inQueue n ts))) ∧
    (¬ Within inQueue 2147483648 n ts →
      treeBfsLoop (fun _ n => childrenOf nodes n) logVisitor (n + 1) q log = none) := by
  induction n generalizing q ts log with
  | zero =>
    have hnil : ts = [] := List.eq_nil_of_length_eq_zero (by have hle := length_le_size ts; omega)
    subst hnil
    refine ⟨fun _ => ?_, fun hno => absurd trivial hno⟩
    rw [treeBfsLoop, h.isEmpty]
    simp [visited, bfsLog]
  | succ n ih =>
    cases ts with
    | nil =>
      refine ⟨fun _ => ?_, fun hno => absurd trivial hno⟩
      rw [treeBfsLoop, h.isEmpty]
      simp [visited, bfsLog]
    | cons t rest =>
      rw [size_cons] at hn
      have hchildren := hts t (by rw [preorder_cons]; exact List.mem_cons_self)
      have hpre : callBack logVisitor.preVisit t.label log = some (log ++ [.pre t.label]) := rfl
      obtain ⟨q1, htake, hq1⟩ := h.dequeue
      obtain ⟨hgo, hstop⟩ := queueChildren_spec (t.children.map label) hq1 (log ++ [.pre t.label])
      simp only [List.length_map] at hgo hstop
      have hlen : (inQueue rest t.children).length = rest.length + t.children.length := List.length_append
      rw [treeBfsLoop, h.isEmpty]
      simp only [List.map_cons, List.isEmpty_cons, Bool.false_eq_true, if_false, htake, hpre, hchildren,
        Option.bind_eq_bind, Option.bind_some, Within, visited, hlen]
      by_cases hroom : rest.length + t.children.length ≤ 2147483648
      · obtain ⟨q', hput, hholds⟩ := hgo hroom
        rw [← List.map_append] at hholds
        have hpost : ∀ l, callBack logVisitor.postVisit t.label l = some (l ++ [.post t.label]) := fun l => rfl
        have hperm : (preorder (inQueue rest t.children)).Perm (preorder (t.children ++ rest)) := by
          rw [inQueue, preorder_append, preorder_append]
          exact List.perm_append_comm
        obtain ⟨hrun, hnone⟩ := @ih q' (inQueue rest t.children)
          (log ++ [.pre t.label] ++ (t.children.map label).map .discover ++ [.post t.label])
          (by rw [inQueue, size_append]; omega) (hts.put hperm) hholds
        simp only [hput, hpost, Option.bind_some]
        refine ⟨fun hall => ?_, fun hno => hnone fun hall => hno ⟨hroom, hall⟩⟩
        rw [hrun hall.2]
        simp [bfsLog, turnLog]
      · rw [hstop (by simpa using hq1.length_le) hroom]
        exact ⟨fun hall => absurd hall.1 hroom, fun _ => rfl⟩

end Loops

section Trees

variable {α : Type} {h : RTrees α} {g : TreeShapes} {t : Nat} {shape : Option (RoseTree Nat)}

/-- An order in which every node of tree `t` comes once. -/
def EveryNodeOnce (h : RTrees α) (t : Nat) (order : List Nat) : Prop :=
  order.Nodup ∧ ∀ x, x ∈ order ↔ ∃ n, h.nodes[x]? = some n ∧ n.tree = t

def TreeDepthsRight (h : RTrees α) (ts : List (RoseTree Nat)) : Prop :=
  ∀ k, ∀ u ∈ level k ts, (h.nodes[u.label]?).map (·.depth) = some (k : Int)

def TreeDfsRight (h : RTrees α) (t : Nat) (ts : List (RoseTree Nat)) : Prop :=
  ∃ log, rTreeDfs h t = some log ∧ preVisits log = (preorder ts).map label ∧ EveryNodeOnce h t (preVisits log)

def TreeBfsRight (h : RTrees α) (t : Nat) (ts : List (RoseTree Nat)) : Prop :=
  ∃ log, rTreeBfs h t = some log ∧ preVisits log = (levelOrder ts).map label ∧ EveryNodeOnce h t (preVisits log)

theorem Grown.linked (hg : Grown h g) (hs : g.shapes[t]? = some shape) : TreeLinked h.nodes shape.toList :=
  (hg.holds hs).shape.children

/-- The turns that the code allows a search are enough. -/
theorem Grown.size_le (hg : Grown h g) (hs : g.shapes[t]? = some shape) : size shape.toList ≤ h.nodes.length := by
  have hsub : labels shape.toList ⊆ List.range h.nodes.length := fun x hx => by
    obtain ⟨n, hn, -⟩ := ((hg.holds hs).owns x).mp hx
    exact List.mem_range.mpr (List.getElem?_eq_some_iff.mp hn).1
  have hle := ((hg.holds hs).nodup.subperm hsub).length_le
  rwa [List.length_range, labels, List.length_map] at hle

theorem Grown.once (hg : Grown h g) (hs : g.shapes[t]? = some shape) {order : List (RoseTree Nat)}
    (hperm : order.Perm (preorder shape.toList)) : EveryNodeOnce h t (order.map label) := by
  have hlabels : (order.map label).Perm (labels shape.toList) := hperm.map label
  refine ⟨hlabels.nodup_iff.mpr (hg.holds hs).nodup, fun x => ?_⟩
  rw [hlabels.mem_iff, (hg.holds hs).owns]

theorem wrapInt_natCast_iff (k : Nat) : wrapInt k = (k : Int) ↔ k ≤ 2147483647 := by
  unfold wrapInt
  omega

theorem treeDepthsRight_iff (hg : Grown h g) (hs : g.shapes[t]? = some shape) :
    TreeDepthsRight h shape.toList ↔ ∀ k, level k shape.toList ≠ [] → k ≤ 2147483647 := by
  have hdepth := (hg.holds hs).shape.depth
  constructor
  · intro hright k hne
    obtain ⟨u, hu⟩ := List.exists_mem_of_ne_nil _ hne
    have hfield := hdepth k u hu
    rw [hright k u hu, Nat.zero_add] at hfield
    exact (wrapInt_natCast_iff k).mp (Option.some.inj hfield).symm
  · intro hfit k u hu
    rw [hdepth k u hu, Nat.zero_add, (wrapInt_natCast_iff k).mpr (hfit k (List.ne_nil_of_mem hu))]

theorem treeDfsRight_iff (hg : Grown h g) (hs : g.shapes[t]? = some shape) :
    TreeDfsRight h t shape.toList ↔ WaitsWithinAll 2147483648 0 shape.toList := by
  have hroot := hg.root hs
  have hsize := hg.size_le hs
  have hlinked := hg.linked hs
  have honce := hg.once hs (List.Perm.refl _)
  cases shape with
  | none =>
    refine iff_of_true ⟨[], ?_, rfl, honce⟩ trivial
    rw [rTreeDfs, hroot]
    rfl
  | some root =>
    rw [Option.toList_some] at hsize hlinked honce ⊢
    have hempty : RTreeStack.Holds ⟨[], 16⟩ [] := ⟨rfl, 4, by decide, rfl, by decide⟩
    obtain ⟨st, hpush, hst⟩ := hempty.push root.label (by decide)
    obtain ⟨hgo, hstop⟩ := treeDfsLoop_spec [] hsize hlinked hst
    have hrun : rTreeDfs h t = treeDfsLoop (fun _ n => childrenOf h.nodes n) logVisitor (h.nodes.length + 1) st [] := by
      rw [rTreeDfs, hroot]
      show treeDfsNode _ _ _ _ _ = _
      rw [treeDfsNode, hpush]
      rfl
    rw [TreeDfsRight, ← within_onStack_iff _ hsize, hrun]
    by_cases hfit : Within onStack 2147483648 h.nodes.length [root]
    · refine iff_of_true ?_ hfit
      have hlog : preVisits (dfsLog (visited onStack h.nodes.length [root])) = (preorder [root]).map label := by
        rw [dfsLog, preVisits_flatMap, visited_onStack hsize]
      refine ⟨_, hgo hfit, ?_, ?_⟩
      · exact hlog
      · show EveryNodeOnce h t (preVisits (dfsLog _))
        rwa [hlog]
    · refine iff_of_false ?_ hfit
      rintro ⟨log, hlog, -⟩
      rw [hstop hfit] at hlog
      cases hlog

theorem treeBfsRight_iff (hg : Grown h g) (hs : g.shapes[t]? = some shape) :
    TreeBfsRight h t shape.toList ↔ LevelsWithin 2147483648 shape.toList := by
  have hroot := hg.root hs
  have hsize := hg.size_le hs
  have hlinked := hg.linked hs
  have hperm : (levelOrder shape.toList).Perm (preorder shape.toList) := by
    rw [← visited_inQueue (Nat.le_refl _)]
    exact visited_perm (fun rest cs => List.perm_append_comm) (Nat.le_refl _)
  have honce := hg.once hs hperm
  cases shape with
  | none =>
    refine iff_of_true ⟨[], ?_, rfl, honce⟩ (levelsWithin_of_size (Nat.zero_le _))
    rw [rTreeBfs, hroot]
    rfl
  | some root =>
    rw [Option.toList_some] at hsize hlinked honce ⊢
    obtain ⟨q0, hnew⟩ : ∃ q0, rQueueNew (none : Option Nat) (fun _ => true) 16 = some q0 := ⟨_, rfl⟩
    have hempty : QueueHolds q0 [] := ⟨rQueueNew_holds hnew, 4, by decide, by cases hnew; rfl⟩
    obtain ⟨q, hput, hq⟩ := hempty.enqueue root.label (by decide)
    obtain ⟨hgo, hstop⟩ := treeBfsLoop_spec [] hsize hlinked hq
    have hrun : rTreeBfs h t = treeBfsLoop (fun _ n => childrenOf h.nodes n) logVisitor (h.nodes.length + 1) q [] := by
      simp only [rTreeBfs, hroot, hnew, hput, Option.map_some, Option.bind_eq_bind, Option.bind_some]
    rw [TreeBfsRight, ← within_inQueue_iff _ hsize, hrun]
    by_cases hfit : Within inQueue 2147483648 h.nodes.length [root]
    · refine iff_of_true ?_ hfit
      have hlog : preVisits (bfsLog (visited inQueue h.nodes.length [root])) = (levelOrder [root]).map label := by
        rw [bfsLog, preVisits_flatMap, visited_inQueue hsize]
      refine ⟨_, hgo hfit, hlog, ?_⟩
      show EveryNodeOnce h t (preVisits (bfsLog _))
      rwa [hlog]
    · refine iff_of_false ?_ hfit
      rintro ⟨log, hlog, -⟩
      rw [hstop hfit] at hlog
      cases hlog

/-- What the counters hold: depths that fit an `int`, and not more than 2^31 nodes on the stack or in the queue. -/
def TreeFits (ts : List (RoseTree Nat)) : Prop :=
  (∀ k, level k ts ≠ [] → k ≤ 2147483647) ∧ WaitsWithinAll 2147483648 0 ts ∧ LevelsWithin 2147483648 ts

theorem treeFits_of_size {ts : List (RoseTree Nat)} (hsize : size ts ≤ 2147483648) : TreeFits ts := by
  refine ⟨fun k hne => ?_, waitsWithinAll_of_size hsize, levelsWithin_of_size hsize⟩
  have hlevel := size_level k ts hne
  have hpos := List.length_pos_iff.mpr hne
  have hle := length_le_size (level k ts)
  omega

/-- A call on nodes and trees that there are comes back. -/
theorem treeCall_returns (hg : Grown h g) (node : Option Nat) (data : α) (ht : t < g.shapes.length)
    (hnode : ∀ n ∈ node, n < h.nodes.length) : ∃ h', treeCall h (.add (some t) node data) = some h' := by
  have hroot := hg.root (List.getElem?_eq_getElem ht)
  obtain ⟨r, hr⟩ : ∃ r, rTreeAddNode h (some t) node data = some r := by
    cases node with
    | none =>
      cases hshape : g.shapes[t] with
      | none =>
        rw [hshape] at hroot
        exact ⟨_, rTreeAddNode_root hroot⟩
      | some shape =>
        rw [hshape] at hroot
        exact ⟨_, rTreeAddNode_refused hroot (fun n hn => by cases hn) (by simp)⟩
    | some n =>
      obtain ⟨x, hn⟩ : ∃ x, h.nodes[n]? = some x := ⟨_, List.getElem?_eq_getElem (hnode n rfl)⟩
      by_cases htree : x.tree = t
      · exact ⟨_, rTreeAddNode_child hroot hn htree⟩
      · exact ⟨_, rTreeAddNode_refused hroot (fun m hm => by cases hm; exact ⟨_, hn, htree⟩) (by simp)⟩
  exact ⟨r.1, by rw [treeCall, hr]; rfl⟩

end Trees

/-- After every run of calls the depths and both traversals of a tree are right exactly if the counters hold it. -/
theorem rTree_traversals_iff {α : Type} (calls : List (TreeCall α)) (h : RTrees α) (hrun : treeCalls ⟨[], []⟩ calls = some h)
    (t : Nat) (shape : Option (RoseTree Nat)) (hshape : (callsShapes calls).shapes[t]? = some shape) :
    (TreeDepthsRight h shape.toList ∧ TreeDfsRight h t shape.toList ∧ TreeBfsRight h t shape.toList) ↔ TreeFits shape.toList := by
  have hg : Grown h (callsShapes calls) := treeCalls_grown Grown.empty calls hrun
  rw [treeDepthsRight_iff hg hshape, treeDfsRight_iff hg hshape, treeBfsRight_iff hg hshape, TreeFits]

/-- A root with two children, the first of which has a child itself. -/
theorem rTree_traversals_iff_family : ∃ h, treeCalls (⟨[], []⟩ : RTrees Unit)
    [.new, .add (some 0) none (), .add (some 0) (some 0) (), .add (some 0) (some 0) (), .add (some 0) (some 1) ()] = some h ∧
      TreeDepthsRight h [.node 0 [.node 1 [.node 3 []], .node 2 []]] ∧ TreeDfsRight h 0 [.node 0 [.node 1 [.node 3 []], .node 2 []]] ∧
        TreeBfsRight h 0 [.node 0 [.node 1 [.node 3 []], .node 2 []]] :=
  ⟨_, rfl, (rTree_traversals_iff
    [.new, .add (some 0) none (), .add (some 0) (some 0) (), .add (some 0) (some 0) (), .add (some 0) (some 1) ()] _ rfl 0
    (some (.node 0 [.node 1 [.node 3 []], .node 2 []])) rfl).mpr (treeFits_of_size (by decide))⟩

/-- A tree in which every node has one child, which is added to the last node so far. -/
def chainCalls (n : Nat) : List (TreeCall Unit) :=
  [.new, .add (some 0) none ()] ++ (List.range n).map fun k => .add (some 0) (some k) ()

theorem chainCalls_built (n : Nat) : ∃ h root, treeCalls ⟨[], []⟩ (chainCalls n) = some h ∧
    callsShapes (chainCalls n) = ⟨[some root], n + 1⟩ ∧ n ∈ (level n [root]).map label := by
  induction n with
  | zero => exact ⟨_, .node 0 [], rfl, rfl, List.mem_singleton.mpr rfl⟩
  | succ n ih =>
    obtain ⟨h, root, hrun, hshapes, hlevel⟩ := ih
    have hcalls : chainCalls (n + 1) = chainCalls n ++ [.add (some 0) (some n) ()] := by
      rw [chainCalls, List.range_succ, List.map_append, ← List.append_assoc]
      rfl
    have hg : Grown h ⟨[some root], n + 1⟩ := hshapes ▸ treeCalls_grown Grown.empty (chainCalls n) hrun
    obtain ⟨h', hcall⟩ := treeCall_returns hg (t := 0) (some n) () (Nat.succ_pos _) fun m hm => by
      cases hm
      rw [← hg.next]
      exact Nat.lt_succ_self n
    have hmem : n ∈ labels [root] := by
      obtain ⟨u, hu, hlabel⟩ := List.mem_map.mp hlevel
      exact List.mem_map.mpr ⟨u, level_subset n [root] hu, hlabel⟩
    refine ⟨h', root.insert n (n + 1), ?_, ?_, mem_level_insertAll hlevel⟩
    · rw [hcalls, treeCalls, List.foldlM_append, ← treeCalls, hrun]
      show (treeCall h _).bind _ = _
      rw [hcall]
      rfl
    · rw [hcalls, callsShapes, List.foldl_append, ← callsShapes, hshapes]
      exact if_pos hmem

/-- Behind the 2^31 th level the depth runs over. -/
theorem long_chain_depth : ¬ ∀ (calls : List (TreeCall Unit)) (h : RTrees Unit), treeCalls ⟨[], []⟩ calls = some h →
    ∀ t shape, (callsShapes calls).shapes[t]? = some shape →
      TreeDepthsRight h shape.toList ∧ TreeDfsRight h t shape.toList ∧ TreeBfsRight h t shape.toList := by
  intro hall
  obtain ⟨h, root, hrun, hshapes, hlevel⟩ := chainCalls_built 2147483648
  have hshape : (callsShapes (chainCalls 2147483648)).shapes[0]? = some (some root) := by
    rw [hshapes]
    rfl
  have hg : Grown h (callsShapes (chainCalls 2147483648)) := treeCalls_grown Grown.empty _ hrun
  have hdepths := (treeDepthsRight_iff hg hshape).mp (hall _ h hrun 0 (some root) hshape).1 2147483648 fun hnil => by
    rw [Option.toList_some] at hnil
    rw [hnil] at hlevel
    cases hlevel
  omega

end Radare
