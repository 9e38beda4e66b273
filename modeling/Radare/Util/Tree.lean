import Radare.Framework.RoseTree
import Radare.Util.Queue

namespace Radare

open Framework

/-- `RTreeNode`; nodes are numbers, in the order in which they were allocated. -/
structure RTreeNode (α : Type) where
  parent : Option Nat
  tree : Nat
  children : List Nat
  nChildren : Ut32
  depth : Int
  data : α

/-- The roots of all trees, and all nodes. -/
structure RTrees (α : Type) where
  roots : List (Option Nat)
  nodes : List (RTreeNode α)

/-- `RStack` of nodes: the elements up to `top`, the top first, and the allocated size. -/
structure RTreeStack where
  elems : List Nat
  nElems : Ut32

def RTreeStack.top (s : RTreeStack) : Int := (s.elems.length : Int) - 1

/-- `r_stack_push`; `none` for a write behind the array or a `top` that runs over. -/
def RTreeStack.push (s : RTreeStack) (el : Nat) : Option RTreeStack :=
  let nElems := if BitVec.ofInt 32 s.top = s.nElems - 1 then s.nElems * 2 else s.nElems
  if s.top + 1 < 2147483648 ∧ s.top + 1 < nElems.toNat then some ⟨el :: s.elems, nElems⟩ else none

/-- `RTreeVisitor`, whose callbacks work on an `S`. -/
structure RTreeVisitor (S : Type) where
  preVisit : Option (Nat → S → Option S)
  postVisit : Option (Nat → S → Option S)
  discoverChild : Option (Nat → S → Option S)

section Traversals

variable {S : Type}

def callBack (f : Option (Nat → S → Option S)) (n : Nat) (s : S) : Option S :=
  match f with
  | none => some s
  | some f => f n s

variable (children : S → Nat → Option (List Nat)) (vis : RTreeVisitor S)

/-- The inner loop of `tree_dfs_node`, over the children that are left. -/
def stackChildren : List Nat → RTreeStack → S → Option (RTreeStack × S)
  | [], st, s => some (st, s)
  | n :: it, st, s => do
    let s ← callBack vis.discoverChild n s
    let st ← st.push n
    stackChildren it st s

def treeDfsLoop : Nat → RTreeStack → S → Option S
  | 0, _, _ => none
  | fuel + 1, st, s =>
    match st.elems with
    | [] => some s
    | el :: rest => do
      let s ← callBack vis.preVisit el s
      let it ← children s el
      let (st, s) ← stackChildren vis it.reverse { st with elems := rest } s
      let s ← callBack vis.postVisit el s
      treeDfsLoop fuel st s

def treeDfsNode (fuel : Nat) (r : Nat) (s : S) : Option S := do
  let st ← RTreeStack.push ⟨[], 16⟩ r
  treeDfsLoop children vis fuel st s

/-- The inner loop of `r_tree_bfs`; it does not look at what `r_queue_enqueue` returns. -/
def queueChildren : List Nat → RQueue (Option Nat) → S → Option (RQueue (Option Nat) × S)
  | [], q, s => some (q, s)
  | n :: it, q, s => do
    let s ← callBack vis.discoverChild n s
    let (_, q) ← rQueueEnqueue none (fun _ => true) q (some n)
    queueChildren it q s

def treeBfsLoop : Nat → RQueue (Option Nat) → S → Option S
  | 0, _, _ => none
  | fuel + 1, q, s =>
    if rQueueIsEmpty q then some s
    else do
      let (el, q) ← rQueueDequeue none q
      match el with
      | none => some s
      | some el => do
        let s ← callBack vis.preVisit el s
        let it ← children s el
        let (q, s) ← queueChildren vis it q s
        let s ← callBack vis.postVisit el s
        treeBfsLoop fuel q s

end Traversals

section Building

variable {α : Type}

def childrenOf (nodes : List (RTreeNode α)) (n : Nat) : Option (List Nat) := (nodes[n]?).map (·.children)

/-- `update_depth`; `depth` is an `int`. -/
def updateDepth (n : Nat) (h : RTrees α) : Option (RTrees α) := do
  let x ← h.nodes[n]?
  let depth ← match x.parent with
    | none => some 0
    | some p => (h.nodes[p]?).map fun y => wrapInt (y.depth + 1)
  some { h with nodes := h.nodes.set n { x with depth := depth } }

def rTreeNew (h : RTrees α) : RTrees α := { h with roots := h.roots ++ [none] }

/-- `node_new` -/
def nodeNew (t : Nat) (data : α) : RTreeNode α := ⟨none, t, [], 0, 0, data⟩

/-- `r_list_append (node->children, child); node->n_children++;` -/
def addChild (child : Nat) (x : RTreeNode α) : RTreeNode α :=
  { x with children := x.children ++ [child], nChildren := x.nChildren + 1 }

/-- `r_tree_add_node`; `none` where `t` or `node` points to nothing. -/
def rTreeAddNode (h : RTrees α) (t node : Option Nat) (childData : α) : Option (RTrees α × Option Nat) :=
  match t with
  | none => some (h, none)
  | some t => do
    let root ← h.roots[t]?
    let foreign ← match node with
      | none => some false
      | some n => (h.nodes[n]?).map fun x => decide (x.tree ≠ t)
    if foreign = true ∨ (root ≠ none ∧ node = none) then some (h, none)
    else
      let child := h.nodes.length
      let nodes := h.nodes ++ [{ nodeNew t childData with parent := node }]
      let h := match node with
        | none => { roots := h.roots.set t (some child), nodes := nodes }
        | some n => { roots := h.roots, nodes := nodes.modify n (addChild child) }
      let h ← treeDfsNode (fun h n => childrenOf h.nodes n) ⟨some updateDepth, none, none⟩ 2 child h
      some (h, some child)

end Building

inductive TreeEvent where
  | pre (n : Nat)
  | discover (n : Nat)
  | post (n : Nat)
  deriving DecidableEq

/-- A visitor with all its callbacks, which keeps a list of their calls. -/
def logVisitor : RTreeVisitor (List TreeEvent) :=
  ⟨some fun n log => some (log ++ [.pre n]), some fun n log => some (log ++ [.post n]),
    some fun n log => some (log ++ [.discover n])⟩

def preVisits (log : List TreeEvent) : List Nat :=
  log.filterMap fun
    | .pre n => some n
    | _ => none

section Runs

variable {α : Type}

/-- `r_tree_dfs`, the calls of the visitor. -/
def rTreeDfs (h : RTrees α) (t : Nat) : Option (List TreeEvent) := do
  match ← h.roots[t]? with
  | none => some []
  | some root => treeDfsNode (fun _ n => childrenOf h.nodes n) logVisitor (h.nodes.length + 1) root []

/-- `r_tree_bfs`, the calls of the visitor. -/
def rTreeBfs (h : RTrees α) (t : Nat) : Option (List TreeEvent) := do
  match ← h.roots[t]? with
  | none => some []
  | some root => do
    let q ← rQueueNew none (fun _ => true) 16
    let (_, q) ← rQueueEnqueue none (fun _ => true) q (some root)
    treeBfsLoop (fun _ n => childrenOf h.nodes n) logVisitor (h.nodes.length + 1) q []

inductive TreeCall (α : Type) where
  | new
  | add (t node : Option Nat) (childData : α)

def treeCall (h : RTrees α) : TreeCall α → Option (RTrees α)
  | .new => some (rTreeNew h)
  | .add t node childData => (rTreeAddNode h t node childData).map (·.1)

def treeCalls (h : RTrees α) (calls : List (TreeCall α)) : Option (RTrees α) := calls.foldlM treeCall h

/-- The trees that calls build, and the number of the next node. -/
structure TreeShapes where
  shapes : List (Option (RoseTree Nat))
  next : Nat

def TreeShapes.call (g : TreeShapes) : TreeCall α → TreeShapes
  | .new => { g with shapes := g.shapes ++ [none] }
  | .add none _ _ => g
  | .add (some t) node _ =>
    match g.shapes[t]?, node with
    | some none, none => ⟨g.shapes.set t (some (.node g.next [])), g.next + 1⟩
    | some (some shape), some n =>
      if n ∈ RoseTree.labels [shape] then ⟨g.shapes.set t (some (shape.insert n g.next)), g.next + 1⟩ else g
    | _, _ => g

/-- A node is added as the last child of its parent, or as the root of an empty tree. -/
def callsShapes (calls : List (TreeCall α)) : TreeShapes := calls.foldl TreeShapes.call ⟨[], 0⟩

end Runs

section Pending

variable {st : RTreeStack} {q : RQueue (Option Nat)} {xs : List Nat}

structure RTreeStack.Holds (st : RTreeStack) (xs : List Nat) : Prop where
  elems : st.elems = xs
  size : ∃ k ≤ 31, st.nElems.toNat = 2 ^ k ∧ xs.length ≤ 2 ^ k

/-- The array is full exactly if `top` is its last index. -/
theorem RTreeStack.full_iff {n : Nat} {size : Ut32} (hn : n ≤ size.toNat) (hpos : 0 < size.toNat) :
    BitVec.ofInt 32 ((n : Int) - 1) = size - 1 ↔ n = size.toNat := by
  have hsize := size.isLt
  have hone : (1 : Ut32).toNat = 1 := rfl
  rw [← BitVec.toNat_inj, BitVec.toNat_ofInt, BitVec.toNat_sub, hone]
  omega

theorem RTreeStack.Holds.push (h : st.Holds xs) (el : Nat) (hlt : xs.length < 2147483648) :
    ∃ st', st.push el = some st' ∧ st'.Holds (el :: xs) := by
  obtain ⟨k, hk, hsize, hle⟩ := h.size
  have hfull := RTreeStack.full_iff (hsize ▸ hle) (hsize ▸ Nat.two_pow_pos k)
  have htop : (BitVec.ofInt 32 st.top = st.nElems - 1) ↔ xs.length = 2 ^ k := by
    rw [RTreeStack.top, h.elems, hfull, hsize]
  have hsucc : st.top + 1 = (xs.length : Int) := by
    rw [RTreeStack.top, h.elems]
    omega
  by_cases hgrow : xs.length = 2 ^ k
  · have hk' : k ≤ 30 := by
      by_contra hno
      have hk31 : k = 31 := by omega
      rw [hgrow, hk31] at hlt
      exact absurd hlt (by decide)
    have hpow : 2 ^ (k + 1) ≤ 2 ^ 31 := Nat.pow_le_pow_right (by decide) (by omega)
    have hdouble : (st.nElems * 2).toNat = 2 ^ (k + 1) := by
      rw [BitVec.toNat_mul, hsize, Nat.pow_succ]
      have htwo : (2 : Ut32).toNat = 2 := rfl
      rw [htwo]
      rw [Nat.pow_succ] at hpow ⊢
      omega
    rw [Nat.pow_succ] at hdouble
    have hpos := Nat.two_pow_pos k
    refine ⟨⟨el :: xs, st.nElems * 2⟩, ?_, rfl, k + 1, by omega, by rw [hdouble, Nat.pow_succ], ?_⟩
    · simp only [RTreeStack.push, if_pos (htop.mpr hgrow), hsucc, h.elems]
      exact if_pos (by omega)
    · rw [List.length_cons, Nat.pow_succ]
      omega
  · refine ⟨⟨el :: xs, st.nElems⟩, ?_, rfl, k, hk, hsize, ?_⟩
    · simp only [RTreeStack.push, if_neg (fun hno => hgrow (htop.mp hno)), hsucc, h.elems]
      exact if_pos (by omega)
    · rw [List.length_cons]
      omega

theorem RTreeStack.Holds.push_full (h : st.Holds xs) (el : Nat) (hfull : 2147483648 ≤ xs.length) : st.push el = none := by
  have hsucc : st.top + 1 = (xs.length : Int) := by
    rw [RTreeStack.top, h.elems]
    omega
  rw [RTreeStack.push]
  exact if_neg (by omega)

/-- The queue holds the nodes `xs`; its capacity is a power of two. -/
def QueueHolds (q : RQueue (Option Nat)) (xs : List Nat) : Prop :=
  q.Holds (xs.map some) ∧ ∃ k ≤ 31, q.capacity = 2 ^ k

theorem QueueHolds.enqueue (h : QueueHolds q xs) (el : Nat) (hlt : xs.length < 2147483648) :
    ∃ q', rQueueEnqueue none (fun _ => true) q (some el) = some (true, q') ∧ QueueHolds q' (xs ++ [el]) := by
  obtain ⟨hq, k, hk, hcap⟩ := h
  have hpow : 2 ^ k ≤ 2 ^ 31 := Nat.pow_le_pow_right (by decide) hk
  have hsize : q.size = xs.length := by rw [hq.size, List.length_map]
  obtain ⟨q', hcall, h', hcap'⟩ := enqueue_spec none hq (by omega) (by omega) (fun _ => rfl) (some el)
  refine ⟨q', hcall, by rwa [List.map_append], ?_⟩
  rw [hcap'] at *
  split
  · have hk' : k ≠ 31 := by
      rintro rfl
      omega
    exact ⟨k + 1, by omega, by rw [hcap, Nat.pow_succ, Nat.mul_comm]⟩
  · exact ⟨k, hk, hcap⟩

theorem QueueHolds.enqueue_full (h : QueueHolds q xs) (el : Nat) (hfull : xs.length = 2147483648) :
    rQueueEnqueue none (fun _ => true) q (some el) = none := by
  obtain ⟨hq, k, hk, hcap⟩ := h
  have hpow : 2 ^ k ≤ 2 ^ 31 := Nat.pow_le_pow_right (by decide) hk
  have hsize : q.size = xs.length := by rw [hq.size, List.length_map]
  have hfits := hq.fits
  exact enqueue_overflow none hq (by omega) (by omega) (fun _ => rfl) (some el)

theorem QueueHolds.dequeue {x : Nat} (h : QueueHolds q (x :: xs)) :
    ∃ q', rQueueDequeue none q = some (some x, q') ∧ QueueHolds q' xs := by
  obtain ⟨hq, k, hk, hcap⟩ := h
  have hpow : 2 ^ k ≤ 2 ^ 31 := Nat.pow_le_pow_right (by decide) hk
  obtain ⟨q', hcall, h', hcap'⟩ := dequeue_spec none hq (by omega)
  exact ⟨q', hcall, h', k, hk, hcap'.trans hcap⟩

theorem QueueHolds.isEmpty (h : QueueHolds q xs) : rQueueIsEmpty q = xs.isEmpty := by
  rw [rQueueIsEmpty, h.1.size, List.length_map]
  cases xs <;> simp

end Pending

section Shapes

variable {α : Type} {nodes nodes' : List (RTreeNode α)} {ts us : List (RoseTree Nat)} {p : Option Nat} {d q c x : Nat}

/-- Node `x` has the parent `p`, `d` nodes above it and the children `cs`. -/
def NodeAt (nodes : List (RTreeNode α)) (p : Option Nat) (d x : Nat) (cs : List Nat) : Prop :=
  ∃ n, nodes[x]? = some n ∧ n.parent = p ∧ n.depth = wrapInt d ∧ n.children = cs

mutual

/-- The memory holds a tree whose root has the parent `p` and `d` nodes above it. -/
def ShapeAt (nodes : List (RTreeNode α)) (p : Option Nat) (d : Nat) : RoseTree Nat → Prop
  | .node x ts => NodeAt nodes p d x (ts.map RoseTree.label) ∧ ShapesAt nodes (some x) (d + 1) ts

def ShapesAt (nodes : List (RTreeNode α)) (p : Option Nat) (d : Nat) : List (RoseTree Nat) → Prop
  | [] => True
  | t :: ts => ShapeAt nodes p d t ∧ ShapesAt nodes p d ts

end

theorem shapesAt_cons : ShapesAt nodes p d (.node x us :: ts) ↔
    NodeAt nodes p d x (us.map RoseTree.label) ∧ ShapesAt nodes (some x) (d + 1) us ∧ ShapesAt nodes p d ts := by
  rw [ShapesAt, ShapeAt, and_assoc]

theorem shapesAt_snoc (h : ShapesAt nodes p d ts) {t : RoseTree Nat} (ht : ShapeAt nodes p d t) :
    ShapesAt nodes p d (ts ++ [t]) := by
  induction ts with
  | nil => exact ⟨ht, trivial⟩
  | cons u ts ih => exact ⟨h.1, ih h.2⟩

/-- A tree that the new node does not belong to stays as it is. -/
theorem ShapesAt.keep (h : ShapesAt nodes p d ts)
    (hkeep : ∀ p d x cs, x ∈ RoseTree.labels ts → NodeAt nodes p d x cs → NodeAt nodes' p d x cs) : ShapesAt nodes' p d ts := by
  induction ts using RoseTree.forest_induction generalizing p d with
  | nil => trivial
  | cons x us ts ihu iht =>
    rw [shapesAt_cons] at h ⊢
    rw [RoseTree.labels_cons] at hkeep
    exact ⟨hkeep _ _ _ _ List.mem_cons_self h.1,
      ihu h.2.1 fun p d y cs hy => hkeep p d y cs (List.mem_cons_of_mem _ (List.mem_append_left _ hy)),
      iht h.2.2 fun p d y cs hy => hkeep p d y cs (List.mem_cons_of_mem _ (List.mem_append_right _ hy))⟩

/-- The tree grows where its parent node does. -/
theorem ShapesAt.insert (h : ShapesAt nodes p d ts)
    (hkeep : ∀ p d x cs, NodeAt nodes p d x cs → NodeAt nodes' p d x (if x = q then cs ++ [c] else cs))
    (hnew : ∀ p d cs, NodeAt nodes p d q cs → NodeAt nodes' (some q) (d + 1) c []) :
    ShapesAt nodes' p d (RoseTree.insertAll q c ts) := by
  induction ts using RoseTree.forest_induction generalizing p d with
  | nil => trivial
  | cons x us ts ihu iht =>
    rw [shapesAt_cons] at h
    rw [RoseTree.insertAll, RoseTree.insert, shapesAt_cons]
    have hnode := hkeep _ _ _ _ h.1
    refine ⟨?_, ?_, iht h.2.2⟩
    · split
      · rename_i heq
        rw [if_pos heq] at hnode
        rw [List.map_append, RoseTree.map_label_insertAll]
        exact hnode
      · rename_i hne
        rw [if_neg hne] at hnode
        rwa [RoseTree.map_label_insertAll]
    · split
      · rename_i heq
        subst heq
        exact shapesAt_snoc (ihu h.2.1) ⟨hnew _ _ _ h.1, trivial⟩
      · exact ihu h.2.1

/-- Each node has the children of its place in the forest. -/
theorem ShapesAt.children (h : ShapesAt nodes p d ts) :
    ∀ t ∈ RoseTree.preorder ts, childrenOf nodes t.label = some (t.children.map RoseTree.label) := by
  induction ts using RoseTree.forest_induction generalizing p d with
  | nil =>
    intro t ht
    cases ht
  | cons x us ts ihu iht =>
    rw [shapesAt_cons] at h
    obtain ⟨⟨n, hn, -, -, hcs⟩, hus, hts⟩ := h
    intro t ht
    rw [RoseTree.preorder_cons, List.mem_cons, List.mem_append] at ht
    rcases ht with rfl | ht | ht
    · exact (congrArg (Option.map _) hn).trans (congrArg some hcs)
    · exact ihu hus t ht
    · exact iht hts t ht

theorem ShapesAt.depth (h : ShapesAt nodes p d ts) (k : Nat) :
    ∀ t ∈ RoseTree.level k ts, (nodes[t.label]?).map (·.depth) = some (wrapInt ((d + k : Nat) : Int)) := by
  induction ts using RoseTree.forest_induction generalizing p d k with
  | nil =>
    intro t ht
    rw [RoseTree.level_nil] at ht
    cases ht
  | cons x us ts ihu iht =>
    rw [shapesAt_cons] at h
    obtain ⟨⟨n, hn, -, hd, -⟩, hus, hts⟩ := h
    intro t ht
    cases k with
    | zero =>
      rcases List.mem_cons.mp ht with rfl | ht
      · exact (congrArg (Option.map _) hn).trans (congrArg some hd)
      · exact iht hts 0 t ht
    | succ k =>
      rw [RoseTree.level_succ_cons, List.mem_append] at ht
      rcases ht with ht | ht
      · have hu := ihu hus k t ht
        rwa [Nat.add_assoc, Nat.add_comm 1] at hu
      · exact iht hts (k + 1) t ht

end Shapes

section Adding

variable {α : Type} {h : RTrees α} {t n : Nat} {x : RTreeNode α} {root : Option Nat} {data : α}

theorem treeDfsNode_leaf {S : Type} (children : S → Nat → Option (List Nat)) {f : Nat → S → Option S} {c : Nat} {s s' : S}
    (hf : f c s = some s') (hc : children s' c = some []) :
    treeDfsNode children ⟨some f, none, none⟩ 2 c s = some s' := by
  have hpush : RTreeStack.push ⟨[], 16⟩ c = some ⟨[c], 16⟩ := by
    rw [RTreeStack.push]
    exact if_pos ⟨by decide, by decide⟩
  rw [treeDfsNode, hpush]
  simp only [Option.bind_eq_bind, Option.bind_some, treeDfsLoop, callBack, hf, hc, List.reverse_nil, stackChildren]

theorem getElem?_new (l : List (RTreeNode α)) (x : RTreeNode α) : (l ++ [x])[l.length]? = some x := by simp

theorem rTreeAddNode_root (hroot : h.roots[t]? = some none) :
    rTreeAddNode h (some t) none data =
      some (⟨h.roots.set t (some h.nodes.length), h.nodes ++ [nodeNew t data]⟩, some h.nodes.length) := by
  have hnew := getElem?_new h.nodes (nodeNew t data)
  have hset : (h.nodes ++ [nodeNew t data]).set h.nodes.length (nodeNew t data) = h.nodes ++ [nodeNew t data] := by simp
  have hdepth : updateDepth h.nodes.length ⟨h.roots.set t (some h.nodes.length), h.nodes ++ [nodeNew t data]⟩ =
      some ⟨h.roots.set t (some h.nodes.length), h.nodes ++ [nodeNew t data]⟩ := by
    rw [updateDepth]
    simp only [hnew, Option.bind_eq_bind, Option.bind_some]
    exact congrArg (fun l => some (⟨_, l⟩ : RTrees α)) hset
  have hleaf := treeDfsNode_leaf (fun (h : RTrees α) n => childrenOf h.nodes n) hdepth
    (congrArg (Option.map _) hnew)
  simp only [rTreeAddNode, hroot, Option.bind_eq_bind, Option.bind_some]
  rw [if_neg (by simp)]
  exact congrArg (Option.bind · _) hleaf

theorem modify_append_left {β : Type} (f : β → β) {l : List β} (l' : List β) {i : Nat} (hi : i < l.length) :
    (l ++ l').modify i f = l.modify i f ++ l' := by
  induction l generalizing i with
  | nil => cases hi
  | cons a l ih =>
    cases i with
    | zero => rfl
    | succ i => exact congrArg (a :: ·) (ih (Nat.lt_of_succ_lt_succ hi))

theorem rTreeAddNode_child (hroot : h.roots[t]? = some root) (hn : h.nodes[n]? = some x) (ht : x.tree = t) :
    rTreeAddNode h (some t) (some n) data =
      some (⟨h.roots, h.nodes.modify n (addChild h.nodes.length) ++
        [{ nodeNew t data with parent := some n, depth := wrapInt (x.depth + 1) }]⟩, some h.nodes.length) := by
  obtain ⟨hlt, -⟩ := List.getElem?_eq_some_iff.mp hn
  obtain ⟨grown, hgrown⟩ : ∃ grown, h.nodes.modify n (addChild h.nodes.length) = grown := ⟨_, rfl⟩
  have hlen : grown.length = h.nodes.length := by rw [← hgrown, List.length_modify]
  have hmodify : (h.nodes ++ [{ nodeNew t data with parent := some n }]).modify n (addChild h.nodes.length) =
      grown ++ [{ nodeNew t data with parent := some n }] := by
    rw [modify_append_left _ _ hlt, hgrown]
  have hnew : ∀ new : RTreeNode α, (grown ++ [new])[h.nodes.length]? = some new := fun new => by
    rw [← hlen]
    exact getElem?_new grown new
  have hparent : ∀ new : RTreeNode α, ((grown ++ [new])[n]?).map (fun y => wrapInt (y.depth + 1)) =
      some (wrapInt (x.depth + 1)) := fun new => by
    rw [List.getElem?_append_left (by omega), ← hgrown, List.getElem?_modify_eq, hn]
    rfl
  have hdepth : updateDepth h.nodes.length ⟨h.roots, grown ++ [{ nodeNew t data with parent := some n }]⟩ =
      some ⟨h.roots, grown ++ [{ nodeNew t data with parent := some n, depth := wrapInt (x.depth + 1) }]⟩ := by
    rw [updateDepth]
    simp only [hnew, hparent, Option.bind_eq_bind, Option.bind_some]
    simp [← hlen]
  have hleaf := treeDfsNode_leaf (fun (h : RTrees α) n => childrenOf h.nodes n) hdepth
    (congrArg (Option.map _) (hnew _))
  simp only [rTreeAddNode, hroot, hn, Option.map_some, Option.bind_eq_bind, Option.bind_some]
  rw [if_neg (by simp [ht]), hmodify, hgrown]
  exact congrArg (Option.bind · _) hleaf

/-- A call that is answered with `NULL` changes nothing. -/
theorem rTreeAddNode_refused (hroot : h.roots[t]? = some root) {node : Option Nat}
    (hnode : ∀ n, node = some n → ∃ x, h.nodes[n]? = some x ∧ x.tree ≠ t) (hsome : node = none → root ≠ none) :
    rTreeAddNode h (some t) node data = some (h, none) := by
  cases node with
  | none =>
    simp only [rTreeAddNode, hroot, Option.bind_eq_bind, Option.bind_some]
    exact if_pos (.inr ⟨hsome rfl, trivial⟩)
  | some n =>
    obtain ⟨x, hx, hne⟩ := hnode n rfl
    simp only [rTreeAddNode, hroot, hx, Option.map_some, Option.bind_eq_bind, Option.bind_some]
    exact if_pos (.inl (decide_eq_true hne))

end Adding

section Growing

variable {α : Type} {h h' : RTrees α} {g : TreeShapes} {t n : Nat} {data : α} {shape : Option (RoseTree Nat)}

theorem wrapInt_succ (i : Int) : wrapInt (wrapInt i + 1) = wrapInt (i + 1) := by
  unfold wrapInt
  omega

/-- The nodes of tree `t` are those of the forest `ts`. -/
structure Holds (nodes : List (RTreeNode α)) (t : Nat) (ts : List (RoseTree Nat)) : Prop where
  shape : ShapesAt nodes none 0 ts
  owns : ∀ x, x ∈ RoseTree.labels ts ↔ ∃ n, nodes[x]? = some n ∧ n.tree = t
  nodup : (RoseTree.labels ts).Nodup

/-- The memory holds the shapes, and every node belongs to one of them. -/
structure Grown (h : RTrees α) (g : TreeShapes) : Prop where
  roots : h.roots = g.shapes.map (Option.map RoseTree.label)
  next : g.next = h.nodes.length
  holds : ∀ {t shape}, g.shapes[t]? = some shape → Holds h.nodes t shape.toList
  live : ∀ n ∈ h.nodes, n.tree < g.shapes.length

theorem Grown.empty : Grown (⟨[], []⟩ : RTrees α) ⟨[], 0⟩ := by
  constructor
  all_goals simp

theorem Grown.root (hg : Grown h g) (hs : g.shapes[t]? = some shape) : h.roots[t]? = some (shape.map RoseTree.label) := by
  rw [hg.roots, List.getElem?_map, hs]
  rfl

theorem Grown.new (hg : Grown h g) : Grown (rTreeNew h) { g with shapes := g.shapes ++ [none] } := by
  constructor
  · simp [rTreeNew, hg.roots]
  · exact hg.next
  · intro t shape hs
    rcases Nat.lt_trichotomy t g.shapes.length with hlt | rfl | hgt
    · exact hg.holds (by rwa [List.getElem?_append_left hlt] at hs)
    · rw [List.getElem?_append_right (Nat.le_refl _), Nat.sub_self] at hs
      cases hs
      refine ⟨trivial, fun x => iff_of_false List.not_mem_nil ?_, List.nodup_nil⟩
      rintro ⟨n, hn, htree⟩
      exact absurd (hg.live n (List.mem_of_getElem? hn)) (by omega)
    · rw [List.getElem?_eq_none (by simp; omega)] at hs
      cases hs
  · intro n hn
    have hlive := hg.live n hn
    rw [List.length_append]
    omega

/-- One tree gets a new node, the other ones stay. -/
theorem Grown.grow (hg : Grown h g) {shape' : RoseTree Nat} {nodes : List (RTreeNode α)} {new : RTreeNode α}
    (hs : g.shapes[t]? = some shape) (hlen : nodes.length = h.nodes.length) (htree : new.tree = t)
    (htrees : ∀ x : Nat, (nodes[x]?).map RTreeNode.tree = (h.nodes[x]?).map RTreeNode.tree)
    (hrep : ShapesAt (nodes ++ [new]) none 0 [shape'])
    (hlabels : (RoseTree.labels [shape']).Perm (h.nodes.length :: RoseTree.labels shape.toList))
    (hkeep : ∀ p d x cs, x ∉ RoseTree.labels shape.toList → NodeAt h.nodes p d x cs → NodeAt (nodes ++ [new]) p d x cs) :
    Grown ⟨(g.shapes.set t (some shape')).map (Option.map RoseTree.label), nodes ++ [new]⟩
      ⟨g.shapes.set t (some shape'), g.next + 1⟩ := by
  obtain ⟨hlt, -⟩ := List.getElem?_eq_some_iff.mp hs
  have hold := hg.holds hs
  -- a node is the new one, or an old one of the same tree
  have hnodes : ∀ x t', (∃ n, (nodes ++ [new])[x]? = some n ∧ n.tree = t') ↔
      ((x = h.nodes.length ∧ t' = t) ∨ ∃ n, h.nodes[x]? = some n ∧ n.tree = t') := by
    intro x t'
    have hiff : ∀ l : List (RTreeNode α), (∃ n, l[x]? = some n ∧ n.tree = t') ↔ (l[x]?).map RTreeNode.tree = some t' :=
        fun l => by rw [Option.map_eq_some_iff]
    rw [hiff, hiff]
    rcases Nat.lt_trichotomy x nodes.length with hx | rfl | hx
    · rw [List.getElem?_append_left hx, htrees, or_iff_right (by omega)]
    · rw [getElem?_new, hlen, List.getElem?_eq_none (Nat.le_refl _)]
      simp [htree, eq_comm]
    · rw [List.getElem?_eq_none (by simp; omega), List.getElem?_eq_none (by omega)]
      simp
      omega
  have hfresh : h.nodes.length ∉ RoseTree.labels shape.toList := fun hmem => by
    obtain ⟨n, hn, -⟩ := (hold.owns _).mp hmem
    exact absurd (List.getElem?_eq_some_iff.mp hn).1 (Nat.lt_irrefl _)
  constructor
  · rfl
  · simp [hg.next, hlen]
  · intro t' s hs'
    by_cases heq : t' = t
    · subst heq
      rw [List.getElem?_set_self hlt] at hs'
      cases hs'
      refine ⟨hrep, fun x => ?_, hlabels.nodup_iff.mpr (List.nodup_cons.mpr ⟨hfresh, hold.nodup⟩)⟩
      show x ∈ RoseTree.labels [shape'] ↔ _
      rw [hlabels.mem_iff, hnodes, List.mem_cons, hold.owns]
      simp
    · rw [List.getElem?_set_ne (Ne.symm heq)] at hs'
      have hother := hg.holds hs'
      refine ⟨hother.shape.keep fun p d x cs hx => hkeep p d x cs fun hmem => ?_, fun x => ?_, hother.nodup⟩
      · obtain ⟨n, hn, hnt⟩ := (hother.owns x).mp hx
        obtain ⟨n', hn', hnt'⟩ := (hold.owns x).mp hmem
        rw [hn] at hn'
        cases hn'
        exact heq (hnt.symm.trans hnt')
      · rw [hother.owns, hnodes]
        simp [heq]
  · intro n hn
    rw [List.length_set]
    rcases List.mem_append.mp hn with hn | hn
    · obtain ⟨x, hx⟩ := List.getElem?_of_mem hn
      have hmap := htrees x
      rw [hx] at hmap
      obtain ⟨n', hn', htree'⟩ := Option.map_eq_some_iff.mp hmap.symm
      rw [← htree']
      exact hg.live n' (List.mem_of_getElem? hn')
    · rw [List.mem_singleton.mp hn, htree]
      exact hlt

theorem Grown.grow_root (hg : Grown h g) (hs : g.shapes[t]? = some none) :
    Grown ⟨h.roots.set t (some h.nodes.length), h.nodes ++ [nodeNew t data]⟩
      ⟨g.shapes.set t (some (.node g.next [])), g.next + 1⟩ := by
  have hroots : (g.shapes.set t (some (.node g.next []))).map (Option.map RoseTree.label) =
      h.roots.set t (some h.nodes.length) := by
    rw [List.map_set, hg.roots, ← hg.next]
    rfl
  have hnew := getElem?_new h.nodes (nodeNew t data)
  rw [← hroots]
  refine hg.grow hs rfl rfl (fun x => rfl) ?_ ?_ ?_
  · rw [shapesAt_cons, hg.next]
    exact ⟨⟨_, hnew, rfl, rfl, rfl⟩, trivial, trivial⟩
  · rw [RoseTree.labels_cons, hg.next]
    exact List.Perm.refl _
  · rintro p d x cs - ⟨n, hn, hnode⟩
    exact ⟨n, by rw [List.getElem?_append_left (List.getElem?_eq_some_iff.mp hn).1, hn], hnode⟩

theorem Grown.grow_child (hg : Grown h g) {shape : RoseTree Nat} (hs : g.shapes[t]? = some (some shape)) {x : RTreeNode α}
    (hn : h.nodes[n]? = some x) (ht : x.tree = t) :
    Grown ⟨h.roots, h.nodes.modify n (addChild h.nodes.length) ++
        [{ nodeNew t data with parent := some n, depth := wrapInt (x.depth + 1) }]⟩
      ⟨g.shapes.set t (some (shape.insert n g.next)), g.next + 1⟩ := by
  have hmem : n ∈ RoseTree.labels [shape] := ((hg.holds hs).owns n).mpr ⟨x, hn, ht⟩
  obtain ⟨hlt, -⟩ := List.getElem?_eq_some_iff.mp hn
  obtain ⟨grown, hgrown⟩ : ∃ grown, h.nodes.modify n (addChild h.nodes.length) = grown := ⟨_, rfl⟩
  have hlen : grown.length = h.nodes.length := by rw [← hgrown, List.length_modify]
  have hroots : (g.shapes.set t (some (shape.insert n g.next))).map (Option.map RoseTree.label) = h.roots := by
    have hroot := hg.root hs
    obtain ⟨hroot, hget⟩ := List.getElem?_eq_some_iff.mp hroot
    rw [List.map_set, Option.map_some, RoseTree.label_insert, ← hg.roots]
    rw [Option.map_some] at hget
    rw [← hget]
    exact List.set_getElem_self hroot
  have hcells : ∀ y : Nat, grown[y]? = (h.nodes[y]?).map fun z => if y = n then addChild h.nodes.length z else z := by
    intro y
    rw [← hgrown, List.getElem?_modify]
    by_cases heq : n = y
    · subst heq
      simp
    · simp [heq, Ne.symm heq]
  -- the children of `n` get one more, all else stays
  have hkeep : ∀ new p d y cs, NodeAt h.nodes p d y cs →
      NodeAt (grown ++ [new]) p d y (if y = n then cs ++ [h.nodes.length] else cs) := by
    rintro new p d y cs ⟨z, hz, hp, hd, rfl⟩
    have hcell : (grown ++ [new])[y]? = some (if y = n then addChild h.nodes.length z else z) := by
      rw [List.getElem?_append_left (by rw [hlen]; exact (List.getElem?_eq_some_iff.mp hz).1), hcells, hz]
      rfl
    by_cases hy : y = n
    · rw [if_pos hy] at hcell ⊢
      exact ⟨_, hcell, hp, hd, rfl⟩
    · rw [if_neg hy] at hcell ⊢
      exact ⟨_, hcell, hp, hd, rfl⟩
  rw [hgrown, ← hroots]
  refine hg.grow hs hlen rfl (fun y => ?_) ?_ ?_ ?_
  · rw [hcells, Option.map_map]
    congr 1
    funext z
    rw [Function.comp_apply]
    split <;> rfl
  · refine (hg.holds hs).shape.insert (fun p d y cs => ?_) fun p d cs => ?_
    · rw [hg.next]
      exact hkeep _ p d y cs
    · rintro ⟨z, hz, -, hd, -⟩
      rw [hn] at hz
      cases hz
      refine ⟨_, by rw [hg.next, ← hlen]; exact getElem?_new _ _, rfl, ?_, rfl⟩
      show wrapInt (x.depth + 1) = wrapInt ((d + 1 : Nat) : Int)
      rw [hd, wrapInt_succ, Int.natCast_succ]
  · rw [← hg.next]
    exact RoseTree.labels_insertAll hmem (hg.holds hs).nodup
  · intro p d y cs hy hnode
    have hkept := hkeep { nodeNew t data with parent := some n, depth := wrapInt (x.depth + 1) } p d y cs hnode
    have hne : y ≠ n := by
      rintro rfl
      exact hy hmem
    rwa [if_neg hne] at hkept

/-- The steps of the code follow those of the shapes. -/
theorem treeCall_grown (hg : Grown h g) (call : TreeCall α) (hcall : treeCall h call = some h') : Grown h' (g.call call) := by
  cases call with
  | new =>
    cases hcall
    exact hg.new
  | add t node data =>
    obtain ⟨⟨r, child⟩, hadd, rfl⟩ := Option.map_eq_some_iff.mp hcall
    cases t with
    | none =>
      cases hadd
      exact hg
    | some t =>
      cases hs : g.shapes[t]? with
      | none =>
        have hroot : h.roots[t]? = none := by rw [hg.roots, List.getElem?_map, hs]; rfl
        simp [rTreeAddNode, hroot] at hadd
      | some shape =>
        have hroot := hg.root hs
        have hmem := (hg.holds hs).owns
        cases node with
        | none =>
          cases shape with
          | none =>
            rw [rTreeAddNode_root hroot] at hadd
            cases hadd
            simpa only [TreeShapes.call, hs] using hg.grow_root hs
          | some shape =>
            rw [rTreeAddNode_refused hroot (fun n hn => by cases hn) (by simp)] at hadd
            cases hadd
            simpa only [TreeShapes.call, hs] using hg
        | some n =>
          cases hn : h.nodes[n]? with
          | none => simp [rTreeAddNode, hroot, hn] at hadd
          | some x =>
            have hiff : n ∈ RoseTree.labels shape.toList ↔ x.tree = t := by rw [hmem, hn]; simp
            by_cases ht : x.tree = t
            · rw [rTreeAddNode_child hroot hn ht] at hadd
              cases hadd
              have hin := hiff.mpr ht
              cases shape with
              | none => cases hin
              | some shape =>
                change n ∈ RoseTree.labels [shape] at hin
                simpa only [TreeShapes.call, hs, if_pos hin] using hg.grow_child hs hn ht
            · rw [rTreeAddNode_refused hroot (fun m hm => by cases hm; exact ⟨x, hn, ht⟩) (by simp)] at hadd
              cases hadd
              have hin : n ∉ RoseTree.labels shape.toList := fun hno => ht (hiff.mp hno)
              cases shape with
              | none => simpa only [TreeShapes.call, hs] using hg
              | some shape =>
                change n ∉ RoseTree.labels [shape] at hin
                simpa only [TreeShapes.call, hs, if_neg hin] using hg

theorem treeCalls_grown (hg : Grown h g) (calls : List (TreeCall α)) (hcalls : treeCalls h calls = some h') :
    Grown h' (calls.foldl TreeShapes.call g) := by
  induction calls generalizing h g with
  | nil =>
    cases hcalls
    exact hg
  | cons call calls ih =>
    rw [treeCalls, List.foldlM_cons] at hcalls
    obtain ⟨h1, hcall, hrest⟩ := Option.bind_eq_some_iff.mp hcalls
    exact ih (treeCall_grown hg call hcall) hrest

end Growing

end Radare
