import Radare.Util.GraphDfs
import Radare.Util.GraphArcs
import Radare.Framework.Subdivision

namespace Radare

open Framework Framework.DepthFirst

/-- `RANode`, as far as the layers go. It stands at the address of its `gnode`. -/
structure RANode where
  layer : Int
  isDummy : Bool
  isReversed : Bool
  w : Int

/-- `RAGraph`; `data` is what the nodes of the graph point to. -/
structure RAGraph where
  graph : RGraph
  data : Nat → RANode
  backEdges : List RGraphEdge
  longEdges : List RGraphEdge

def RAGraph.getAnode (g : RAGraph) (gn : Option Nat) : Option RANode := gn.map g.data

/-- What `r_agraph_add_node` writes into a new node. -/
def newAnode : RANode := ⟨-1, false, false, 0⟩

/-- `r_agraph_add_node` with a title that is new, or with none: no node is found under it. -/
def rAgraphAddNode (g : RAGraph) : Nat × RAGraph :=
  (g.graph.fresh,
    { g with graph := rGraphAddNode g.graph, data := Function.update g.data g.graph.fresh newAnode })

def rAgraphAddEdgeAt (g : RAGraph) (a b : Option Nat) (nth : Int) : Option RAGraph := do
  let t ← rGraphAddEdgeAt g.graph a b nth
  some { g with graph := t }

def rAgraphDelEdge (g : RAGraph) (a b : Option Nat) : Option RAGraph := do
  let t ← rGraphDelEdge g.graph a b
  some { g with graph := t }

/-- `view_cyclic_edge`, the only callback of its visitor: the edge it appends. -/
def viewCyclicEdge : Visit Nat RGraphEdge → Option RGraphEdge
  | .back e => some e
  | _ => none

/-- `view_dummy`, for the edges of the forest and the crossing ones. -/
def viewDummy (g : RAGraph) : Visit Nat RGraphEdge → Option RGraphEdge
  | .tree e | .cross e => do
    let a ← g.getAnode e.from_
    let b ← g.getAnode e.to_
    if rAbs (wrapInt (a.layer - b.layer)) > 1 then some e else none
  | _ => none

/-- The loop of `remove_cycles` over the back edges. -/
def reverseEdges : List RGraphEdge → RAGraph → Option RAGraph
  | [], g => some g
  | e :: it, g => do
    let g ← rAgraphDelEdge g e.from_ e.to_
    let g ← rAgraphAddEdgeAt g e.to_ e.from_ e.nth
    reverseEdges it g

def removeCycles (fuel : Nat) (g : RAGraph) : Option RAGraph := do
  let log ← rGraphDfs fuel g.graph
  let backEdges := log.filterMap viewCyclicEdge
  reverseEdges backEdges { g with backEdges := backEdges }

/-- `add_sorted`, on the list it prepends to. -/
def addSorted (l : List Nat) : Visit Nat RGraphEdge → List Nat
  | .finish n => n :: l
  | _ => l

def RAGraph.setLayer (g : RAGraph) (n : Nat) (layer : Int) : RAGraph :=
  { g with data := Function.update g.data n { g.data n with layer := layer } }

/-- The inner loop of `assign_layers`. -/
def raiseLayer (n : Nat) : List Nat → RAGraph → RAGraph
  | [], g => g
  | prev :: it, g =>
    if wrapInt ((g.data prev).layer + 1) > (g.data n).layer then
      raiseLayer n it (g.setLayer n (wrapInt ((g.data prev).layer + 1)))
    else raiseLayer n it g

def layerNodes : List Nat → RAGraph → Option RAGraph
  | [], g => some g
  | gn :: it, g => do
    let x ← g.graph.mem gn
    layerNodes it (raiseLayer gn x.inNodes (g.setLayer gn 0))

def assignLayers (fuel : Nat) (g : RAGraph) : Option RAGraph := do
  let log ← rGraphDfs fuel g.graph
  layerNodes (log.foldl addSorted []) g

/-- `find_edge`: zero for an edge and its reversal. -/
def findEdge (a b : RGraphEdge) : Int := if a.from_ = b.to_ ∧ a.to_ = b.from_ then 0 else 1

def isReversed (g : RAGraph) (e : RGraphEdge) : Bool := g.backEdges.any (fun b => findEdge e b = 0)

/-- The inner loop of `create_dummy_nodes`, with the turns that are left: the end of the chain. -/
def chainDummies (e : RGraphEdge) (from_ : Nat) : Nat → Int → Nat → Int → RAGraph → Option (Nat × RAGraph)
  | 0, _, prev, _, g => some (prev, g)
  | turns + 1, i, prev, nth, g => do
    let (dummy, g) := rAgraphAddNode g
    let g := { g with
      data := Function.update g.data dummy
        ⟨wrapInt ((g.data from_).layer + i), true, isReversed g e, 1⟩ }
    let g ← rAgraphAddEdgeAt g (some prev) (some dummy) nth
    chainDummies e from_ turns (wrapInt (i + 1)) dummy (-1) g

/-- A turn of the loop of `create_dummy_nodes` over the long edges. -/
def subdivideEdge (g : RAGraph) (e : RGraphEdge) : Option RAGraph := do
  let from_ ← e.from_
  let to_ ← e.to_
  let diffLayer := rAbs (wrapInt ((g.data from_).layer - (g.data to_).layer))
  let g ← rAgraphDelEdge g (some from_) (some to_)
  let (prev, g) ← chainDummies e from_ (diffLayer - 1).toNat 1 from_ e.nth g
  let t ← rGraphAddEdge g.graph (some prev) e.to_
  some { g with graph := t }

def subdivideEdges : List RGraphEdge → RAGraph → Option RAGraph
  | [], g => some g
  | e :: it, g => do
    let g ← subdivideEdge g e
    subdivideEdges it g

def createDummyNodes (fuel : Nat) (g : RAGraph) : Option RAGraph := do
  let log ← rGraphDfs fuel g.graph
  let longEdges := log.filterMap (viewDummy g)
  subdivideEdges longEdges { g with longEdges := longEdges }

def rAgraphNew : RAGraph := ⟨rGraphNew, fun _ => newAnode, [], []⟩

/-- The calls of a history, each with what it does to the graph. -/
def RAGraph.step (g : RAGraph) : GraphOp → Option RAGraph
  | .addNode => some (rAgraphAddNode g).2
  | op => do
    let t ← g.graph.step op
    some { g with graph := t }

def RAGraph.run (g : RAGraph) : List GraphOp → Option RAGraph
  | [] => some g
  | op :: ops => do
    let g ← g.step op
    g.run ops

def RGraphEdge.ends (e : RGraphEdge) : Nat × Nat := (e.src, e.dst)

def RAGraph.isDummy (g : RAGraph) (n : Nat) : Bool := (g.data n).isDummy

/-- The edges of the graph when every chain of dummies, walked along the first edges, is one edge. -/
def RAGraph.contracted (g : RAGraph) : List (Nat × Nat) :=
  contract g.isDummy g.graph.out g.graph.nodes.length g.graph.arcs

/-- What the three steps make of `g`: `layered` before the dummies are there, `done` with them. -/
structure Layered (g layered done : RAGraph) : Prop where
  longest : ∀ n ∈ layered.graph.nodes, ∃ k : Nat, (layered.data n).layer = k ∧ LongestTo layered.graph.Edge n k
  acyclic : ∀ a, ¬Relation.TransGen done.graph.Edge a a
  spans : ∀ a b, done.graph.Edge a b → (done.data b).layer = (done.data a).layer + 1
  dummies : ∀ n ∈ done.graph.nodes, done.isDummy n = true →
    (done.graph.inn n).length = 1 ∧ (done.graph.out n).length = 1
  nodes : done.graph.nodes.filter (fun n => !done.isDummy n) = g.graph.nodes
  kept : ∀ n ∈ g.graph.nodes, (done.data n).layer = (layered.data n).layer
  contracted : ∃ forward, g.graph.occurrences.Perm (forward ++ done.backEdges) ∧
    done.contracted.Perm (forward.map RGraphEdge.ends ++ done.backEdges.map (fun e => e.ends.swap))

/-- A graph whose edges go one layer down each, with layers that an `int` can count. -/
structure RAGraph.Levelled (g : RAGraph) : Prop where
  shape : g.graph.Shape
  layer : ∀ u ∈ g.graph.nodes, 0 ≤ (g.data u).layer ∧ (g.data u).layer < 2147483647
  spans : ∀ a b, g.graph.Edge a b → (g.data b).layer = (g.data a).layer + 1

/-- No two nodes of a layer have so many edges that those of the one cross those of the other past an `int`. -/
def RAGraph.DegreesFit (g : RAGraph) : Prop :=
  ∀ x ∈ g.graph.nodes, ∀ y ∈ g.graph.nodes, x ≠ y → (g.data x).layer = (g.data y).layer →
    (g.graph.inn x).length * (g.graph.inn y).length ≤ 2147483647 ∧
      (g.graph.out x).length * (g.graph.out y).length ≤ 2147483647

/-- What the layers keep of the graph `g` they were made of: its nodes, and its edges with the back edges turned
round and the long ones replaced by chains of dummies. -/
structure LayerChains (g done : RAGraph) (chains : List (Chain Nat)) : Prop where
  nodes : done.graph.nodes = g.graph.nodes ++ chains.flatMap Chain.mid
  dummy : ∀ n ∈ done.graph.nodes, done.isDummy n = true ↔ n ∈ chains.flatMap Chain.mid
  inside : ∀ c ∈ chains, c.mid ≠ []
  old : ∀ c ∈ chains, c.from_ ∈ g.graph.nodes ∧ c.to_ ∈ g.graph.nodes
  form : ∀ e ∈ done.longEdges ++ done.backEdges, e.from_ = some e.src ∧ e.to_ = some e.dst
  ends : chains.map Chain.ends = done.longEdges.map RGraphEdge.ends
  arcs : ∃ short forward, done.graph.arcs.Perm (short ++ chains.flatMap Chain.steps) ∧
    (done.longEdges.map RGraphEdge.ends ++ short).Perm (forward ++ done.backEdges.map fun e => e.ends.swap) ∧
    g.graph.arcs.Perm (forward ++ done.backEdges.map RGraphEdge.ends)

/-- An edge that is passed on and is no back edge. -/
def forwardEdge : Visit Nat RGraphEdge → Option RGraphEdge
  | .tree e => some e
  | .cross e => some e
  | _ => none

section Log

variable {g : RGraph} {log : List (Visit Nat RGraphEdge)} {e : RGraphEdge}

theorem mem_cyclic : e ∈ log.filterMap viewCyclicEdge ↔ Visit.back e ∈ log := by
  rw [List.mem_filterMap]
  constructor
  · intro h
    obtain ⟨v, hv, he⟩ := h
    cases v with
    | back e' =>
      cases he
      exact hv
    | _ => cases he
  · intro h
    exact ⟨.back e, h, by simp [viewCyclicEdge]⟩

theorem mem_forward : e ∈ log.filterMap forwardEdge ↔ Visit.tree e ∈ log ∨ Visit.cross e ∈ log := by
  rw [List.mem_filterMap]
  constructor
  · intro h
    obtain ⟨v, hv, he⟩ := h
    cases v with
    | tree e' =>
      cases he
      exact Or.inl hv
    | cross e' =>
      cases he
      exact Or.inr hv
    | _ => cases he
  · intro h
    rcases h with h | h
    · exact ⟨.tree e, h, by simp [forwardEdge]⟩
    · exact ⟨.cross e, h, by simp [forwardEdge]⟩

/-- The edges passed on, split into the two kinds. -/
theorem count_forward_cyclic (log : List (Visit Nat RGraphEdge)) (e : RGraphEdge) :
    (log.filterMap forwardEdge).count e + (log.filterMap viewCyclicEdge).count e =
      log.count (.tree e) + log.count (.back e) + log.count (.cross e) := by
  induction log with
  | nil => simp
  | cons v log ih =>
    simp only [List.filterMap_cons, List.count_cons]
    cases v with
    | discover n => simpa [forwardEdge, viewCyclicEdge] using ih
    | finish n => simpa [forwardEdge, viewCyclicEdge] using ih
    | _ e' =>
      simp only [forwardEdge, viewCyclicEdge, List.count_cons]
      by_cases he : e' = e
      · simp [he]
        omega
      · simp [he]
        omega

/-- A search tells apart the edges of the graph, each as often as it is there. -/
theorem DfsRight.split (h : DfsRight g log) (hnd : g.nodes.Nodup) :
    g.occurrences.Perm (log.filterMap forwardEdge ++ log.filterMap viewCyclicEdge) := by
  rw [List.perm_iff_count]
  intro e
  rw [List.count_append, count_forward_cyclic, h.pass, (nodup_occurrences hnd).count]

theorem DfsRight.kept (h : DfsRight g log) (hnd : g.nodes.Nodup) (he : e ∈ log.filterMap forwardEdge) :
    Kept g.occurrences RGraphEdge.src RGraphEdge.dst log e.src e.dst := by
  have hmem : e ∈ g.occurrences := (h.split hnd).mem_iff.mpr (List.mem_append_left _ he)
  refine ⟨e, hmem, ?_, by simp, by simp⟩
  intro hback
  have hone := (h.split hnd).count_eq e
  rw [(nodup_occurrences hnd).count, if_pos hmem, List.count_append] at hone
  have hf := List.count_pos_iff.mpr he
  have hb := List.count_pos_iff.mpr (mem_cyclic.mpr hback)
  omega

/-- The place of a node in the reversed finishing order. -/
def finishRank (log : List (Visit Nat RGraphEdge)) (n : Nat) : Nat := (finished log).reverse.idxOf n

theorem DfsRight.forward_rank (h : DfsRight g log) (hnd : g.nodes.Nodup)
    (he : e ∈ log.filterMap forwardEdge) : finishRank log e.src < finishRank log e.dst :=
  h.topological _ _ (h.kept hnd he)

/-- Along the forest the rank rises. -/
theorem DfsRight.anc_rank (h : DfsRight g log) (hnd : g.nodes.Nodup) {a b : Nat}
    (hanc : Anc RGraphEdge.src RGraphEdge.dst log a b) : a = b ∨ finishRank log a < finishRank log b := by
  induction hanc with
  | refl => exact Or.inl (by simp)
  | tail _ hstep ih =>
    obtain ⟨e, he, hsrc, hdst⟩ := hstep
    have hlt := h.forward_rank hnd (mem_forward.mpr (Or.inl he))
    rw [hsrc, hdst] at hlt
    rcases ih with ih | ih
    · rw [ih]
      exact Or.inr hlt
    · exact Or.inr (ih.trans hlt)

/-- A back edge that is no loop goes down in rank. -/
theorem DfsRight.cyclic_rank (h : DfsRight g log) (hnd : g.nodes.Nodup)
    (he : e ∈ log.filterMap viewCyclicEdge) (hloop : e.src ≠ e.dst) :
    finishRank log e.dst < finishRank log e.src := by
  have hmem : e ∈ g.occurrences := (h.split hnd).mem_iff.mpr (List.mem_append_right _ he)
  have hanc := (h.back e hmem).mp (mem_cyclic.mp he)
  exact (h.anc_rank hnd hanc).resolve_left (Ne.symm hloop)

end Log

theorem occurrences_ends (g : RGraph) : g.occurrences.map RGraphEdge.ends = g.arcs := by
  rw [RGraph.occurrences, RGraph.arcs, arcs, List.map_flatMap]
  apply List.flatMap_congr
  intro n _
  apply List.ext_getElem
  · simp [RGraph.edgesOf]
  · intro i hi hj
    simp [RGraph.edgesOf, RGraphEdge.ends, RGraphEdge.src, RGraphEdge.dst]

theorem mem_occurrences_edge {g : RGraph} {e : RGraphEdge} (he : e ∈ g.occurrences) :
    g.Edge e.src e.dst := by
  rw [RGraph.Edge, ← occurrences_ends]
  exact List.mem_map_of_mem he

theorem mem_occurrences_form {g : RGraph} {e : RGraphEdge} (he : e ∈ g.occurrences) :
    e.from_ = some e.src ∧ e.to_ = some e.dst := by
  obtain ⟨n, -, hen⟩ := List.mem_flatMap.mp he
  obtain ⟨v, -, i, rfl⟩ := mem_edgesOf hen
  simp [RGraphEdge.src, RGraphEdge.dst]

/-- One edge turned round. -/
theorem RGraph.Ok.reverseEdge {t : RGraph} (h : t.Ok) (hfew : t.arcs.length < 2147483648) {u v : Nat}
    (he : t.Edge u v) (nth : Int) :
    ∃ t1 t2, rGraphDelEdge t (some u) (some v) = some t1 ∧
      rGraphAddEdgeAt t1 (some v) (some u) nth = some t2 ∧ t2.Ok ∧ t.SameNodes t2 ∧
      t.arcs.Perm ((u, v) :: t1.arcs) ∧ t2.arcs.Perm ((v, u) :: t1.arcs) := by
  obtain ⟨hu, hv⟩ := h.shape.ends_mem he
  obtain ⟨t1, hdel, hshape, hsame, hperm⟩ := h.shape.delEdge he
  obtain ⟨t1', hdel', hok⟩ := delEdge_ok h hu hv
  rw [hdel, Option.some.injEq] at hdel'
  rw [← hdel'] at hok
  rw [← hsame.nodes] at hu hv
  have hlen := hperm.length_eq
  rw [List.length_cons] at hlen
  have hroom : edgeTotal t1.nodes t1.out < 4294967295 := by
    rw [← length_arcs]
    rw [RGraph.arcs, RGraph.arcs] at hlen
    rw [RGraph.arcs] at hfew
    omega
  obtain ⟨t2, hadd, -, hsame2, hperm2⟩ := hshape.addEdgeAt hv hu nth
  obtain ⟨t2', hadd', hok2⟩ := addEdgeAt_ok hok hv hu hroom nth
  rw [hadd, Option.some.injEq] at hadd'
  rw [← hadd'] at hok2
  exact ⟨t1, t2, hdel, hadd, hok2, ⟨hsame2.nodes.trans hsame.nodes, hsame2.fresh.trans hsame.fresh⟩, hperm,
    hperm2⟩

/-- The loop turns the edges of its list round, one occurrence for each. -/
theorem reverseEdges_spec (back : List RGraphEdge) (g : RAGraph) (hok : g.graph.Ok)
    (hfew : g.graph.arcs.length < 2147483648)
    (hform : ∀ e ∈ back, e.from_ = some e.src ∧ e.to_ = some e.dst) (rest : List (Nat × Nat))
    (hperm : g.graph.arcs.Perm (back.map RGraphEdge.ends ++ rest)) :
    ∃ t, reverseEdges back g = some { g with graph := t } ∧ t.Ok ∧ g.graph.SameNodes t ∧
      t.arcs.Perm (rest ++ back.map (fun e => e.ends.swap)) := by
  induction back generalizing g rest with
  | nil => exact ⟨g.graph, by simp [reverseEdges], hok, ⟨by simp, by simp⟩, by simpa using hperm⟩
  | cons e it ih =>
    obtain ⟨hfrom, hto⟩ := hform e List.mem_cons_self
    have hedge : g.graph.Edge e.src e.dst := by
      rw [RGraph.Edge, hperm.mem_iff]
      simp [RGraphEdge.ends]
    obtain ⟨t1, t2, hdel, hadd, hok2, hsame, hp1, hp2⟩ := hok.reverseEdge hfew hedge e.nth
    have hrest : t1.arcs.Perm (it.map RGraphEdge.ends ++ rest) := (hp1.symm.trans hperm).cons_inv
    have hnext : t2.arcs.Perm (it.map RGraphEdge.ends ++ (e.ends.swap :: rest)) :=
      (hp2.trans (hrest.cons _)).trans List.perm_middle.symm
    have hlen : t2.arcs.length < 2147483648 := by
      rw [hp2.length_eq, List.length_cons]
      rw [hp1.length_eq, List.length_cons] at hfew
      exact hfew
    obtain ⟨t, hrun, hokt, hsamet, hpt⟩ := ih { g with graph := t2 } hok2 hlen
      (fun x hx => hform x (List.mem_cons_of_mem e hx)) _ hnext
    refine ⟨t, ?_, hokt, ⟨hsamet.nodes.trans hsame.nodes, hsamet.fresh.trans hsame.fresh⟩, ?_⟩
    · simp only [reverseEdges, rAgraphDelEdge, rAgraphAddEdgeAt, hfrom, hto, hdel, hadd, Option.bind_eq_bind,
        Option.bind_some]
      exact hrun
    · rw [List.map_cons]
      exact hpt.trans List.perm_middle.symm

/-- Every edge climbs. -/
def RGraph.Climbs (g : RGraph) (height : Nat → Nat) : Prop := ∀ a b, g.Edge a b → height a < height b

/-- `remove_cycles` turns the back edges round, and the graph climbs along the finishing order. -/
theorem removeCycles_spec (g : RAGraph) (hok : g.graph.Ok) (hfew : g.graph.arcs.length < 2147483648)
    (hloop : ∀ n, ¬g.graph.Edge n n) :
    ∃ t back forward height,
      (∀ fuel, edgeTotal g.graph.nodes g.graph.out + g.graph.nodes.length + 2 ≤ fuel →
        removeCycles fuel g = some { g with graph := t, backEdges := back }) ∧
      t.Ok ∧ g.graph.SameNodes t ∧ g.graph.occurrences.Perm (forward ++ back) ∧
      t.arcs.Perm (forward.map RGraphEdge.ends ++ back.map (fun e => e.ends.swap)) ∧ t.Climbs height := by
  have hnd := hok.lists.nodup
  obtain ⟨log, hrun, hright⟩ := rGraphDfs_spec hok (by rw [← length_arcs]; exact hfew)
  have hsplit := hright.split hnd
  have hperm : g.graph.arcs.Perm ((log.filterMap viewCyclicEdge).map RGraphEdge.ends ++
      (log.filterMap forwardEdge).map RGraphEdge.ends) := by
    rw [← occurrences_ends, ← List.map_append]
    exact (hsplit.trans List.perm_append_comm).map _
  have hform : ∀ e ∈ log.filterMap viewCyclicEdge, e.from_ = some e.src ∧ e.to_ = some e.dst :=
    fun e he => mem_occurrences_form (hsplit.mem_iff.mpr (List.mem_append_right _ he))
  obtain ⟨t, hloopRun, hokt, hsame, harcs⟩ := reverseEdges_spec (log.filterMap viewCyclicEdge)
    { g with backEdges := log.filterMap viewCyclicEdge } hok hfew hform _ hperm
  refine ⟨t, log.filterMap viewCyclicEdge, log.filterMap forwardEdge, finishRank log, ?_, hokt, hsame, hsplit,
    harcs, ?_⟩
  · intro fuel hfuel
    simp only [removeCycles, hrun fuel hfuel, Option.bind_eq_bind, Option.bind_some]
    exact hloopRun
  · intro a b hab
    rw [RGraph.Edge, harcs.mem_iff, List.mem_append] at hab
    rcases hab with hab | hab
    · obtain ⟨e, he, hends⟩ := List.mem_map.mp hab
      cases hends
      exact hright.forward_rank hnd he
    · obtain ⟨e, he, hends⟩ := List.mem_map.mp hab
      have hedge := mem_occurrences_edge (hsplit.mem_iff.mpr (List.mem_append_right _ he))
      have hne : e.src ≠ e.dst := by
        intro heq
        rw [heq] at hedge
        exact hloop _ hedge
      cases hends
      exact hright.cyclic_rank hnd he hne

end Radare
