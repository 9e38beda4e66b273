import Radare.Framework.AdjacencyLists
import Radare.Framework.MachineInt

namespace Radare

/-- `RGraphNode`. Its lists hold addresses of nodes; `data` and its `free` are read by nothing here. -/
structure RGraphNode where
  idx : Ut32
  outNodes : List Nat
  inNodes : List Nat
  allNeighbours : List Nat

/-- `RGraph`, with the memory its addresses point to: `none` once a node is freed. -/
structure RGraph where
  mem : Nat → Option RGraphNode
  fresh : Nat
  nodes : List Nat
  nNodes : Ut32
  nEdges : Ut32
  lastIndex : Int

def rGraphNew : RGraph := ⟨fun _ => none, 0, [], 0, 0, 0⟩

/-- `r_list_insert` on the elements: behind the end, or with a negative index, it appends. -/
def listInsert (l : List Nat) (n : Int) (x : Nat) : List Nat :=
  if l.isEmpty ∨ n = 0 then x :: l
  else if 0 < n ∧ n < l.length then l.insertIdx n.toNat x
  else l ++ [x]

/-- A change to a node through its address. -/
def RGraph.modify (t : RGraph) (a : Nat) (h : RGraphNode → RGraphNode) : Option RGraph := do
  let x ← t.mem a
  some { t with mem := Function.update t.mem a (some (h x)) }

/-- `r_graph_add_node`; `last_index` is an `int`, the index an `unsigned int`. -/
def rGraphAddNode (t : RGraph) : RGraph :=
  { t with
    mem := Function.update t.mem t.fresh (some ⟨BitVec.ofInt 32 t.lastIndex, [], [], []⟩)
    fresh := t.fresh + 1, nodes := t.nodes ++ [t.fresh], nNodes := t.nNodes + 1
    lastIndex := wrapInt (t.lastIndex + 1) }

/-- `r_list_delete_data (gn->out_nodes, n)` and the same for `all_neighbours`. -/
def RGraphNode.forgetOut (n : Nat) (x : RGraphNode) : RGraphNode :=
  { x with outNodes := x.outNodes.erase n, allNeighbours := x.allNeighbours.erase n }

def RGraphNode.forgetIn (n : Nat) (x : RGraphNode) : RGraphNode :=
  { x with inNodes := x.inNodes.erase n, allNeighbours := x.allNeighbours.erase n }

/-- One of the two loops of `r_graph_del_node`. Neither edits the list it walks along. -/
def delNodeLoop (forget : RGraphNode → RGraphNode) : List Nat → RGraph → Option RGraph
  | [], t => some t
  | gn :: rest, t => do
    let t ← t.modify gn forget
    delNodeLoop forget rest { t with nEdges := t.nEdges - 1 }

def rGraphDelNode (t : RGraph) : Option Nat → Option RGraph
  | none => some t
  | some n => do
    let x ← t.mem n
    let t ← delNodeLoop (RGraphNode.forgetOut n) x.inNodes t
    let x ← t.mem n
    let t ← delNodeLoop (RGraphNode.forgetIn n) x.outNodes t
    some
      { t with
        mem := if n ∈ t.nodes then Function.update t.mem n none else t.mem
        nodes := t.nodes.erase n, nNodes := t.nNodes - 1 }

def rGraphAddEdgeAt (t : RGraph) (from_ to_ : Option Nat) (nth : Int) : Option RGraph :=
  match from_, to_ with
  | some u, some v => do
    let t ← t.modify u (fun x => { x with outNodes := listInsert x.outNodes nth v })
    let t ← t.modify u (fun x => { x with allNeighbours := x.allNeighbours ++ [v] })
    let t ← t.modify v (fun x => { x with inNodes := x.inNodes ++ [u] })
    let t ← t.modify v (fun x => { x with allNeighbours := x.allNeighbours ++ [u] })
    some { t with nEdges := t.nEdges + 1 }
  | _, _ => some t

def rGraphAddEdge (t : RGraph) (from_ to_ : Option Nat) : Option RGraph := rGraphAddEdgeAt t from_ to_ (-1)

/-- `r_graph_adjacent`. -/
def rGraphAdjacent (t : RGraph) (u v : Nat) : Option Bool := do
  let x ← t.mem u
  some (decide (v ∈ x.outNodes))

def rGraphDelEdge (t : RGraph) (from_ to_ : Option Nat) : Option RGraph :=
  match from_, to_ with
  | some u, some v => do
    let adjacent ← rGraphAdjacent t u v
    if adjacent then do
      let t ← t.modify u (fun x => { x with outNodes := x.outNodes.erase v })
      let t ← t.modify u (fun x => { x with allNeighbours := x.allNeighbours.erase v })
      let t ← t.modify v (fun x => { x with inNodes := x.inNodes.erase u })
      let t ← t.modify v (fun x => { x with allNeighbours := x.allNeighbours.erase u })
      some { t with nEdges := t.nEdges - 1 }
    else some t
  | _, _ => some t

/-- The calls of a history. A node is named by its place in the list of nodes; a place behind the
end stands for NULL. -/
inductive GraphOp where
  | addNode
  | addEdge (u v : Nat)
  | addEdgeAt (u v : Nat) (nth : Int)
  | delEdge (u v : Nat)
  | delNode (u : Nat)

def RGraph.step (t : RGraph) : GraphOp → Option RGraph
  | .addNode => some (rGraphAddNode t)
  | .addEdge u v => rGraphAddEdge t t.nodes[u]? t.nodes[v]?
  | .addEdgeAt u v nth => rGraphAddEdgeAt t t.nodes[u]? t.nodes[v]? nth
  | .delEdge u v => rGraphDelEdge t t.nodes[u]? t.nodes[v]?
  | .delNode u => rGraphDelNode t t.nodes[u]?

def RGraph.run (t : RGraph) : List GraphOp → Option RGraph
  | [] => some t
  | op :: ops => do
    let t ← t.step op
    t.run ops

def RGraph.out (t : RGraph) (a : Nat) : List Nat := ((t.mem a).map (·.outNodes)).getD []

def RGraph.inn (t : RGraph) (a : Nat) : List Nat := ((t.mem a).map (·.inNodes)).getD []

def RGraph.all (t : RGraph) (a : Nat) : List Nat := ((t.mem a).map (·.allNeighbours)).getD []

def RGraph.idx (t : RGraph) (a : Nat) : Nat := ((t.mem a).map (fun x => x.idx.toNat)).getD 0

end Radare
