import Radare.Util.GraphRep
import Radare.Framework.AdjacencyLists

namespace Radare

open Framework

def RGraph.arcs (g : RGraph) : List (Nat × Nat) := Framework.arcs g.nodes g.out

/-- There is an edge. -/
def RGraph.Edge (g : RGraph) (a b : Nat) : Prop := (a, b) ∈ g.arcs

/-- What the lists are, whatever the counters hold. -/
structure RGraph.Shape (t : RGraph) : Prop where
  live : ∀ u ∈ t.nodes, (t.mem u).isSome
  bound : ∀ u ∈ t.nodes, u < t.fresh
  lists : Adjacency t.nodes t.out t.inn t.all

theorem RGraph.Ok.shape {t : RGraph} (h : t.Ok) : t.Shape := ⟨h.live, h.bound, h.lists⟩

variable {t : RGraph} {u v : Nat}

theorem RGraph.Shape.ends_mem (h : t.Shape) (he : t.Edge u v) : u ∈ t.nodes ∧ v ∈ t.nodes := by
  obtain ⟨hu, hv⟩ := mem_arcs.mp he
  exact ⟨hu, h.lists.outMem u hu v hv⟩

theorem RGraph.Shape.mem_inn (h : t.Shape) (hv : v ∈ t.nodes) : u ∈ t.inn v ↔ t.Edge u v :=
  h.lists.mem_inn hv

/-- The lists after a change to the nodes, which stay where they are. -/
theorem RGraph.Shape.of_lists {t' : RGraph} (h : t.Shape) {F : Nat → RGraphNode → RGraphNode}
    (hm : t'.mem = fun w => (t.mem w).map (F w)) (hn : t'.nodes = t.nodes) (hf : t'.fresh = t.fresh)
    (hadj : Adjacency t.nodes t'.out t'.inn t'.all) : t'.Shape := by
  refine ⟨?_, ?_, by rw [hn]; exact hadj⟩
  · intro w hw
    rw [hn] at hw
    rw [hm]
    simpa using h.live w hw
  · intro w hw
    rw [hn] at hw
    rw [hf]
    exact h.bound w hw

/-- What a call leaves as it was when it only changes edges. -/
structure RGraph.SameNodes (t t' : RGraph) : Prop where
  nodes : t'.nodes = t.nodes
  fresh : t'.fresh = t.fresh

/-- `r_graph_add_edge_at` adds the arc, whatever the place. -/
theorem RGraph.Shape.addEdgeAt (h : t.Shape) (hu : u ∈ t.nodes) (hv : v ∈ t.nodes) (nth : Int) :
    ∃ t', rGraphAddEdgeAt t (some u) (some v) nth = some t' ∧ t'.Shape ∧ t.SameNodes t' ∧
      t'.arcs.Perm ((u, v) :: t.arcs) := by
  refine ⟨_, addEdgeAt_eq (h.live u hu) (h.live v hv) nth, ?_⟩
  generalize ht' : ({ t with
    mem := fun w => (t.mem w).map (addEdgeNode u v nth w), nEdges := t.nEdges + 1 } : RGraph) = t'
  have hm : t'.mem = fun w => (t.mem w).map (addEdgeNode u v nth w) := by rw [← ht']
  have hn : t'.nodes = t.nodes := by rw [← ht']
  have hf : t'.fresh = t.fresh := by rw [← ht']
  have hadded := addEdgeNode_added h.live hm
  refine ⟨h.of_lists hm hn hf ((Adjacency.edge_iff hu hv hadded).mp h.lists), ⟨hn, hf⟩, ?_⟩
  rw [RGraph.arcs, hn]
  exact hadded.arcs_perm h.lists.nodup hu

/-- `r_graph_del_edge` takes the arc away once. -/
theorem RGraph.Shape.delEdge (h : t.Shape) (he : t.Edge u v) :
    ∃ t', rGraphDelEdge t (some u) (some v) = some t' ∧ t'.Shape ∧ t.SameNodes t' ∧
      t.arcs.Perm ((u, v) :: t'.arcs) := by
  obtain ⟨hu, hv⟩ := h.ends_mem he
  have hmem : v ∈ t.out u := (mem_arcs.mp he).2
  rw [delEdge_eq (h.live u hu) (h.live v hv), if_pos hmem]
  refine ⟨_, rfl, ?_⟩
  generalize ht' : ({ t with
    mem := fun w => (t.mem w).map (delEdgeNode u v w), nEdges := t.nEdges - 1 } : RGraph) = t'
  have hm : t'.mem = fun w => (t.mem w).map (delEdgeNode u v w) := by rw [← ht']
  have hn : t'.nodes = t.nodes := by rw [← ht']
  have hf : t'.fresh = t.fresh := by rw [← ht']
  have hadded := delEdgeNode_removed h.live h.lists hu hv hmem hm
  refine ⟨h.of_lists hm hn hf ((Adjacency.edge_iff hu hv hadded).mpr h.lists), ⟨hn, hf⟩, ?_⟩
  have hperm := hadded.arcs_perm h.lists.nodup hu
  rw [RGraph.arcs, RGraph.arcs, hn]
  exact hperm

/-- `r_graph_add_node`: a node without edges, behind the others. -/
theorem RGraph.Shape.addNode (h : t.Shape) : (rGraphAddNode t).Shape ∧ (rGraphAddNode t).arcs = t.arcs := by
  have hnew : t.fresh ∉ t.nodes := fun hmem => lt_irrefl _ (h.bound _ hmem)
  have hnodes : (rGraphAddNode t).nodes = t.nodes ++ [t.fresh] := by simp [rGraphAddNode]
  have hfresh : (rGraphAddNode t).fresh = t.fresh + 1 := by simp [rGraphAddNode]
  have hself : (rGraphAddNode t).mem t.fresh = some ⟨BitVec.ofInt 32 t.lastIndex, [], [], []⟩ := by
    simp [rGraphAddNode]
  have hold : ∀ w ∈ t.nodes, (rGraphAddNode t).mem w = t.mem w := by
    intro w hw
    have hne : w ≠ t.fresh := by
      intro he
      rw [he] at hw
      exact hnew hw
    simp [rGraphAddNode, hne]
  have hmem : ∀ {w}, w ∈ (rGraphAddNode t).nodes → w ∈ t.nodes ∨ w = t.fresh := by
    intro w hw
    rwa [hnodes, List.mem_append, List.mem_singleton] at hw
  have hout : ∀ w ∈ t.nodes, (rGraphAddNode t).out w = t.out w :=
    fun w hw => (RGraph.fields_congr (hold w hw)).1
  refine ⟨⟨?_, ?_, ?_⟩, ?_⟩
  · intro w hw
    rcases hmem hw with hw | hw
    · rw [hold w hw]
      exact h.live w hw
    · simp [hw, hself]
  · intro w hw
    rw [hfresh]
    rcases hmem hw with hw | hw
    · have := h.bound w hw
      omega
    · omega
  · exact h.lists.addNode hnew hout (fun w hw => (RGraph.fields_congr (hold w hw)).2.1)
      (fun w hw => (RGraph.fields_congr (hold w hw)).2.2.1)
      (RGraph.out_eq hself) (RGraph.inn_eq hself) (RGraph.all_eq hself)
  · rw [RGraph.arcs, hnodes]
    exact arcs_addNode hout (RGraph.out_eq hself)

/-- `r_graph_del_node` takes the node away and its arcs. -/
theorem RGraph.Shape.delNode (h : t.Shape) (hu : u ∈ t.nodes) :
    ∃ t', rGraphDelNode t (some u) = some t' ∧ t'.Shape ∧ t'.nodes = t.nodes.erase u ∧
      t'.arcs = t.arcs.filter fun e => e.1 ≠ u ∧ e.2 ≠ u := by
  obtain ⟨t', hrun, hnodes, hfresh, -, -, -, hrest⟩ := delNode_spec h.live h.lists hu
  have hmem : ∀ {w}, w ∈ t'.nodes → w ∈ t.nodes ∧ w ≠ u := by
    intro w hw
    rw [hnodes, h.lists.nodup.mem_erase_iff] at hw
    exact ⟨hw.2, hw.1⟩
  have hout : ∀ w ∈ t.nodes, w ≠ u → t'.out w = (t.out w).filter (· ≠ u) :=
    fun w hw hne => (hrest w hw hne).2.2.1
  refine ⟨t', hrun, ⟨fun w hw => ?_, fun w hw => ?_, ?_⟩, hnodes, ?_⟩
  · exact (hrest w (hmem hw).1 (hmem hw).2).1
  · rw [hfresh]
    exact h.bound w (hmem hw).1
  · rw [hnodes]
    exact h.lists.delNode u hout (fun w hw hne => (hrest w hw hne).2.2.2.1)
      (fun w hw hne => (hrest w hw hne).2.2.2.2)
  · rw [RGraph.arcs, hnodes]
    exact arcs_delNode h.lists.nodup hout

/-- `r_graph_del_node` on the nodes of a list, one after the other. -/
def delNodes : List Nat → RGraph → Option RGraph
  | [], t => some t
  | gn :: it, t => do
    let t ← rGraphDelNode t (some gn)
    delNodes it t

theorem RGraph.Shape.delNodes {l : List Nat} (h : t.Shape) (hnd : l.Nodup) (hl : ∀ u ∈ l, u ∈ t.nodes) :
    ∃ t', Radare.delNodes l t = some t' ∧ t'.Shape ∧ t'.nodes = t.nodes.filter (· ∉ l) ∧
      t'.arcs = t.arcs.filter fun e => e.1 ∉ l ∧ e.2 ∉ l := by
  induction l generalizing t with
  | nil => exact ⟨t, rfl, h, by simp, by simp⟩
  | cons u l ih =>
    obtain ⟨hnot, hnd⟩ := List.nodup_cons.mp hnd
    obtain ⟨t₁, hrun₁, hshape₁, hnodes₁, harcs₁⟩ := h.delNode (hl u List.mem_cons_self)
    rw [h.lists.nodup.erase_eq_filter] at hnodes₁
    obtain ⟨t', hrun, hshape, hnodes, harcs⟩ := ih hshape₁ hnd fun v hv => by
      have hne : v ≠ u := fun heq => hnot (heq ▸ hv)
      simpa [hnodes₁, hne] using hl v (List.mem_cons_of_mem u hv)
    refine ⟨t', ?_, hshape, ?_, ?_⟩
    · rw [Radare.delNodes, hrun₁, Option.bind_eq_bind, Option.bind_some]
      exact hrun
    · rw [hnodes, hnodes₁, List.filter_filter]
      apply List.filter_congr
      intro v _
      by_cases hv : v = u <;> simp [hv]
    · rw [harcs, harcs₁, List.filter_filter]
      apply List.filter_congr
      intro e _
      by_cases hfst : e.1 = u <;> by_cases hsnd : e.2 = u <;> simp [hfst, hsnd]

end Radare
