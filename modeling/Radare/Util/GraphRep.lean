import Radare.Util.Graph

namespace Radare

open Framework

/-- The representation invariant. -/
structure RGraph.RepOk (t : RGraph) : Prop where
  live : ∀ u ∈ t.nodes, (t.mem u).isSome
  nodup : t.nodes.Nodup
  mirror : ∀ u ∈ t.nodes, ∀ v ∈ t.nodes, (t.out u).count v = (t.inn v).count u
  split : ∀ u ∈ t.nodes, (t.all u).Perm (t.out u ++ t.inn u)
  members : ∀ u ∈ t.nodes, ∀ v, v ∈ t.out u ∨ v ∈ t.inn u ∨ v ∈ t.all u → v ∈ t.nodes
  idxInj : ∀ u ∈ t.nodes, ∀ v ∈ t.nodes, t.idx u = t.idx v → u = v
  idxLt : ∀ u ∈ t.nodes, (t.idx u : Int) < t.lastIndex
  nNodes : t.nNodes.toNat = t.nodes.length
  nEdges : t.nEdges.toNat = edgeTotal t.nodes t.out

/-- What the induction carries: the lists, the indices, and that the counters are right. -/
structure RGraph.Ok (t : RGraph) : Prop where
  live : ∀ u ∈ t.nodes, (t.mem u).isSome
  bound : ∀ u ∈ t.nodes, u < t.fresh
  lists : Adjacency t.nodes t.out t.inn t.all
  idxInj : ∀ u ∈ t.nodes, ∀ v ∈ t.nodes, t.idx u = t.idx v → u = v
  idxLt : ∀ u ∈ t.nodes, (t.idx u : Int) < t.lastIndex
  lastNonneg : 0 ≤ t.lastIndex
  lastLt : t.lastIndex < 2147483648
  few : (t.nodes.length : Int) ≤ t.lastIndex
  nNodes : t.nNodes.toNat = t.nodes.length
  nEdges : t.nEdges.toNat = edgeTotal t.nodes t.out

theorem RGraph.Ok.repOk {t : RGraph} (h : t.Ok) : t.RepOk := by
  refine ⟨h.live, h.lists.nodup, h.lists.mirror, h.lists.split, ?_, h.idxInj, h.idxLt, h.nNodes, h.nEdges⟩
  intro u hu v hv
  rcases hv with hv | hv | hv
  · exact h.lists.outMem u hu v hv
  · exact h.lists.inMem u hu v hv
  · exact h.lists.all_mem hu hv

theorem RGraph.Ok.new : rGraphNew.Ok := by
  refine ⟨nofun, nofun, ⟨List.nodup_nil, nofun, nofun, nofun, nofun⟩, nofun, nofun, by decide, by decide,
    by decide, rfl, rfl⟩

/-- The condition a call meets before it is made: the counters of the graph still have room. -/
def RGraph.HasRoom (t : RGraph) : GraphOp → Prop
  | .addNode => t.lastIndex < 2147483647
  | .addEdge _ _ => edgeTotal t.nodes t.out < 4294967295
  | .addEdgeAt _ _ _ => edgeTotal t.nodes t.out < 4294967295
  | _ => True

section Fields

variable {t t' : RGraph} {a w : Nat} {x y : RGraphNode}

theorem RGraph.out_eq (hx : t.mem a = some x) : t.out a = x.outNodes := by
  rw [RGraph.out, hx]
  rfl

theorem RGraph.inn_eq (hx : t.mem a = some x) : t.inn a = x.inNodes := by
  rw [RGraph.inn, hx]
  rfl

theorem RGraph.all_eq (hx : t.mem a = some x) : t.all a = x.allNeighbours := by
  rw [RGraph.all, hx]
  rfl

theorem RGraph.idx_eq (hx : t.mem a = some x) : t.idx a = x.idx.toNat := by
  rw [RGraph.idx, hx]
  rfl

/-- The four fields of a node whose memory did not change. -/
theorem RGraph.fields_congr (h : t'.mem w = t.mem w) :
    t'.out w = t.out w ∧ t'.inn w = t.inn w ∧ t'.all w = t.all w ∧ t'.idx w = t.idx w := by
  rw [RGraph.out, RGraph.out, RGraph.inn, RGraph.inn, RGraph.all, RGraph.all, RGraph.idx, RGraph.idx, h]
  exact ⟨rfl, rfl, rfl, rfl⟩

/-- What a change to one node does to all of them. -/
def onlyAt (a : Nat) (h : RGraphNode → RGraphNode) (w : Nat) : RGraphNode → RGraphNode :=
  if w = a then h else id

theorem modify_spec (ha : (t.mem a).isSome) (h : RGraphNode → RGraphNode) :
    t.modify a h = some { t with mem := fun w => (t.mem w).map (onlyAt a h w) } := by
  obtain ⟨x, hx⟩ := Option.isSome_iff_exists.mp ha
  have hmem : Function.update t.mem a (some (h x)) = fun w => (t.mem w).map (onlyAt a h w) := by
    funext w
    by_cases hw : w = a
    · rw [hw, Function.update_self, hx, onlyAt, if_pos rfl]
      rfl
    · rw [Function.update_of_ne hw, onlyAt, if_neg hw, Option.map_id_apply]
  rw [RGraph.modify, hx, ← hmem]
  rfl

/-- The fields of a node after all nodes went through a function. -/
theorem fields_map {F : Nat → RGraphNode → RGraphNode} (h : t'.mem = fun w => (t.mem w).map (F w))
    (hx : t.mem w = some x) :
    t'.out w = (F w x).outNodes ∧ t'.inn w = (F w x).inNodes ∧ t'.all w = (F w x).allNeighbours ∧
      t'.idx w = (F w x).idx.toNat := by
  have hw : t'.mem w = some (F w x) := by
    rw [h]
    simp only [hx, Option.map_some]
  exact ⟨RGraph.out_eq hw, RGraph.inn_eq hw, RGraph.all_eq hw, RGraph.idx_eq hw⟩

end Fields

theorem listInsert_perm (l : List Nat) (n : Int) (x : Nat) : (listInsert l n x).Perm (x :: l) := by
  unfold listInsert
  split_ifs with h1 h2
  · exact List.Perm.refl _
  · exact List.perm_insertIdx x l (by omega)
  · exact (List.perm_append_singleton x l)

/-- The graph after the lists changed by one edge is right again. -/
theorem RGraph.Ok.of_lists {t t' : RGraph} (h : t.Ok) {F : Nat → RGraphNode → RGraphNode}
    (hm : t'.mem = fun w => (t.mem w).map (F w)) (hF : ∀ w x, (F w x).idx = x.idx)
    (hn : t'.nodes = t.nodes) (hf : t'.fresh = t.fresh) (hl : t'.lastIndex = t.lastIndex)
    (hc : t'.nNodes = t.nNodes) (hadj : Adjacency t.nodes t'.out t'.inn t'.all)
    (he : t'.nEdges.toNat = edgeTotal t.nodes t'.out) : t'.Ok := by
  have hidx : ∀ u ∈ t.nodes, t'.idx u = t.idx u := by
    intro u hu
    obtain ⟨x, hx⟩ := Option.isSome_iff_exists.mp (h.live u hu)
    rw [(fields_map hm hx).2.2.2, hF, RGraph.idx_eq hx]
  refine ⟨?_, ?_, by rw [hn]; exact hadj, ?_, ?_, by rw [hl]; exact h.lastNonneg,
    by rw [hl]; exact h.lastLt, by rw [hn, hl]; exact h.few, by rw [hn, hc]; exact h.nNodes, by rw [hn]; exact he⟩
  · intro u hu
    rw [hn] at hu
    rw [hm]
    simpa using h.live u hu
  · intro u hu
    rw [hn] at hu
    rw [hf]
    exact h.bound u hu
  · intro u hu v hv huv
    rw [hn] at hu hv
    rw [hidx u hu, hidx v hv] at huv
    exact h.idxInj u hu v hv huv
  · intro u hu
    rw [hn] at hu
    rw [hidx u hu, hl]
    exact h.idxLt u hu

/-- The function the four writes of `r_graph_add_edge_at` amount to. -/
def addEdgeNode (u v : Nat) (nth : Int) (w : Nat) (x : RGraphNode) : RGraphNode :=
  { x with
    outNodes := if w = u then listInsert x.outNodes nth v else x.outNodes
    inNodes := if w = v then x.inNodes ++ [u] else x.inNodes
    allNeighbours := (x.allNeighbours ++ if w = u then [v] else []) ++ if w = v then [u] else [] }

theorem addEdgeAt_eq {t : RGraph} {u v : Nat} (hu : (t.mem u).isSome) (hv : (t.mem v).isSome) (nth : Int) :
    rGraphAddEdgeAt t (some u) (some v) nth =
      some { t with
        mem := fun w => (t.mem w).map (addEdgeNode u v nth w), nEdges := t.nEdges + 1 } := by
  have hlive : ∀ {m : Nat → Option RGraphNode} {F : Nat → RGraphNode → RGraphNode} {w : Nat},
      (m w).isSome → (((m w).map (F w)).isSome) := by
    intro m F w hw
    simpa using hw
  simp only [rGraphAddEdgeAt, Option.bind_eq_bind]
  rw [modify_spec hu, Option.bind_some, modify_spec (hlive hu), Option.bind_some,
    modify_spec (hlive (hlive hv)), Option.bind_some, modify_spec (hlive (hlive (hlive hv))), Option.bind_some]
  congr 2
  funext w
  simp only [Option.map_map]
  congr 1
  funext x
  by_cases h1 : w = u
  · subst h1
    by_cases h2 : w = v
    · subst h2
      simp [onlyAt, addEdgeNode]
    · simp [onlyAt, addEdgeNode, h2]
  · by_cases h2 : w = v
    · subst h2
      simp [onlyAt, addEdgeNode, h1]
    · simp [onlyAt, addEdgeNode, h1, h2]

theorem addEdgeNode_added {t t' : RGraph} (hlive : ∀ w ∈ t.nodes, (t.mem w).isSome) {u v : Nat} {nth : Int}
    (hm : t'.mem = fun w => (t.mem w).map (addEdgeNode u v nth w)) :
    EdgeAdded t.nodes u v t.out t.inn t.all t'.out t'.inn t'.all := by
  refine ⟨?_, ?_, ?_⟩
  · intro w hw
    obtain ⟨x, hx⟩ := Option.isSome_iff_exists.mp (hlive w hw)
    rw [(fields_map hm hx).1, RGraph.out_eq hx]
    show (if w = u then listInsert x.outNodes nth v else x.outNodes).Perm _
    split_ifs
    · exact listInsert_perm _ _ _
    · exact List.Perm.refl _
  · intro w hw
    obtain ⟨x, hx⟩ := Option.isSome_iff_exists.mp (hlive w hw)
    rw [(fields_map hm hx).2.1, RGraph.inn_eq hx]
    show (if w = v then x.inNodes ++ [u] else x.inNodes).Perm _
    split_ifs
    · exact List.perm_append_singleton _ _
    · exact List.Perm.refl _
  · intro w hw
    obtain ⟨x, hx⟩ := Option.isSome_iff_exists.mp (hlive w hw)
    rw [(fields_map hm hx).2.2.1, RGraph.all_eq hx]
    show ((x.allNeighbours ++ if w = u then [v] else []) ++ if w = v then [u] else []).Perm _
    rw [List.append_assoc]
    exact List.perm_append_comm

theorem addEdgeAt_ok {t : RGraph} (h : t.Ok) {u v : Nat} (hu : u ∈ t.nodes) (hv : v ∈ t.nodes)
    (hroom : edgeTotal t.nodes t.out < 4294967295) (nth : Int) :
    ∃ t', rGraphAddEdgeAt t (some u) (some v) nth = some t' ∧ t'.Ok := by
  refine ⟨_, addEdgeAt_eq (h.live u hu) (h.live v hv) nth, ?_⟩
  generalize ht' : ({ t with
    mem := fun w => (t.mem w).map (addEdgeNode u v nth w), nEdges := t.nEdges + 1 } : RGraph) = t'
  have hm : t'.mem = fun w => (t.mem w).map (addEdgeNode u v nth w) := by rw [← ht']
  have hadded := addEdgeNode_added h.live hm
  have hadj := (Adjacency.edge_iff hu hv hadded).mp h.lists
  have htotal := edgeTotal_edgeAdded h.lists.nodup hu hadded
  refine h.of_lists hm (fun _ _ => rfl) (by rw [← ht']) (by rw [← ht']) (by rw [← ht']) (by rw [← ht']) hadj ?_
  rw [htotal, ← h.nEdges, ← ht']
  have hlt : t.nEdges.toNat < 4294967295 := by rw [h.nEdges]; exact hroom
  show (t.nEdges + 1).toNat = _
  rw [BitVec.toNat_add]
  show (t.nEdges.toNat + 1) % 4294967296 = _
  omega

/-- `r_graph_add_node`, while there is an index left. -/
theorem addNode_ok {t : RGraph} (h : t.Ok) (hroom : t.lastIndex < 2147483647) : (rGraphAddNode t).Ok := by
  have hnew : t.fresh ∉ t.nodes := fun hmem => lt_irrefl _ (h.bound _ hmem)
  have hself : (rGraphAddNode t).mem t.fresh = some ⟨BitVec.ofInt 32 t.lastIndex, [], [], []⟩ :=
    Function.update_self _ _ _
  have hold : ∀ u ∈ t.nodes, (rGraphAddNode t).mem u = t.mem u := by
    intro u hu
    refine Function.update_of_ne ?_ _ _
    intro he
    rw [he] at hu
    exact hnew hu
  have hnodes : (rGraphAddNode t).nodes = t.nodes ++ [t.fresh] := rfl
  have hmem : ∀ {u}, u ∈ (rGraphAddNode t).nodes → u ∈ t.nodes ∨ u = t.fresh := by
    intro u hu
    rwa [hnodes, List.mem_append, List.mem_singleton] at hu
  have hlast : (rGraphAddNode t).lastIndex = t.lastIndex + 1 :=
    wrapInt_of_range (by have := h.lastNonneg; omega) (by omega)
  have hidx : ((rGraphAddNode t).idx t.fresh : Int) = t.lastIndex := by
    rw [RGraph.idx_eq hself, BitVec.toNat_ofInt]
    have h0 := h.lastNonneg
    omega
  refine ⟨?_, ?_, ?_, ?_, ?_, ?_, ?_, ?_, ?_, ?_⟩
  · intro u hu
    rcases hmem hu with hu | hu
    · rw [hold u hu]
      exact h.live u hu
    · rw [hu, hself]
      rfl
  · intro u hu
    have hfresh : (rGraphAddNode t).fresh = t.fresh + 1 := rfl
    rcases hmem hu with hu | hu
    · have := h.bound u hu
      omega
    · omega
  · exact h.lists.addNode hnew (fun u hu => (RGraph.fields_congr (hold u hu)).1)
      (fun u hu => (RGraph.fields_congr (hold u hu)).2.1)
      (fun u hu => (RGraph.fields_congr (hold u hu)).2.2.1)
      (RGraph.out_eq hself) (RGraph.inn_eq hself) (RGraph.all_eq hself)
  · intro u hu v hv huv
    rcases hmem hu with hu | hu
    · rcases hmem hv with hv | hv
      · rw [(RGraph.fields_congr (hold u hu)).2.2.2, (RGraph.fields_congr (hold v hv)).2.2.2] at huv
        exact h.idxInj u hu v hv huv
      · rw [hv, (RGraph.fields_congr (hold u hu)).2.2.2] at huv
        have hlt := h.idxLt u hu
        omega
    · rcases hmem hv with hv | hv
      · rw [hu, (RGraph.fields_congr (hold v hv)).2.2.2] at huv
        have hlt := h.idxLt v hv
        omega
      · rw [hu, hv]
  · intro u hu
    rw [hlast]
    rcases hmem hu with hu | hu
    · rw [(RGraph.fields_congr (hold u hu)).2.2.2]
      have := h.idxLt u hu
      omega
    · rw [hu, hidx]
      omega
  · rw [hlast]
    have := h.lastNonneg
    omega
  · rw [hlast]
    omega
  · rw [hlast, hnodes, List.length_append, List.length_singleton]
    have := h.few
    omega
  · show (t.nNodes + 1).toNat = _
    rw [hnodes, List.length_append, List.length_singleton, BitVec.toNat_add, h.nNodes]
    have := h.few
    show (t.nodes.length + 1) % 4294967296 = _
    omega
  · show t.nEdges.toNat = _
    have hout : ∀ u ∈ t.nodes, ((rGraphAddNode t).out u).length = (t.out u).length := by
      intro u hu
      rw [(RGraph.fields_congr (hold u hu)).1]
    rw [h.nEdges, edgeTotal, edgeTotal, hnodes, List.map_append, List.sum_append,
      List.map_congr_left hout, List.map_singleton, RGraph.out_eq hself]
    rfl

/-- The function the four deletions of `r_graph_del_edge` amount to. -/
def delEdgeNode (u v : Nat) (w : Nat) (x : RGraphNode) : RGraphNode :=
  { x with
    outNodes := if w = u then x.outNodes.erase v else x.outNodes
    inNodes := if w = v then x.inNodes.erase u else x.inNodes
    allNeighbours :=
      if w = v then (if w = u then x.allNeighbours.erase v else x.allNeighbours).erase u
      else if w = u then x.allNeighbours.erase v else x.allNeighbours }

theorem delEdge_eq {t : RGraph} {u v : Nat} (hu : (t.mem u).isSome) (hv : (t.mem v).isSome) :
    rGraphDelEdge t (some u) (some v) =
      if v ∈ t.out u then
        some { t with mem := fun w => (t.mem w).map (delEdgeNode u v w), nEdges := t.nEdges - 1 }
      else some t := by
  have hlive : ∀ {m : Nat → Option RGraphNode} {F : Nat → RGraphNode → RGraphNode} {w : Nat},
      (m w).isSome → (((m w).map (F w)).isSome) := by
    intro m F w hw
    simpa using hw
  obtain ⟨x, hx⟩ := Option.isSome_iff_exists.mp hu
  have hadj : rGraphAdjacent t u v = some (decide (v ∈ t.out u)) := by
    rw [RGraph.out_eq hx]
    simp only [rGraphAdjacent, hx, Option.bind_eq_bind, Option.bind_some]
  simp only [rGraphDelEdge, hadj, Option.bind_eq_bind, Option.bind_some, decide_eq_true_eq]
  by_cases hmem : v ∈ t.out u
  · rw [if_pos hmem, if_pos hmem, modify_spec hu, Option.bind_some, modify_spec (hlive hu), Option.bind_some,
      modify_spec (hlive (hlive hv)), Option.bind_some, modify_spec (hlive (hlive (hlive hv))),
      Option.bind_some]
    congr 2
    funext w
    simp only [Option.map_map]
    congr 1
    funext x
    by_cases h1 : w = u
    · subst h1
      by_cases h2 : w = v
      · subst h2
        simp [onlyAt, delEdgeNode]
      · simp [onlyAt, delEdgeNode, h2]
    · by_cases h2 : w = v
      · subst h2
        simp [onlyAt, delEdgeNode, h1]
      · simp [onlyAt, delEdgeNode, h1, h2]
  · rw [if_neg hmem, if_neg hmem]

/-- What the two deletions leave of `all_neighbours`; a loop stands in it twice. -/
theorem delEdge_all_perm {l o i : List Nat} (hs : l.Perm (o ++ i)) {u v w : Nat} (ho : w = u → v ∈ o)
    (hi : w = v → u ∈ i) :
    l.Perm ((if w = u then [v] else []) ++ (if w = v then [u] else []) ++
      (if w = v then (if w = u then l.erase v else l).erase u else if w = u then l.erase v else l)) := by
  by_cases h1 : w = u
  · have hv : v ∈ l := hs.mem_iff.mpr (List.mem_append_left _ (ho h1))
    by_cases h2 : w = v
    · have hvu : v = u := h2.symm.trans h1
      subst hvu
      have hcount : l.count v = o.count v + i.count v := by rw [hs.count_eq, List.count_append]
      have hc1 : 0 < o.count v := List.count_pos_iff.mpr (ho h1)
      have hc2 : 0 < i.count v := List.count_pos_iff.mpr (hi h2)
      have hagain : v ∈ l.erase v := by
        apply List.count_pos_iff.mp
        rw [List.count_erase_self]
        omega
      simp only [if_pos h1]
      exact (List.perm_cons_erase hv).trans ((List.perm_cons_erase hagain).cons v)
    · simp only [if_pos h1, if_neg h2]
      exact List.perm_cons_erase hv
  · by_cases h2 : w = v
    · have hu : u ∈ l := hs.mem_iff.mpr (List.mem_append_right _ (hi h2))
      simp only [if_neg h1, if_pos h2]
      exact List.perm_cons_erase hu
    · simp only [if_neg h1, if_neg h2]
      exact List.Perm.refl _

theorem delEdgeNode_removed {t t' : RGraph} (hlive : ∀ w ∈ t.nodes, (t.mem w).isSome)
    (hadj : Adjacency t.nodes t.out t.inn t.all) {u v : Nat} (hu : u ∈ t.nodes) (hv : v ∈ t.nodes)
    (hmem : v ∈ t.out u) (hm : t'.mem = fun w => (t.mem w).map (delEdgeNode u v w)) :
    EdgeAdded t.nodes u v t'.out t'.inn t'.all t.out t.inn t.all := by
  have hin : u ∈ t.inn v := by
    apply List.count_pos_iff.mp
    rw [← hadj.mirror u hu v hv]
    exact List.count_pos_iff.mpr hmem
  refine ⟨?_, ?_, ?_⟩
  · intro w hw
    obtain ⟨x, hx⟩ := Option.isSome_iff_exists.mp (hlive w hw)
    rw [(fields_map hm hx).1, RGraph.out_eq hx]
    show x.outNodes.Perm (_ ++ if w = u then x.outNodes.erase v else x.outNodes)
    by_cases h1 : w = u
    · rw [if_pos h1, if_pos h1]
      rw [← h1, RGraph.out_eq hx] at hmem
      exact List.perm_cons_erase hmem
    · rw [if_neg h1, if_neg h1]
      exact List.Perm.refl _
  · intro w hw
    obtain ⟨x, hx⟩ := Option.isSome_iff_exists.mp (hlive w hw)
    rw [(fields_map hm hx).2.1, RGraph.inn_eq hx]
    show x.inNodes.Perm (_ ++ if w = v then x.inNodes.erase u else x.inNodes)
    by_cases h1 : w = v
    · rw [if_pos h1, if_pos h1]
      rw [← h1, RGraph.inn_eq hx] at hin
      exact List.perm_cons_erase hin
    · rw [if_neg h1, if_neg h1]
      exact List.Perm.refl _
  · intro w hw
    obtain ⟨x, hx⟩ := Option.isSome_iff_exists.mp (hlive w hw)
    have hs := hadj.split w hw
    rw [(fields_map hm hx).2.2.1]
    rw [RGraph.all_eq hx] at hs ⊢
    refine delEdge_all_perm hs ?_ ?_
    · intro he
      rw [he]
      exact hmem
    · intro he
      rw [he]
      exact hin

theorem delEdge_ok {t : RGraph} (h : t.Ok) {u v : Nat} (hu : u ∈ t.nodes) (hv : v ∈ t.nodes) :
    ∃ t', rGraphDelEdge t (some u) (some v) = some t' ∧ t'.Ok := by
  rw [delEdge_eq (h.live u hu) (h.live v hv)]
  by_cases hmem : v ∈ t.out u
  · rw [if_pos hmem]
    refine ⟨_, rfl, ?_⟩
    generalize ht' : ({ t with
      mem := fun w => (t.mem w).map (delEdgeNode u v w), nEdges := t.nEdges - 1 } : RGraph) = t'
    have hm : t'.mem = fun w => (t.mem w).map (delEdgeNode u v w) := by rw [← ht']
    have hadded := delEdgeNode_removed h.live h.lists hu hv hmem hm
    have hadj := (Adjacency.edge_iff hu hv hadded).mpr h.lists
    have htotal := edgeTotal_edgeAdded h.lists.nodup hu hadded
    refine h.of_lists hm (fun _ _ => rfl) (by rw [← ht']) (by rw [← ht']) (by rw [← ht']) (by rw [← ht'])
      hadj ?_
    have hnat := h.nEdges
    have hlt := t.nEdges.isLt
    rw [← ht']
    show (t.nEdges - 1).toNat = edgeTotal t.nodes _
    rw [ht', BitVec.toNat_sub]
    show (4294967296 - 1 + t.nEdges.toNat) % 4294967296 = _
    omega
  · rw [if_neg hmem]
    exact ⟨t, rfl, h⟩

section DelNode

variable {n : Nat}

theorem filter_erase_self (l : List Nat) (n : Nat) : (l.erase n).filter (· ≠ n) = l.filter (· ≠ n) := by
  induction l with
  | nil => rfl
  | cons a l ih =>
    by_cases ha : a = n
    · subst ha
      simp
    · rw [List.erase_cons_tail (by simpa using ha), List.filter_cons, List.filter_cons, ih]

/-- Deleting an element as often as it occurs. -/
theorem iterate_erase (k : Nat) (l : List Nat) (hk : l.count n = k) :
    (fun l : List Nat => l.erase n)^[k] l = l.filter (· ≠ n) := by
  induction k generalizing l with
  | zero =>
    rw [Function.iterate_zero, id, List.filter_eq_self.mpr]
    intro a ha
    have hne : a ≠ n := by
      intro he
      rw [he] at ha
      exact List.count_eq_zero.mp hk ha
    simpa using hne
  | succ k ih =>
    rw [Function.iterate_succ_apply, ih (l.erase n) (by rw [List.count_erase_self, hk]; rfl),
      filter_erase_self]

theorem forgetOut_iterate (k : Nat) (x : RGraphNode) :
    (RGraphNode.forgetOut n)^[k] x =
      { x with
        outNodes := (fun l : List Nat => l.erase n)^[k] x.outNodes
        allNeighbours := (fun l : List Nat => l.erase n)^[k] x.allNeighbours } := by
  induction k generalizing x with
  | zero => rfl
  | succ k ih =>
    rw [Function.iterate_succ_apply, ih]
    rfl

theorem forgetIn_iterate (k : Nat) (x : RGraphNode) :
    (RGraphNode.forgetIn n)^[k] x =
      { x with
        inNodes := (fun l : List Nat => l.erase n)^[k] x.inNodes
        allNeighbours := (fun l : List Nat => l.erase n)^[k] x.allNeighbours } := by
  induction k generalizing x with
  | zero => rfl
  | succ k ih =>
    rw [Function.iterate_succ_apply, ih]
    rfl

/-- A loop of `r_graph_del_node` visits a node once for each time the list names it. -/
theorem delNodeLoop_spec (forget : RGraphNode → RGraphNode) (ls : List Nat) (t : RGraph)
    (hlive : ∀ w ∈ ls, (t.mem w).isSome) :
    ∃ e, delNodeLoop forget ls t =
        some { t with mem := fun w => (t.mem w).map (forget^[ls.count w]), nEdges := e } ∧
      e + BitVec.ofNat 32 ls.length = t.nEdges := by
  induction ls generalizing t with
  | nil =>
    refine ⟨t.nEdges, ?_, by simp⟩
    simp only [delNodeLoop, List.count_nil, Function.iterate_zero, Option.map_id_apply]
  | cons gn ls ih =>
    have hgn := hlive gn List.mem_cons_self
    obtain ⟨e, he, hsum⟩ := ih
      { t with mem := fun w => (t.mem w).map (onlyAt gn forget w), nEdges := t.nEdges - 1 }
      (fun w hw => by simpa using hlive w (List.mem_cons_of_mem _ hw))
    refine ⟨e, ?_, ?_⟩
    · simp only [delNodeLoop, modify_spec hgn, Option.bind_eq_bind, Option.bind_some]
      rw [he]
      congr 2
      funext w
      simp only [Option.map_map]
      congr 1
      funext x
      by_cases hw : w = gn
      · subst hw
        rw [List.count_cons_self, Function.iterate_succ_apply, Function.comp_apply, onlyAt, if_pos rfl]
      · rw [List.count_cons_of_ne (Ne.symm hw), Function.comp_apply, onlyAt, if_neg hw]
        rfl
    · have hstep : e + BitVec.ofNat 32 (gn :: ls).length = (e + BitVec.ofNat 32 ls.length) + 1 := by
        rw [List.length_cons, BitVec.ofNat_add, BitVec.add_assoc]
        rfl
      rw [hstep, hsum]
      exact BitVec.sub_add_cancel t.nEdges 1

/-- `r_graph_del_node`: the node goes, and every list of the others forgets it. -/
theorem delNode_spec {t : RGraph} (hlive : ∀ u ∈ t.nodes, (t.mem u).isSome)
    (hlists : Adjacency t.nodes t.out t.inn t.all) (hn : n ∈ t.nodes) :
    ∃ t', rGraphDelNode t (some n) = some t' ∧ t'.nodes = t.nodes.erase n ∧ t'.fresh = t.fresh ∧
      t'.lastIndex = t.lastIndex ∧ t'.nNodes = t.nNodes - 1 ∧
      t'.nEdges + BitVec.ofNat 32 ((t.inn n).length + ((t.out n).filter (· ≠ n)).length) = t.nEdges ∧
      ∀ w ∈ t.nodes, w ≠ n → (t'.mem w).isSome ∧ t'.idx w = t.idx w ∧
        t'.out w = (t.out w).filter (· ≠ n) ∧ t'.inn w = (t.inn w).filter (· ≠ n) ∧
        t'.all w = (t.all w).filter (· ≠ n) := by
  obtain ⟨x, hx⟩ := Option.isSome_iff_exists.mp (hlive n hn)
  obtain ⟨e1, hloop1, hsum1⟩ := delNodeLoop_spec (RGraphNode.forgetOut n) x.inNodes t (by
    intro w hw
    rw [← RGraph.inn_eq hx] at hw
    exact hlive w (hlists.inMem n hn w hw))
  -- the first loop takes the loops at the node out of its own list
  have hself : (RGraphNode.forgetOut n)^[x.inNodes.count n] x =
      { x with
        outNodes := x.outNodes.filter (· ≠ n)
        allNeighbours := (fun l : List Nat => l.erase n)^[x.inNodes.count n] x.allNeighbours } := by
    have hloop := hlists.mirror n hn n hn
    rw [RGraph.out_eq hx, RGraph.inn_eq hx] at hloop
    rw [forgetOut_iterate, iterate_erase _ _ hloop]
  obtain ⟨e2, hloop2, hsum2⟩ := delNodeLoop_spec (RGraphNode.forgetIn n) (x.outNodes.filter (· ≠ n))
    { t with mem := fun w => (t.mem w).map ((RGraphNode.forgetOut n)^[x.inNodes.count w]), nEdges := e1 }
    (by
      intro w hw
      rw [← RGraph.out_eq hx] at hw
      simpa using hlive w (hlists.outMem n hn w (List.mem_of_mem_filter hw)))
  obtain ⟨m, hm⟩ : ∃ m : Nat → Option RGraphNode, m = fun w =>
      ((t.mem w).map ((RGraphNode.forgetOut n)^[x.inNodes.count w])).map
        ((RGraphNode.forgetIn n)^[(x.outNodes.filter (· ≠ n)).count w]) := ⟨_, rfl⟩
  refine ⟨{ t with
    mem := if n ∈ t.nodes then Function.update m n none else m
    nEdges := e2, nodes := t.nodes.erase n, nNodes := t.nNodes - 1 }, ?_, rfl, rfl, rfl, rfl, ?_, ?_⟩
  · simp only [rGraphDelNode, hx, Option.bind_eq_bind, Option.bind_some, hloop1, Option.map_some, hself, hloop2,
      hm]
  · rw [RGraph.inn_eq hx, RGraph.out_eq hx, Nat.add_comm, BitVec.ofNat_add, ← BitVec.add_assoc]
    show e2 + BitVec.ofNat 32 (x.outNodes.filter (· ≠ n)).length + BitVec.ofNat 32 x.inNodes.length = t.nEdges
    rw [hsum2]
    exact hsum1
  · intro w hw hne
    obtain ⟨y, hy⟩ := Option.isSome_iff_exists.mp (hlive w hw)
    have hout : y.outNodes.count n = x.inNodes.count w := by
      have hm := hlists.mirror w hw n hn
      rwa [RGraph.out_eq hy, RGraph.inn_eq hx] at hm
    have hcount : (x.outNodes.filter (· ≠ n)).count w = y.inNodes.count n := by
      have hm := hlists.mirror n hn w hw
      rw [RGraph.out_eq hx, RGraph.inn_eq hy] at hm
      rw [List.count_filter (by simpa using hne), hm]
    have hall : y.allNeighbours.count n = y.inNodes.count n + x.inNodes.count w := by
      have hs := (hlists.split w hw).count_eq n
      rw [RGraph.all_eq hy, RGraph.out_eq hy, RGraph.inn_eq hy, List.count_append] at hs
      omega
    have hmem : ∀ m : Nat → Option RGraphNode, m w = some
        { y with
          outNodes := y.outNodes.filter (· ≠ n), inNodes := y.inNodes.filter (· ≠ n)
          allNeighbours := y.allNeighbours.filter (· ≠ n) } →
        ∀ t' : RGraph, t'.mem = m → (t'.mem w).isSome ∧ t'.idx w = t.idx w ∧
          t'.out w = (t.out w).filter (· ≠ n) ∧ t'.inn w = (t.inn w).filter (· ≠ n) ∧
          t'.all w = (t.all w).filter (· ≠ n) := by
      intro m hmw t' ht'
      rw [← ht'] at hmw
      refine ⟨by rw [hmw]; rfl, ?_, ?_, ?_, ?_⟩
      · rw [RGraph.idx_eq hmw, RGraph.idx_eq hy]
      · rw [RGraph.out_eq hmw, RGraph.out_eq hy]
      · rw [RGraph.inn_eq hmw, RGraph.inn_eq hy]
      · rw [RGraph.all_eq hmw, RGraph.all_eq hy]
    refine hmem _ ?_ _ rfl
    show (if n ∈ t.nodes then Function.update m n none else m) w = _
    rw [if_pos hn, Function.update_of_ne hne, hm]
    simp only [hy, Option.map_some, hcount, forgetOut_iterate, forgetIn_iterate]
    rw [iterate_erase _ _ hout, iterate_erase _ _ rfl, ← Function.iterate_add_apply, iterate_erase _ _ hall]

theorem delNode_ok {t : RGraph} (h : t.Ok) (hn : n ∈ t.nodes) :
    ∃ t', rGraphDelNode t (some n) = some t' ∧ t'.Ok := by
  obtain ⟨t', hrun, hnodes, hfresh, hlast, hcnt, hedges, hrest⟩ := delNode_spec h.live h.lists hn
  have hmem : ∀ {w}, w ∈ t'.nodes → w ∈ t.nodes ∧ w ≠ n := by
    intro w hw
    rw [hnodes, h.lists.nodup.mem_erase_iff] at hw
    exact ⟨hw.2, hw.1⟩
  have hout : ∀ w ∈ t.nodes, w ≠ n → t'.out w = (t.out w).filter (· ≠ n) :=
    fun w hw hne => (hrest w hw hne).2.2.1
  have hlen := List.length_erase_of_mem hn
  have hpos : 0 < t.nodes.length := List.length_pos_of_mem hn
  refine ⟨t', hrun, ?_, ?_, ?_, ?_, ?_, ?_, ?_, ?_, ?_, ?_⟩
  · intro u hu
    exact (hrest u (hmem hu).1 (hmem hu).2).1
  · intro u hu
    rw [hfresh]
    exact h.bound u (hmem hu).1
  · rw [hnodes]
    exact h.lists.delNode n hout (fun w hw hne => (hrest w hw hne).2.2.2.1)
      (fun w hw hne => (hrest w hw hne).2.2.2.2)
  · intro u hu v hv huv
    rw [(hrest u (hmem hu).1 (hmem hu).2).2.1, (hrest v (hmem hv).1 (hmem hv).2).2.1] at huv
    exact h.idxInj u (hmem hu).1 v (hmem hv).1 huv
  · intro u hu
    rw [(hrest u (hmem hu).1 (hmem hu).2).2.1, hlast]
    exact h.idxLt u (hmem hu).1
  · rw [hlast]
    exact h.lastNonneg
  · rw [hlast]
    exact h.lastLt
  · rw [hlast, hnodes, hlen]
    have := h.few
    omega
  · have hlt := t.nNodes.isLt
    have hnat := h.nNodes
    rw [hcnt, hnodes, hlen, BitVec.toNat_sub]
    show (4294967296 - 1 + t.nNodes.toNat) % 4294967296 = _
    omega
  · have htotal := edgeTotal_delNode h.lists hn hout
    have hfilter := length_filter_ne (t.out n) n
    have hlt := t.nEdges.isLt
    have hadd := congrArg BitVec.toNat hedges
    rw [BitVec.toNat_add, BitVec.toNat_ofNat, h.nEdges] at hadd
    rw [h.nEdges] at hlt
    have hlt' := t'.nEdges.isLt
    rw [hnodes]
    omega

end DelNode

theorem getElem?_mem_or {l : List Nat} (k : Nat) : l[k]? = none ∨ ∃ u ∈ l, l[k]? = some u := by
  cases hk : l[k]? with
  | none => exact Or.inl rfl
  | some u => exact Or.inr ⟨u, List.mem_of_getElem? hk, rfl⟩

/-- Every call keeps the graph right, as long as its counters have room. -/
theorem RGraph.Ok.step {t : RGraph} (h : t.Ok) {op : GraphOp} (hroom : t.HasRoom op) :
    ∃ t', t.step op = some t' ∧ t'.Ok := by
  cases op with
  | addNode => exact ⟨_, rfl, addNode_ok h hroom⟩
  | addEdge u v =>
    rcases getElem?_mem_or (l := t.nodes) u with hu | ⟨a, ha, hu⟩
    · exact ⟨t, by simp only [RGraph.step, rGraphAddEdge, rGraphAddEdgeAt, hu], h⟩
    · rcases getElem?_mem_or (l := t.nodes) v with hv | ⟨b, hb, hv⟩
      · exact ⟨t, by simp only [RGraph.step, rGraphAddEdge, rGraphAddEdgeAt, hu, hv], h⟩
      · obtain ⟨t', hrun, hok⟩ := addEdgeAt_ok h ha hb hroom (-1)
        exact ⟨t', by simp only [RGraph.step, rGraphAddEdge, hu, hv]; exact hrun, hok⟩
  | addEdgeAt u v nth =>
    rcases getElem?_mem_or (l := t.nodes) u with hu | ⟨a, ha, hu⟩
    · exact ⟨t, by simp only [RGraph.step, rGraphAddEdgeAt, hu], h⟩
    · rcases getElem?_mem_or (l := t.nodes) v with hv | ⟨b, hb, hv⟩
      · exact ⟨t, by simp only [RGraph.step, rGraphAddEdgeAt, hu, hv], h⟩
      · obtain ⟨t', hrun, hok⟩ := addEdgeAt_ok h ha hb hroom nth
        exact ⟨t', by simp only [RGraph.step, hu, hv]; exact hrun, hok⟩
  | delEdge u v =>
    rcases getElem?_mem_or (l := t.nodes) u with hu | ⟨a, ha, hu⟩
    · exact ⟨t, by simp only [RGraph.step, rGraphDelEdge, hu], h⟩
    · rcases getElem?_mem_or (l := t.nodes) v with hv | ⟨b, hb, hv⟩
      · exact ⟨t, by simp only [RGraph.step, rGraphDelEdge, hu, hv], h⟩
      · obtain ⟨t', hrun, hok⟩ := delEdge_ok h ha hb
        exact ⟨t', by simp only [RGraph.step, hu, hv]; exact hrun, hok⟩
  | delNode u =>
    rcases getElem?_mem_or (l := t.nodes) u with hu | ⟨a, ha, hu⟩
    · exact ⟨t, by simp only [RGraph.step, rGraphDelNode, hu], h⟩
    · obtain ⟨t', hrun, hok⟩ := delNode_ok h ha
      exact ⟨t', by simp only [RGraph.step, hu]; exact hrun, hok⟩

instance (t : RGraph) (op : GraphOp) : Decidable (t.HasRoom op) :=
  match op with
  | .addNode => inferInstanceAs (Decidable (_ < _))
  | .addEdge _ _ => inferInstanceAs (Decidable (_ < _))
  | .addEdgeAt _ _ _ => inferInstanceAs (Decidable (_ < _))
  | .delEdge _ _ => inferInstanceAs (Decidable True)
  | .delNode _ => inferInstanceAs (Decidable True)

/-- Every call of a history is made while the counters have room. -/
def RGraph.RunHasRoom (t : RGraph) : List GraphOp → Prop
  | [] => True
  | op :: ops => t.HasRoom op ∧ ∀ t' ∈ t.step op, t'.RunHasRoom ops

theorem RGraph.runHasRoom_cons {t t' : RGraph} {op : GraphOp} {ops : List GraphOp} (hroom : t.HasRoom op)
    (hstep : t.step op = some t') (hrest : t'.RunHasRoom ops) : t.RunHasRoom (op :: ops) := by
  refine ⟨hroom, fun t'' ht'' => ?_⟩
  rw [Option.mem_def, hstep] at ht''
  cases ht''
  exact hrest

theorem RGraph.Ok.run {t : RGraph} (h : t.Ok) (ops : List GraphOp) (hroom : t.RunHasRoom ops) :
    ∃ t', t.run ops = some t' ∧ t'.Ok := by
  induction ops generalizing t with
  | nil => exact ⟨t, rfl, h⟩
  | cons op ops ih =>
    obtain ⟨t1, hstep, hok⟩ := h.step hroom.1
    obtain ⟨t2, hrun, hok2⟩ := ih hok (hroom.2 t1 hstep)
    exact ⟨t2, by simp only [RGraph.run, hstep, Option.bind_eq_bind, Option.bind_some, hrun], hok2⟩

/-- After every history of calls made while the counters have room, the graph is right. -/
theorem graph_run_repOk (ops : List GraphOp) (hroom : rGraphNew.RunHasRoom ops) :
    ∃ t, rGraphNew.run ops = some t ∧ t.RepOk := by
  obtain ⟨t, hrun, hok⟩ := RGraph.Ok.new.run ops hroom
  exact ⟨t, hrun, hok.repOk⟩

/-- Parallel edges and a loop, then the node with the loop goes. -/
theorem graph_run_repOk_loop : ∃ t, rGraphNew.run
    [.addNode, .addNode, .addEdge 0 1, .addEdgeAt 0 1 0, .addEdge 0 0, .delEdge 0 1, .delNode 0] = some t ∧
    t.RepOk := by
  refine graph_run_repOk _ ?_
  apply RGraph.runHasRoom_cons (by decide) rfl
  apply RGraph.runHasRoom_cons (by decide) rfl
  apply RGraph.runHasRoom_cons (by decide) rfl
  apply RGraph.runHasRoom_cons (by decide) rfl
  apply RGraph.runHasRoom_cons (by decide) rfl
  apply RGraph.runHasRoom_cons (by decide) rfl
  exact RGraph.runHasRoom_cons (by decide) rfl trivial

theorem RGraph.run_append (t : RGraph) (xs ys : List GraphOp) :
    t.run (xs ++ ys) = (t.run xs).bind (fun t' => t'.run ys) := by
  induction xs generalizing t with
  | nil => rfl
  | cons op xs ih =>
    rw [List.cons_append, RGraph.run, RGraph.run]
    cases t.step op with
    | none => rfl
    | some t' => exact ih t'

/-- The graph without nodes that has given out `k` indices. -/
def drainedGraph (k : Nat) : RGraph := ⟨fun _ => none, k, [], 0, 0, k⟩

theorem drainedGraph_pair (k : Nat) (hk : k < 2147483647) :
    (drainedGraph k).run [.addNode, .delNode 0] = some (drainedGraph (k + 1)) := by
  have hlast : wrapInt ((k : Int) + 1) = ((k + 1 : Nat) : Int) := by
    rw [wrapInt_of_range (by omega) (by omega)]
    rfl
  simp [RGraph.run, RGraph.step, rGraphAddNode, rGraphDelNode, delNodeLoop, drainedGraph, hlast]

theorem drainedGraph_run (k : Nat) (hk : k ≤ 2147483647) :
    rGraphNew.run (List.replicate k [.addNode, .delNode 0]).flatten = some (drainedGraph k) := by
  induction k with
  | zero => rfl
  | succ k ih =>
    rw [List.replicate_succ', List.flatten_append, RGraph.run_append, ih (by omega), Option.bind_some,
      List.flatten_singleton]
    exact drainedGraph_pair k (by omega)

/-- `int last_index` runs over: one node, its index above `last_index`. -/
theorem graph_last_index_overflows : ∃ t, rGraphNew.run
    ((List.replicate 2147483647 [.addNode, .delNode 0]).flatten ++ [.addNode]) = some t ∧ ¬t.RepOk := by
  rw [RGraph.run_append, drainedGraph_run 2147483647 (by omega), Option.bind_some]
  refine ⟨rGraphAddNode (drainedGraph 2147483647), rfl, fun h => ?_⟩
  have hmem : 2147483647 ∈ (rGraphAddNode (drainedGraph 2147483647)).nodes := List.mem_singleton_self _
  have hlt := h.idxLt _ hmem
  have hlast : (rGraphAddNode (drainedGraph 2147483647)).lastIndex = -2147483648 := by decide
  omega

end Radare
