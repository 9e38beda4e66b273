import Radare.Core.Layering

namespace Radare

open Framework Framework.DepthFirst

variable {g : RAGraph} {n p : Nat}

/-- Only the layers changed. -/
structure RAGraph.SameButLayers (g g' : RAGraph) : Prop where
  graph : g'.graph = g.graph
  backEdges : g'.backEdges = g.backEdges
  dummies : ∀ n, g'.isDummy n = g.isDummy n

theorem RAGraph.SameButLayers.refl (g : RAGraph) : g.SameButLayers g := by
  constructor <;> simp

theorem RAGraph.SameButLayers.trans {g1 g2 g3 : RAGraph} (h : g1.SameButLayers g2) (h' : g2.SameButLayers g3) :
    g1.SameButLayers g3 := by
  refine ⟨h'.graph.trans h.graph, h'.backEdges.trans h.backEdges, fun n => ?_⟩
  rw [h'.dummies, h.dummies]

@[simp] theorem setLayer_layer_self (g : RAGraph) (n : Nat) (k : Int) : ((g.setLayer n k).data n).layer = k := by
  simp [RAGraph.setLayer]

theorem setLayer_data_other (g : RAGraph) (k : Int) (h : p ≠ n) : (g.setLayer n k).data p = g.data p := by
  simp [RAGraph.setLayer, h]

@[simp] theorem setLayer_same (g : RAGraph) (n : Nat) : g.setLayer n (g.data n).layer = g := by
  simp [RAGraph.setLayer]

@[simp] theorem setLayer_again (g : RAGraph) (n : Nat) (j k : Int) :
    (g.setLayer n j).setLayer n k = g.setLayer n k := by
  simp [RAGraph.setLayer]

theorem setLayer_sameBut (g : RAGraph) (n : Nat) (k : Int) : g.SameButLayers (g.setLayer n k) := by
  refine ⟨by simp [RAGraph.setLayer], by simp [RAGraph.setLayer], fun p => ?_⟩
  by_cases hp : p = n
  · simp [RAGraph.isDummy, RAGraph.setLayer, hp]
  · simp [RAGraph.isDummy, setLayer_data_other g k hp]

/-- The inner loop leaves the largest of the layer that was there and those after the parents. -/
theorem raiseLayer_spec (ps : List Nat) (g : RAGraph)
    (hps : ∀ p ∈ ps, p ≠ n ∧ 0 ≤ (g.data p).layer ∧ (g.data p).layer < 2147483647) :
    ∃ k, raiseLayer n ps g = g.setLayer n k ∧ (g.data n).layer ≤ k ∧
      (∀ p ∈ ps, (g.data p).layer < k) ∧
      (k = (g.data n).layer ∨ ∃ p ∈ ps, k = (g.data p).layer + 1) := by
  induction ps generalizing g with
  | nil => exact ⟨(g.data n).layer, by simp [raiseLayer], le_refl _, nofun, Or.inl (by simp)⟩
  | cons p ps ih =>
    obtain ⟨hne, hlow, hhigh⟩ := hps p List.mem_cons_self
    have hwrap : wrapInt ((g.data p).layer + 1) = (g.data p).layer + 1 :=
      wrapInt_of_range (by omega) (by omega)
    rw [raiseLayer, hwrap]
    by_cases hlt : (g.data p).layer + 1 > (g.data n).layer
    · rw [if_pos hlt]
      have hsame : ∀ q ∈ ps, (g.setLayer n ((g.data p).layer + 1)).data q = g.data q :=
        fun q hq => setLayer_data_other g _ (hps q (List.mem_cons_of_mem p hq)).1
      obtain ⟨k, hrun, hge, hall, hone⟩ := ih (g.setLayer n ((g.data p).layer + 1)) (by
        intro q hq
        rw [hsame q hq]
        exact hps q (List.mem_cons_of_mem p hq))
      rw [setLayer_again] at hrun
      rw [setLayer_layer_self] at hge hone
      refine ⟨k, hrun, by omega, ?_, ?_⟩
      · intro q hq
        rcases List.mem_cons.mp hq with hq | hq
        · rw [hq]
          omega
        · rw [← hsame q hq]
          exact hall q hq
      · rcases hone with hone | ⟨q, hq, hone⟩
        · exact Or.inr ⟨p, List.mem_cons_self, hone⟩
        · rw [hsame q hq] at hone
          exact Or.inr ⟨q, List.mem_cons_of_mem p hq, hone⟩
    · rw [if_neg hlt]
      obtain ⟨k, hrun, hge, hall, hone⟩ := ih g (fun q hq => hps q (List.mem_cons_of_mem p hq))
      refine ⟨k, hrun, hge, ?_, ?_⟩
      · intro q hq
        rcases List.mem_cons.mp hq with hq | hq
        · rw [hq]
          omega
        · exact hall q hq
      · rcases hone with hone | ⟨q, hq, hone⟩
        · exact Or.inl hone
        · exact Or.inr ⟨q, List.mem_cons_of_mem p hq, hone⟩

/-- The layer of a node is the length of the longest path that leads to it. -/
def RAGraph.Settled (g : RAGraph) (n : Nat) : Prop :=
  ∃ k : Nat, (g.data n).layer = k ∧ LongestTo g.graph.Edge n k

/-- One turn: a node whose predecessors are settled becomes so. -/
theorem settle_node (hshape : g.graph.Shape) (hn : n ∈ g.graph.nodes) (hloop : ¬g.graph.Edge n n)
    (hpred : ∀ p, g.graph.Edge p n → g.Settled p ∧ (g.data p).layer < 2147483647) :
    ∃ k, raiseLayer n (g.graph.inn n) (g.setLayer n 0) = g.setLayer n k ∧ (g.setLayer n k).Settled n := by
  have hother : ∀ p ∈ g.graph.inn n, p ≠ n ∧ g.graph.Edge p n := by
    intro p hp
    have hedge := (hshape.mem_inn hn).mp hp
    refine ⟨?_, hedge⟩
    intro he
    rw [he] at hedge
    exact hloop hedge
  obtain ⟨k, hrun, hge, hall, hone⟩ := raiseLayer_spec (n := n) (g.graph.inn n) (g.setLayer n 0) (by
    intro p hp
    obtain ⟨hne, hedge⟩ := hother p hp
    obtain ⟨⟨j, hj, -⟩, hlt⟩ := hpred p hedge
    rw [setLayer_data_other g 0 hne]
    exact ⟨hne, by omega, hlt⟩)
  rw [setLayer_again] at hrun
  rw [setLayer_layer_self] at hge hone
  refine ⟨k, hrun, k.toNat, ?_, ?_⟩
  · rw [setLayer_layer_self]
    omega
  · apply LongestTo.of_preds (fun p => (g.data p).layer.toNat)
    · intro p hp
      obtain ⟨⟨j, hj, hlong⟩, -⟩ := hpred p hp
      have hlt := hall p ((hshape.mem_inn hn).mpr hp)
      rw [setLayer_data_other g 0 (hother p ((hshape.mem_inn hn).mpr hp)).1] at hlt
      refine ⟨?_, by omega⟩
      rw [hj, Int.toNat_natCast]
      exact hlong
    · rcases hone with hone | ⟨p, hp, hone⟩
      · exact Or.inl (by omega)
      · rw [setLayer_data_other g 0 (hother p hp).1] at hone
        obtain ⟨⟨j, hj, -⟩, -⟩ := hpred p (hother p hp).2
        exact Or.inr ⟨p, (hother p hp).2, by omega⟩

/-- A settled layer is a rank at most. -/
theorem RAGraph.Settled.layer_le (h : g.Settled n) {height : Nat → Nat} (hclimb : g.graph.Climbs height) :
    (g.data n).layer ≤ height n := by
  obtain ⟨k, hk, hlong⟩ := h
  obtain ⟨a, ha⟩ := hlong.attained
  have hle := ha.climbs hclimb
  omega

theorem RAGraph.Settled.setLayer_other (h : g.Settled p) (hne : p ≠ n) (k : Int) : (g.setLayer n k).Settled p := by
  obtain ⟨j, hj, hlong⟩ := h
  refine ⟨j, ?_, hlong⟩
  rw [setLayer_data_other g k hne, hj]

/-- The loop over the nodes: what comes before is settled, and every edge leads forward in the list. -/
theorem layerNodes_spec (it before : List Nat) (g : RAGraph) (hshape : g.graph.Shape)
    (hmem : ∀ n ∈ it, n ∈ g.graph.nodes) (hnd : (before ++ it).Nodup)
    (hlen : (before ++ it).length < 2147483648)
    (hall : ∀ n ∈ g.graph.nodes, n ∈ before ++ it)
    (hclimb : g.graph.Climbs (fun n => (before ++ it).idxOf n)) (hdone : ∀ n ∈ before, g.Settled n) :
    ∃ g', layerNodes it g = some g' ∧ g.SameButLayers g' ∧ ∀ n ∈ before ++ it, g'.Settled n := by
  induction it generalizing before g with
  | nil =>
    rw [List.append_nil]
    exact ⟨g, by simp [layerNodes], .refl g, hdone⟩
  | cons n it ih =>
    have hn := hmem n List.mem_cons_self
    obtain ⟨x, hx⟩ := Option.isSome_iff_exists.mp (hshape.live n hn)
    have hnot : n ∉ before := by
      have hdis := (List.nodup_append.mp hnd).2.2
      exact fun hb => hdis n hb n List.mem_cons_self rfl
    have hidx : (before ++ n :: it).idxOf n = before.length := by
      rw [List.idxOf_append_of_notMem hnot]
      simp
    have hbefore : ∀ p, g.graph.Edge p n → p ∈ before := by
      intro p hp
      have hlt := hclimb p n hp
      by_contra hno
      simp only [hidx, List.idxOf_append_of_notMem hno] at hlt
      omega
    have hloop : ¬g.graph.Edge n n := fun he => hnot (hbefore n he)
    obtain ⟨k, hrun, hset⟩ := settle_node hshape hn hloop (by
      intro p hp
      have hpb := hbefore p hp
      refine ⟨hdone p hpb, ?_⟩
      have hle := (hdone p hpb).layer_le hclimb
      have hlt := List.idxOf_lt_length_of_mem hpb
      simp only [List.idxOf_append_of_mem hpb] at hle
      rw [List.length_append, List.length_cons] at hlen
      omega)
    have hsame := setLayer_sameBut g n k
    have hlist : before ++ n :: it = (before ++ [n]) ++ it := by simp
    rw [hlist] at hnd hlen hall hclimb ⊢
    obtain ⟨g', hrun', hsame', hdone'⟩ := ih (before ++ [n]) (g.setLayer n k) hshape
      (fun m hm => hmem m (List.mem_cons_of_mem n hm)) hnd hlen hall hclimb (by
        intro m hm
        by_cases hmn : m = n
        · rw [hmn]
          exact hset
        · have hmb : m ∈ before := by simpa [hmn] using hm
          exact (hdone m hmb).setLayer_other hmn k)
    refine ⟨g', ?_, hsame.trans hsame', hdone'⟩
    rw [RGraph.inn_eq hx] at hrun
    rw [layerNodes, hx, Option.bind_eq_bind, Option.bind_some, hrun]
    exact hrun'

theorem foldl_addSorted (log : List (Visit Nat RGraphEdge)) (l : List Nat) :
    log.foldl addSorted l = (finished log).reverse ++ l := by
  induction log generalizing l with
  | nil => simp [finished]
  | cons v log ih =>
    rw [List.foldl_cons, ih]
    cases v <;> simp [finished, addSorted, Visit.finished?, List.filterMap_cons]

/-- In a graph that climbs a search finds no back edge. -/
theorem DfsRight.no_cyclic {t : RGraph} {log : List (Visit Nat RGraphEdge)} (h : DfsRight t log)
    (hnd : t.nodes.Nodup) {height : Nat → Nat} (hclimb : t.Climbs height) :
    log.filterMap viewCyclicEdge = [] := by
  rw [List.eq_nil_iff_forall_not_mem]
  intro e he
  have hmem := (h.split hnd).mem_iff.mpr (List.mem_append_right _ he)
  have hedge := mem_occurrences_edge hmem
  have hanc := (h.back e hmem).mp (mem_cyclic.mp he)
  have hrise : ∀ b, Anc RGraphEdge.src RGraphEdge.dst log e.dst b → height e.dst ≤ height b := by
    intro b hb
    induction hb with
    | refl => exact le_refl _
    | tail _ hstep ih =>
      obtain ⟨x, hx, rfl, rfl⟩ := hstep
      have hxmem : x ∈ t.occurrences :=
        (h.split hnd).mem_iff.mpr (List.mem_append_left _ (mem_forward.mpr (Or.inl hx)))
      have hlt := hclimb _ _ (mem_occurrences_edge hxmem)
      omega
  have hle := hrise _ hanc
  have hlt := hclimb _ _ hedge
  omega

/-- The edges a search in such a graph passes on are all of them. -/
theorem DfsRight.forward_perm {t : RGraph} {log : List (Visit Nat RGraphEdge)} (h : DfsRight t log)
    (hnd : t.nodes.Nodup) {height : Nat → Nat} (hclimb : t.Climbs height) :
    t.occurrences.Perm (log.filterMap forwardEdge) := by
  have hsplit := h.split hnd
  rw [h.no_cyclic hnd hclimb, List.append_nil] at hsplit
  exact hsplit

/-- `assign_layers`, in a graph that climbs. -/
theorem assignLayers_spec (g : RAGraph) (hok : g.graph.Ok) (hfew : g.graph.arcs.length < 2147483648)
    {height : Nat → Nat} (hclimb : g.graph.Climbs height) :
    ∃ g', (∀ fuel, edgeTotal g.graph.nodes g.graph.out + g.graph.nodes.length + 2 ≤ fuel →
        assignLayers fuel g = some g') ∧ g.SameButLayers g' ∧
      ∀ n ∈ g.graph.nodes, g'.Settled n ∧ (g'.data n).layer < 2147483647 := by
  have hnd := hok.lists.nodup
  obtain ⟨log, hrun, hright⟩ := rGraphDfs_spec hok (by rw [← length_arcs]; exact hfew)
  have hfin : (finished log).Perm g.graph.nodes := by
    rw [List.perm_iff_count]
    intro n
    rw [← count_finish, hright.finish, hnd.count]
  have hmem : ∀ n, n ∈ (finished log).reverse ↔ n ∈ g.graph.nodes := by
    intro n
    rw [List.mem_reverse, hfin.mem_iff]
  have hrank : g.graph.Climbs (fun n => ([] ++ (finished log).reverse).idxOf n) := by
    intro a b hab
    rw [RGraph.Edge, ← occurrences_ends, List.mem_map] at hab
    obtain ⟨e, he, hends⟩ := hab
    cases hends
    exact hright.forward_rank hnd ((hright.forward_perm hnd hclimb).mem_iff.mp he)
  have hlen : ([] ++ (finished log).reverse).length < 2147483648 := by
    have hcount := hfin.length_eq
    have hlast := hok.few
    have hlt := hok.lastLt
    rw [List.nil_append, List.length_reverse]
    omega
  obtain ⟨g', hlayers, hsame, hdone⟩ := layerNodes_spec (finished log).reverse [] g hok.shape
    (fun n hn => (hmem n).mp hn) (by simpa using hfin.nodup_iff.mpr hnd)
    hlen (fun n hn => (hmem n).mpr hn) hrank (by simp)
  refine ⟨g', ?_, hsame, ?_⟩
  · intro fuel hfuel
    simp only [assignLayers, hrun fuel hfuel, Option.bind_eq_bind, Option.bind_some, foldl_addSorted,
      List.append_nil]
    exact hlayers
  · intro n hn
    have hset := hdone n ((hmem n).mpr hn)
    rw [← hsame.graph] at hrank
    have hle := hset.layer_le hrank
    have hlt := List.idxOf_lt_length_of_mem (hmem n |>.mpr hn)
    rw [List.nil_append] at hle hlen
    exact ⟨hset, by omega⟩

end Radare
