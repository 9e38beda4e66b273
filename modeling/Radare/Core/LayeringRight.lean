import Mathlib.Algebra.Order.Ring.Nat
import Radare.Core.LayeringDummies

namespace Radare

open Framework Framework.DepthFirst

section Long

variable {g : RAGraph} {n : Nat} {log : List (Visit Nat RGraphEdge)} {e : RGraphEdge}

/-- Over more than one layer. -/
def RAGraph.far (g : RAGraph) (e : RGraphEdge) : Bool :=
  rAbs (wrapInt ((g.data e.src).layer - (g.data e.dst).layer)) > 1

theorem viewDummy_eq (g : RAGraph) (v : Visit Nat RGraphEdge)
    (hform : ∀ e, forwardEdge v = some e → e.from_ = some e.src ∧ e.to_ = some e.dst) :
    viewDummy g v = (forwardEdge v).filter g.far := by
  cases v with
  | tree e =>
    obtain ⟨hfrom, hto⟩ := hform e (by simp [forwardEdge])
    simp [viewDummy, forwardEdge, hfrom, hto, RAGraph.getAnode, RAGraph.far, Option.filter]
  | cross e =>
    obtain ⟨hfrom, hto⟩ := hform e (by simp [forwardEdge])
    simp [viewDummy, forwardEdge, hfrom, hto, RAGraph.getAnode, RAGraph.far, Option.filter]
  | _ => simp [viewDummy, forwardEdge]

/-- `view_dummy` keeps the edges that are far. -/
theorem viewDummy_filter (g : RAGraph) (log : List (Visit Nat RGraphEdge))
    (hform : ∀ e ∈ log.filterMap forwardEdge, e.from_ = some e.src ∧ e.to_ = some e.dst) :
    log.filterMap (viewDummy g) = (log.filterMap forwardEdge).filter g.far := by
  rw [List.filter_filterMap]
  apply List.filterMap_congr
  intro v hv
  apply viewDummy_eq
  intro e he
  exact hform e (List.mem_filterMap.mpr ⟨v, hv, he⟩)

/-- An edge leads to a higher layer. -/
theorem RAGraph.Settled.edge_lt (h : g.Settled n) {m : Nat} (hm : g.Settled m) (hedge : g.graph.Edge n m) :
    0 ≤ (g.data n).layer ∧ (g.data n).layer < (g.data m).layer := by
  obtain ⟨j, hj, hlong⟩ := h
  obtain ⟨k, hk, hlong'⟩ := hm
  obtain ⟨a, ha⟩ := hlong.attained
  have hle := hlong'.longest a (j + 1) (ha.snoc hedge)
  omega

end Long

variable {g : RAGraph} {height : Nat → Nat}

theorem far_iff {e : RGraphEdge} (hlow : 0 ≤ (g.data e.src).layer)
    (hlt : (g.data e.src).layer < (g.data e.dst).layer) (hhigh : (g.data e.dst).layer < 2147483648) :
    g.far e = true ↔ (g.data e.src).layer + 1 < (g.data e.dst).layer := by
  rw [RAGraph.far, wrapInt_of_range (by omega) (by omega), rAbs, if_pos (by omega),
    wrapInt_of_range (by omega) (by omega), decide_eq_true_eq]
  omega

/-- `create_dummy_nodes` on a graph with its layers: the short edges stay, the others become chains. -/
theorem createDummyNodes_spec (g : RAGraph) (hok : g.graph.Ok) (hfew : g.graph.arcs.length < 2147483648)
    (hclimb : g.graph.Climbs height)
    (hset : ∀ n ∈ g.graph.nodes, g.Settled n ∧ (g.data n).layer < 2147483647) :
    ∃ long short chains g',
      (∀ fuel, edgeTotal g.graph.nodes g.graph.out + g.graph.nodes.length + 2 ≤ fuel →
        createDummyNodes fuel g = some g') ∧
      g.graph.arcs.Perm (long.map RGraphEdge.ends ++ short) ∧
      (∀ e ∈ short, (g.data e.2).layer = (g.data e.1).layer + 1) ∧
      Subdividing g long short [] chains g' ∧ g'.longEdges = long ∧ ∀ e ∈ long, g.LongEdge e := by
  have hnd := hok.lists.nodup
  obtain ⟨log, hrun, hright⟩ := rGraphDfs_spec hok (by rw [← length_arcs]; exact hfew)
  have hall := hright.forward_perm hnd hclimb
  have hocc : ∀ e ∈ log.filterMap forwardEdge, e ∈ g.graph.occurrences := fun e he => hall.mem_iff.mpr he
  have hlayers : ∀ e ∈ log.filterMap forwardEdge, 0 ≤ (g.data e.src).layer ∧
      (g.data e.src).layer < (g.data e.dst).layer ∧ (g.data e.dst).layer < 2147483648 := by
    intro e he
    have hedge := mem_occurrences_edge (hocc e he)
    obtain ⟨hsrc, hdst⟩ := hok.shape.ends_mem hedge
    obtain ⟨hlow, hlt⟩ := (hset _ hsrc).1.edge_lt (hset _ hdst).1 hedge
    exact ⟨hlow, hlt, Int.lt_trans (hset _ hdst).2 (by decide)⟩
  have hlong := viewDummy_filter g log (fun e he => mem_occurrences_form (hocc e he))
  generalize hL : (log.filterMap forwardEdge).filter g.far = long at hlong
  generalize hS : ((log.filterMap forwardEdge).filter (fun e => !g.far e)).map RGraphEdge.ends = short
  have hsplit : g.graph.arcs.Perm (long.map RGraphEdge.ends ++ short) := by
    rw [← occurrences_ends, ← hL, ← hS, ← List.map_append]
    exact (hall.trans (List.filter_append_perm _ _).symm).map _
  have hlongEdge : ∀ e ∈ long, RAGraph.LongEdge { g with longEdges := long } e := by
    intro e he
    rw [← hL, List.mem_filter] at he
    obtain ⟨hlow, hlt, hhigh⟩ := hlayers e he.1
    obtain ⟨hsrc, hdst⟩ := hok.shape.ends_mem (mem_occurrences_edge (hocc e he.1))
    exact ⟨mem_occurrences_form (hocc e he.1), hsrc, hdst, hlow, hhigh, (far_iff hlow hlt hhigh).mp he.2⟩
  have hstart : Subdividing { g with longEdges := long } long short long [] { g with longEdges := long } :=
    ⟨hok.shape, by simp, by simpa using hsplit, by simp, by simp, by simp, by simp, by simp⟩
  obtain ⟨chains, g', hloop, hdone⟩ := hstart.run long _ [] hlongEdge
  refine ⟨long, short, chains, g', ?_, hsplit, ?_, ⟨hdone.shape, hdone.nodes, hdone.arcs, hdone.old, hdone.dummies,
    hdone.spans, hdone.ends, hdone.backEdges⟩, subdivideEdges_longEdges hloop, fun e he => ?_⟩
  · intro fuel hfuel
    simp only [createDummyNodes, hrun fuel hfuel, Option.bind_eq_bind, Option.bind_some, hlong]
    exact hloop
  · intro x hx
    rw [← hS, List.mem_map] at hx
    obtain ⟨e, he, rfl⟩ := hx
    rw [List.mem_filter] at he
    obtain ⟨hlow, hlt, hhigh⟩ := hlayers e he.1
    have hnot := (far_iff hlow hlt hhigh).not.mp (by simpa using he.2)
    simp only [RGraphEdge.ends]
    omega
  · obtain ⟨hform, hsrc, hdst, hlow, hhigh, hfar⟩ := hlongEdge e he
    exact ⟨hform, hsrc, hdst, hlow, hhigh, hfar⟩

section Final

variable {base done : RAGraph} {long : List RGraphEdge} {short : List (Nat × Nat)} {chains : List (Chain Nat)}

/-- The chains stand between old nodes, through nodes of their own. -/
theorem Subdividing.subdivided (h : Subdividing base long short [] chains done) (hbase : base.graph.Shape)
    (hsplit : base.graph.arcs.Perm (long.map RGraphEdge.ends ++ short)) :
    Subdivided base.graph.nodes short chains done.graph.arcs := by
  have hnd := h.shape.lists.nodup
  rw [h.nodes, List.nodup_append] at hnd
  obtain ⟨-, hmids, happart⟩ := hnd
  refine ⟨by simpa using h.arcs, ?_, ?_, hmids, ?_⟩
  · intro e he
    apply hbase.ends_mem
    rw [RGraph.Edge, hsplit.mem_iff]
    exact List.mem_append_right _ he
  · intro c hc
    have hends : c.ends ∈ long.map RGraphEdge.ends := by
      rw [← h.ends]
      simp only [List.map_nil, List.append_nil]
      exact List.mem_map_of_mem hc
    apply hbase.ends_mem
    rw [RGraph.Edge, hsplit.mem_iff]
    exact List.mem_append_left _ hends
  · intro m hm hold
    exact happart m hold m hm rfl

/-- Every edge of the finished graph spans one layer. -/
theorem Subdividing.edge_spans (h : Subdividing base long short [] chains done)
    (hsub : Subdivided base.graph.nodes short chains done.graph.arcs)
    (hshort : ∀ e ∈ short, (base.data e.2).layer = (base.data e.1).layer + 1) {a b : Nat}
    (hab : done.graph.Edge a b) : (done.data b).layer = (done.data a).layer + 1 := by
  rw [RGraph.Edge, hsub.edges.mem_iff, List.mem_append] at hab
  rcases hab with hab | hab
  · obtain ⟨ha, hb⟩ := hsub.shortOld _ hab
    rw [h.old _ ha, h.old _ hb]
    exact hshort _ hab
  · exact h.spans _ hab

/-- Every node keeps a layer between the lowest and the highest of the old ones. -/
theorem Subdividing.layer_fits (h : Subdividing base long short [] chains done)
    (hsub : Subdivided base.graph.nodes short chains done.graph.arcs)
    (hold : ∀ n ∈ base.graph.nodes, 0 ≤ (base.data n).layer ∧ (base.data n).layer < 2147483647) {n : Nat}
    (hn : n ∈ done.graph.nodes) : 0 ≤ (done.data n).layer ∧ (done.data n).layer < 2147483647 := by
  have hold' : ∀ m ∈ base.graph.nodes, 0 ≤ (done.data m).layer ∧ (done.data m).layer < 2147483647 := fun m hm => by
    rw [h.old m hm]
    exact hold m hm
  rw [h.nodes, List.mem_append] at hn
  rcases hn with hn | hn
  · exact hold' n hn
  · obtain ⟨c, hc, hmid⟩ := List.mem_flatMap.mp hn
    have hrise : ∀ e ∈ pathSteps c.from_ c.mid c.to_, (done.data e.1).layer < (done.data e.2).layer := fun e he => by
      have hspan := h.spans e (List.mem_flatMap.mpr ⟨c, hc, he⟩)
      omega
    obtain ⟨hlow, hhigh⟩ := (pathSteps_between (f := fun n => (done.data n).layer) hrise).2 n hmid
    obtain ⟨hfrom, hto⟩ := hsub.chainOld c hc
    exact ⟨Int.le_trans (hold' _ hfrom).1 (Int.le_of_lt hlow), Int.lt_trans hhigh (hold' _ hto).2⟩

variable (h : Subdividing base long short [] chains done)
  (hsub : Subdivided base.graph.nodes short chains done.graph.arcs)
  (hplain : ∀ n ∈ base.graph.nodes, base.isDummy n = false)
include h hplain

theorem Subdividing.old_plain {n : Nat} (hn : n ∈ base.graph.nodes) : done.isDummy n = false := by
  rw [RAGraph.isDummy, h.old n hn]
  exact hplain n hn

/-- The dummies are the nodes inside the chains. -/
theorem Subdividing.mem_mid {n : Nat} (hn : n ∈ done.graph.nodes) (hd : done.isDummy n = true) :
    n ∈ chains.flatMap Chain.mid := by
  rw [h.nodes, List.mem_append] at hn
  rcases hn with hn | hn
  · rw [h.old_plain hplain hn] at hd
    cases hd
  · exact hn

theorem Subdividing.old_nodes : done.graph.nodes.filter (fun n => !done.isDummy n) = base.graph.nodes := by
  have hold : base.graph.nodes.filter (fun n => !done.isDummy n) = base.graph.nodes := by
    rw [List.filter_eq_self]
    intro n hn
    simp [h.old_plain hplain hn]
  have hmid : (chains.flatMap Chain.mid).filter (fun n => !done.isDummy n) = [] := by
    rw [List.filter_eq_nil_iff]
    intro n hn
    simp [h.dummies n hn]
  rw [h.nodes, List.filter_append, hold, hmid, List.append_nil]

include hsub

theorem Subdividing.degrees {n : Nat} (hn : n ∈ done.graph.nodes) (hd : done.isDummy n = true) :
    (done.graph.inn n).length = 1 ∧ (done.graph.out n).length = 1 := by
  have hm := h.mem_mid hplain hn hd
  rw [h.shape.lists.length_inn hn, length_out h.shape.lists.nodup hn]
  exact ⟨hsub.one_in hm, hsub.one_out hm⟩

omit hplain in
theorem Subdividing.old_degrees (hsplit : base.graph.arcs.Perm (long.map RGraphEdge.ends ++ short)) {n : Nat}
    (hn : n ∈ base.graph.nodes) :
    (done.graph.inn n).length = (base.graph.arcs.map Prod.snd).count n ∧
      (done.graph.out n).length = (base.graph.arcs.map Prod.fst).count n := by
  have hmem : n ∈ done.graph.nodes := by
    rw [h.nodes]
    exact List.mem_append_left _ hn
  have hends : chains.map Chain.ends = long.map RGraphEdge.ends := by simpa using h.ends
  have hperm : (short ++ chains.map Chain.ends).Perm base.graph.arcs := by
    rw [hends]
    exact List.perm_append_comm.trans hsplit.symm
  have hin := hsub.old_in hn
  have hout := hsub.old_out hn
  rw [(hperm.map _).count_eq] at hin hout
  exact ⟨(h.shape.lists.length_inn hmem).trans hin, (length_out h.shape.lists.nodup hmem).trans hout⟩

/-- The edges of two nodes cross at most as often as half of all edges cross the other half. -/
theorem Subdividing.degreesFit (hsplit : base.graph.arcs.Perm (long.map RGraphEdge.ends ++ short))
    (hfew : base.graph.arcs.length ≤ 92681) : done.DegreesFit := by
  -- Two degrees are those of two old nodes, or one of them is 1.
  have hproduct : ∀ (l : List Nat) (d : Nat → Nat), l.length ≤ 92681 →
      (∀ n ∈ done.graph.nodes, d n = 1 ∨ d n = l.count n) →
      ∀ x ∈ done.graph.nodes, ∀ y ∈ done.graph.nodes, x ≠ y → d x * d y ≤ 2147483647 := by
    intro l d hl hd x hx y hy hne
    have hboth := count_add_count_le hne l
    have hsquare := four_mul_le_sq_add (l.count x) (l.count y)
    have hbound : (l.count x + l.count y) ^ 2 ≤ 92681 ^ 2 := Nat.pow_le_pow_left (hboth.trans hl) 2
    rcases hd x hx with hx | hx
    · rcases hd y hy with hy | hy <;> rw [hx, hy] <;> omega
    · rcases hd y hy with hy | hy <;> rw [hx, hy]
      · omega
      · rw [Nat.mul_assoc] at hsquare
        omega
  have hdegrees : ∀ n ∈ done.graph.nodes,
      ((done.graph.inn n).length = 1 ∨ (done.graph.inn n).length = (base.graph.arcs.map Prod.snd).count n) ∧
        ((done.graph.out n).length = 1 ∨
          (done.graph.out n).length = (base.graph.arcs.map Prod.fst).count n) := by
    intro n hn
    rw [h.nodes, List.mem_append] at hn
    rcases hn with hold | hmid
    · obtain ⟨hin, hout⟩ := h.old_degrees hsub hsplit hold
      exact ⟨.inr hin, .inr hout⟩
    · have hmem : n ∈ done.graph.nodes := by
        rw [h.nodes]
        exact List.mem_append_right _ hmid
      obtain ⟨hin, hout⟩ := h.degrees hsub hplain hmem (h.dummies n hmid)
      exact ⟨.inl hin, .inl hout⟩
  intro x hx y hy hne _
  exact ⟨hproduct _ (fun n => (done.graph.inn n).length) (by simpa using hfew) (fun n hn => (hdegrees n hn).1)
      x hx y hy hne,
    hproduct _ (fun n => (done.graph.out n).length) (by simpa using hfew) (fun n hn => (hdegrees n hn).2)
      x hx y hy hne⟩

omit hplain in
theorem Subdividing.mid_ne_nil (hends : ∀ e ∈ long, base.LongEdge e) : ∀ c ∈ chains, c.mid ≠ [] := by
  intro c hc hmid
  have hmem : c.ends ∈ long.map RGraphEdge.ends := by
    rw [← h.ends, List.map_nil, List.append_nil]
    exact List.mem_map.mpr ⟨c, hc, rfl⟩
  obtain ⟨e, he, hce⟩ := List.mem_map.mp hmem
  have hstep : (c.from_, c.to_) ∈ chains.flatMap Chain.steps :=
    List.mem_flatMap.mpr ⟨c, hc, by simp [Chain.steps, hmid, pathSteps_nil]⟩
  have hspan := h.spans _ hstep
  obtain ⟨hfrom, hto⟩ : e.src = c.from_ ∧ e.dst = c.to_ := Prod.mk.inj hce
  obtain ⟨hold, hold'⟩ := hsub.chainOld c hc
  have hlong := (hends e he).long
  rw [hfrom, hto] at hlong
  rw [h.old _ hold, h.old _ hold'] at hspan
  omega

theorem Subdividing.contracted : done.contracted.Perm (short ++ long.map RGraphEdge.ends) := by
  have hends : chains.map Chain.ends = long.map RGraphEdge.ends := by simpa using h.ends
  rw [← hends]
  apply hsub.contract (fun n hn => h.old_plain hplain hn) h.dummies
  · intro m x hmx hd
    obtain ⟨hm, hx⟩ := mem_arcs.mp hmx
    obtain ⟨y, hy⟩ := List.length_eq_one_iff.mp (h.degrees hsub hplain hm hd).2
    rw [hy, List.mem_singleton] at hx
    rw [hy, hx]
  · intro c hc
    have hle := (List.sublist_flatten_of_mem (List.mem_map_of_mem (f := Chain.mid) hc)).length_le
    rw [h.nodes, List.length_append]
    rw [← List.flatMap_def] at hle
    omega

end Final

/-- The three steps, on a graph whose counters have room and that has no loop. -/
theorem levelled_of_ok (g : RAGraph) (hok : g.graph.Ok) (hfew : g.graph.arcs.length < 2147483648)
    (hplain : ∀ n ∈ g.graph.nodes, g.isDummy n = false) (hloop : ∀ n, ¬g.graph.Edge n n) :
    ∃ g1 g2 g3, (∀ fuel, edgeTotal g.graph.nodes g.graph.out + g.graph.nodes.length + 2 ≤ fuel →
        removeCycles fuel g = some g1 ∧ assignLayers fuel g1 = some g2 ∧ createDummyNodes fuel g2 = some g3) ∧
      Layered g g2 g3 ∧ g3.Levelled ∧ (g.graph.arcs.length ≤ 92681 → g3.DegreesFit) ∧
      ∃ chains, LayerChains g g3 chains := by
  obtain ⟨t, back, forward, height, hrun1, hok1, hsame, hsplit, harcs, hclimb⟩ :=
    removeCycles_spec g hok hfew hloop
  have hlen : t.arcs.length = g.graph.arcs.length := by
    rw [harcs.length_eq, ← occurrences_ends, List.length_map, hsplit.length_eq]
    simp
  have htotal : edgeTotal t.nodes t.out = edgeTotal g.graph.nodes g.graph.out := by
    rw [← length_arcs, ← length_arcs]
    exact hlen
  obtain ⟨g2, hrun2, hsame2, hset⟩ := assignLayers_spec { g with graph := t, backEdges := back } hok1
    (by rw [hlen]; exact hfew) hclimb
  have hgraph : g2.graph = t := hsame2.graph
  obtain ⟨long, short, chains, g3, hrun3, hlongs, hshort, hdone, hlongEdges, hfar⟩ := createDummyNodes_spec g2
    (by rw [hgraph]; exact hok1) (by rw [hgraph, hlen]; exact hfew) (by rw [hgraph]; exact hclimb)
    (by rw [hgraph]; exact hset)
  have hnodes : g2.graph.nodes = g.graph.nodes := by rw [hgraph, hsame.nodes]
  have hplain2 : ∀ n ∈ g2.graph.nodes, g2.isDummy n = false := by
    intro n hn
    rw [hsame2.dummies]
    rw [hnodes] at hn
    exact hplain n hn
  have hsub := hdone.subdivided (by rw [hgraph]; exact hok1.shape) hlongs
  have hspans : ∀ a b, g3.graph.Edge a b → (g3.data b).layer = (g3.data a).layer + 1 :=
    fun a b hab => hdone.edge_spans hsub hshort hab
  have hfits : ∀ n ∈ g2.graph.nodes, 0 ≤ (g2.data n).layer ∧ (g2.data n).layer < 2147483647 := by
    intro n hn
    rw [hgraph] at hn
    obtain ⟨⟨k, hk, -⟩, hlt⟩ := hset n hn
    exact ⟨by omega, hlt⟩
  refine ⟨{ g with graph := t, backEdges := back }, g2, g3, ?_, ⟨?_, ?_, hspans, ?_, ?_, ?_, forward, ?_, ?_⟩,
    ⟨hdone.shape, fun n hn => hdone.layer_fits hsub hfits hn, hspans⟩, ?_, chains, hdone.nodes.trans ?_,
    fun n hn => ⟨hdone.mem_mid hplain2 hn, hdone.dummies n⟩, hdone.mid_ne_nil hsub hfar, ?_, ?_, ?_, short,
    forward.map RGraphEdge.ends, ?_, ?_, ?_⟩
  · intro fuel hfuel
    refine ⟨hrun1 fuel hfuel, hrun2 fuel ?_, hrun3 fuel ?_⟩
    · simp only
      rw [htotal, hsame.nodes]
      exact hfuel
    · rw [hgraph, htotal, hsame.nodes]
      exact hfuel
  · intro n hn
    rw [hgraph] at hn
    exact (hset n hn).1
  · apply acyclic_of_height (α := Int)
    intro a b hab
    have hone := hspans a b hab
    show (fun n => (g3.data n).layer) a < (fun n => (g3.data n).layer) b
    simp only
    omega
  · exact fun n hn hd => hdone.degrees hsub hplain2 hn hd
  · rw [hdone.old_nodes hplain2, hnodes]
  · intro n hn
    rw [← hnodes] at hn
    rw [hdone.old n hn]
  · rw [hdone.backEdges, hsame2.backEdges]
    exact hsplit
  · rw [hdone.backEdges, hsame2.backEdges]
    have hcon := hdone.contracted hsub hplain2
    refine hcon.trans (List.perm_append_comm.trans (hlongs.symm.trans ?_))
    rw [hgraph]
    exact harcs
  · intro hsmall
    have hbase : g2.graph.arcs.length ≤ 92681 := by
      rw [hgraph, hlen]
      exact hsmall
    exact hdone.degreesFit hsub hplain2 hlongs hbase
  · rw [hnodes]
  · intro c hc
    rw [← hnodes]
    exact hsub.chainOld c hc
  · intro e he
    rw [hlongEdges, hdone.backEdges, hsame2.backEdges] at he
    rcases List.mem_append.mp he with he | he
    · exact (hfar e he).form
    · exact mem_occurrences_form (hsplit.mem_iff.mpr (List.mem_append_right _ he))
  · rw [hlongEdges]
    simpa using hdone.ends
  · simpa using hdone.arcs
  · rw [hlongEdges, hdone.backEdges, hsame2.backEdges]
    apply hlongs.symm.trans
    rw [hgraph]
    exact harcs
  · rw [hdone.backEdges, hsame2.backEdges, ← occurrences_ends, ← List.map_append]
    exact hsplit.map _

theorem layered_of_ok (g : RAGraph) (hok : g.graph.Ok) (hfew : g.graph.arcs.length < 2147483648)
    (hplain : ∀ n ∈ g.graph.nodes, g.isDummy n = false) (hloop : ∀ n, ¬g.graph.Edge n n) :
    ∃ g1 g2 g3, (∀ fuel, edgeTotal g.graph.nodes g.graph.out + g.graph.nodes.length + 2 ≤ fuel →
        removeCycles fuel g = some g1 ∧ assignLayers fuel g1 = some g2 ∧ createDummyNodes fuel g2 = some g3) ∧
      Layered g g2 g3 := by
  obtain ⟨g1, g2, g3, hruns, hlayered, -⟩ := levelled_of_ok g hok hfew hplain hloop
  exact ⟨g1, g2, g3, hruns, hlayered⟩

/-- A history builds the graph that its calls build, and no dummies. -/
theorem RAGraph.run_eq (ops : List GraphOp) (t : RGraph) :
    RAGraph.run ⟨t, fun _ => newAnode, [], []⟩ ops = (t.run ops).map (fun t' => ⟨t', fun _ => newAnode, [], []⟩) := by
  induction ops generalizing t with
  | nil => simp [RAGraph.run, RGraph.run]
  | cons op ops ih =>
    have hstep : RAGraph.step ⟨t, fun _ => newAnode, [], []⟩ op =
        (t.step op).map (fun t' => ⟨t', fun _ => newAnode, [], []⟩) := by
      cases op with
      | addNode =>
        simp [RAGraph.step, RGraph.step, rAgraphAddNode]
      | _ => simp [RAGraph.step, Option.map_eq_bind]
    rw [RAGraph.run, RGraph.run, hstep]
    cases t.step op with
    | none => simp
    | some t' => simpa using ih t'

theorem rAgraphNew_run {ops : List GraphOp} {t : RGraph} (h : rGraphNew.run ops = some t) :
    rAgraphNew.run ops = some ⟨t, fun _ => newAnode, [], []⟩ := by
  rw [rAgraphNew, RAGraph.run_eq, h, Option.map_some]

/-- A graph without loops, of less than `2^31` edges, that calls built while its counters had room, is
put into layers, whatever layers and lists a layout before left in it. -/
theorem graph_layered (ops : List GraphOp) (hroom : rGraphNew.RunHasRoom ops) :
    ∃ built, rAgraphNew.run ops = some built ∧
      (built.graph.arcs.length < 2147483648 → (∀ n, ¬built.graph.Edge n n) →
        ∀ g : RAGraph, g.graph = built.graph → (∀ n, g.isDummy n = built.isDummy n) →
          ∃ g1 g2 g3, (∀ fuel, edgeTotal g.graph.nodes g.graph.out + g.graph.nodes.length + 2 ≤ fuel →
            removeCycles fuel g = some g1 ∧ assignLayers fuel g1 = some g2 ∧ createDummyNodes fuel g2 = some g3) ∧
          Layered g g2 g3) := by
  obtain ⟨t, hrun, hok⟩ := RGraph.Ok.new.run ops hroom
  refine ⟨_, rAgraphNew_run hrun, ?_⟩
  intro hfew hloop g hgraph hdummy
  have hgraph' : g.graph = t := hgraph
  apply layered_of_ok
  · rw [hgraph']
    exact hok
  · rw [hgraph']
    exact hfew
  · intro n _
    rw [hdummy]
    simp [RAGraph.isDummy, newAnode]
  · rw [hgraph']
    exact hloop

/-- Two cycles, parallel edges among them, and a long edge. -/
theorem graph_layered_cycles : ∃ built, rAgraphNew.run
      [.addNode, .addNode, .addNode, .addEdge 0 1, .addEdge 1 2, .addEdge 0 2, .addEdge 2 0, .addEdge 2 0] =
        some built ∧
    ∃ g1 g2 g3, (∀ fuel, 10 ≤ fuel → removeCycles fuel built = some g1 ∧ assignLayers fuel g1 = some g2 ∧
      createDummyNodes fuel g2 = some g3) ∧ Layered built g2 g3 := by
  obtain ⟨built, hrun, hlayered⟩ := graph_layered
    [.addNode, .addNode, .addNode, .addEdge 0 1, .addEdge 1 2, .addEdge 0 2, .addEdge 2 0, .addEdge 2 0] (by
      apply RGraph.runHasRoom_cons (by decide) rfl
      apply RGraph.runHasRoom_cons (by decide) rfl
      apply RGraph.runHasRoom_cons (by decide) rfl
      apply RGraph.runHasRoom_cons (by decide) rfl
      apply RGraph.runHasRoom_cons (by decide) rfl
      apply RGraph.runHasRoom_cons (by decide) rfl
      apply RGraph.runHasRoom_cons (by decide) rfl
      exact RGraph.runHasRoom_cons (by decide) rfl trivial)
  have harcs : built.graph.arcs = [(0, 1), (0, 2), (1, 2), (2, 0), (2, 0)] := by
    cases hrun
    decide
  have hsize : edgeTotal built.graph.nodes built.graph.out + built.graph.nodes.length + 2 = 10 := by
    cases hrun
    decide
  obtain ⟨g1, g2, g3, hsteps, hright⟩ := hlayered (by simp [harcs]) (by
    intro n hn
    rw [RGraph.Edge, harcs] at hn
    simp at hn
    omega) built rfl (fun _ => rfl)
  rw [hsize] at hsteps
  exact ⟨built, hrun, g1, g2, g3, hsteps, hright⟩

/-- After `int last_index` ran over no node is visited, and an edge stays within the layer -1. -/
theorem graph_layers_missing : ∃ g, rAgraphNew.run
      ((List.replicate 2147483647 [.addNode, .delNode 0]).flatten ++ [.addNode, .addNode, .addEdge 0 1]) =
        some g ∧ (∀ n, ¬g.graph.Edge n n) ∧
    ∀ fuel, ∃ g1 g2 g3, removeCycles fuel g = some g1 ∧ assignLayers fuel g1 = some g2 ∧
      createDummyNodes fuel g2 = some g3 ∧ ¬Layered g g2 g3 := by
  obtain ⟨t, ht⟩ : ∃ t, (drainedGraph 2147483647).run [.addNode, .addNode, .addEdge 0 1] = some t := ⟨_, rfl⟩
  have hrun : rGraphNew.run
      ((List.replicate 2147483647 [.addNode, .delNode 0]).flatten ++ [.addNode, .addNode, .addEdge 0 1]) =
        some t := by
    rw [RGraph.run_append, drainedGraph_run 2147483647 (by omega), Option.bind_some, ht]
  have harcs : t.arcs = [(2147483647, 2147483648)] := by
    cases ht
    decide
  have hlast : t.lastIndex < 0 := by
    cases ht
    decide
  refine ⟨_, rAgraphNew_run hrun, ?_, ?_⟩
  · intro n hn
    have hn' : (n, n) ∈ t.arcs := hn
    rw [harcs] at hn'
    simp at hn'
    omega
  · intro fuel
    have hdfs : rGraphDfs fuel t = some [] := by rw [rGraphDfs, if_pos hlast]
    refine ⟨⟨t, fun _ => newAnode, [], []⟩, ⟨t, fun _ => newAnode, [], []⟩, ⟨t, fun _ => newAnode, [], []⟩,
      ?_, ?_, ?_, ?_⟩
    · simp [removeCycles, hdfs, reverseEdges]
    · simp [assignLayers, hdfs, layerNodes]
    · simp [createDummyNodes, hdfs, subdivideEdges]
    · intro h
      have hspan := h.spans 2147483647 2147483648 (by
        show (2147483647, 2147483648) ∈ t.arcs
        simp [harcs])
      simp [newAnode] at hspan

end Radare
