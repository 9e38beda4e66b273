import Radare.Core.LayeringOrder

namespace Radare

open Framework Framework.DepthFirst

/-- From `g` to `g'` a chain of dummies was put between two nodes, one layer after the other. -/
structure Bridged (g g' : RAGraph) (a : Nat) (ms : List Nat) (b : Nat) : Prop where
  shape : g'.graph.Shape
  nodes : g'.graph.nodes = g.graph.nodes ++ ms
  arcs : g'.graph.arcs.Perm (pathSteps a ms b ++ g.graph.arcs)
  old : ∀ n ∈ g.graph.nodes, g'.data n = g.data n
  dummies : ∀ m ∈ ms, g'.isDummy m = true
  spans : ∀ e ∈ pathSteps a ms b, (g'.data e.2).layer = (g'.data e.1).layer + 1
  backEdges : g'.backEdges = g.backEdges

section Chain

variable {g : RAGraph} {e : RGraphEdge} {u v prev : Nat}

/-- A node joins with its data, and an edge to it. -/
theorem RGraph.Shape.addDummy (h : g.graph.Shape) (hprev : prev ∈ g.graph.nodes) (x : RANode) (nth : Int) :
    ∃ t, rGraphAddEdgeAt (rGraphAddNode g.graph) (some prev) (some g.graph.fresh) nth = some t ∧ t.Shape ∧
      t.nodes = g.graph.nodes ++ [g.graph.fresh] ∧
      t.arcs.Perm ((prev, g.graph.fresh) :: g.graph.arcs) ∧
      ∀ n ∈ g.graph.nodes, Function.update g.data g.graph.fresh x n = g.data n := by
  obtain ⟨hshape, harcs⟩ := h.addNode
  have hnodes : (rGraphAddNode g.graph).nodes = g.graph.nodes ++ [g.graph.fresh] := by simp [rGraphAddNode]
  obtain ⟨t, hadd, ht, hsame, hperm⟩ := hshape.addEdgeAt (u := prev) (v := g.graph.fresh)
    (by simp [hnodes, hprev]) (by simp [hnodes]) nth
  rw [harcs] at hperm
  refine ⟨t, hadd, ht, hsame.nodes.trans hnodes, hperm, ?_⟩
  intro n hn
  have hlt := h.bound n hn
  exact Function.update_of_ne (by omega) _ _

/-- The last edge ends the chain; before it the loop makes one dummy for each turn. -/
theorem chainDummies_spec (turns i prev : Nat) (nth : Int) (g : RAGraph) (hshape : g.graph.Shape)
    (hprev : prev ∈ g.graph.nodes) (hu : u ∈ g.graph.nodes) (hv : v ∈ g.graph.nodes)
    (hlow : 0 ≤ (g.data u).layer) (hhigh : (g.data v).layer < 2147483648)
    (hlayer : (g.data prev).layer + 1 = (g.data u).layer + i)
    (hend : (g.data v).layer = (g.data u).layer + i + turns) :
    ∃ ms last g1 t, chainDummies e u turns i prev nth g = some (last, g1) ∧
      rGraphAddEdge g1.graph (some last) (some v) = some t ∧ ms.length = turns ∧
      Bridged g { g1 with graph := t } prev ms v := by
  induction turns generalizing g prev i nth with
  | zero =>
    obtain ⟨t, hadd, ht, hsame, hperm⟩ := hshape.addEdgeAt hprev hv (-1)
    refine ⟨[], prev, g, t, by simp [chainDummies], hadd, by simp, ht, by simp [hsame.nodes], ?_, by simp,
      by simp, ?_, by simp⟩
    · simpa [pathSteps_nil] using hperm
    · intro x hx
      simp only [pathSteps_nil, List.mem_singleton] at hx
      rw [hx]
      simp only
      omega
  | succ turns ih =>
    have hwrap : wrapInt ((g.data u).layer + i) = (g.data u).layer + i :=
      wrapInt_of_range (by omega) (by omega)
    have hnext : wrapInt ((i : Int) + 1) = ((i + 1 : Nat) : Int) := by
      rw [wrapInt_of_range (by omega) (by omega)]
      simp
    obtain ⟨t, hadd, ht, hnodes, hperm, hold⟩ := hshape.addDummy hprev
      ⟨(g.data u).layer + i, true, isReversed g e, 1⟩ nth
    generalize hg1 : ({ g with
      graph := t
      data := Function.update g.data g.graph.fresh ⟨(g.data u).layer + i, true, isReversed g e, 1⟩ } : RAGraph) =
      g1
    have hgraph : g1.graph = t := by rw [← hg1]
    have hold1 : ∀ n ∈ g.graph.nodes, g1.data n = g.data n := by
      rw [← hg1]
      exact hold
    have hnew : g1.data g.graph.fresh = ⟨(g.data u).layer + i, true, isReversed g e, 1⟩ := by
      rw [← hg1]
      simp
    rw [← hgraph] at ht hnodes hperm
    have hmem : ∀ {n}, n ∈ g.graph.nodes → n ∈ g1.graph.nodes := by
      intro n hn
      rw [hnodes]
      exact List.mem_append_left _ hn
    have hfresh : g.graph.fresh ∈ g1.graph.nodes := by simp [hnodes]
    obtain ⟨ms, last, g2, t2, hrun, hlast, hlen, hchain⟩ := ih (i + 1) g.graph.fresh (-1) g1 ht hfresh
      (hmem hu) (hmem hv) (by rw [hold1 u hu]; exact hlow) (by rw [hold1 v hv]; exact hhigh)
      (by rw [hold1 u hu, hnew]; push_cast; omega) (by rw [hold1 u hu, hold1 v hv]; push_cast at hend ⊢; omega)
    refine ⟨g.graph.fresh :: ms, last, g2, t2, ?_, hlast, by simp [hlen], hchain.shape, ?_, ?_, ?_, ?_, ?_, ?_⟩
    · have hne : u ≠ g.graph.fresh := by
        have := hshape.bound u hu
        omega
      have hrev : ∀ (y : Nat → RANode) (s : RGraph), isReversed { g with graph := s, data := y } e =
          isReversed g e := by
        intro y s
        simp [isReversed]
      rw [chainDummies]
      simp only [rAgraphAddNode, rAgraphAddEdgeAt, Function.update_of_ne hne, Function.update_idem, hwrap, hrev,
        hadd, hnext, Option.bind_eq_bind, Option.bind_some, hg1]
      exact hrun
    · rw [hchain.nodes, hnodes]
      simp
    · refine hchain.arcs.trans ((hperm.append_left _).trans ?_)
      rw [pathSteps_cons, List.cons_append]
      exact List.perm_middle
    · intro n hn
      rw [hchain.old n (hmem hn), hold1 n hn]
    · intro m hm
      rcases List.mem_cons.mp hm with hm | hm
      · rw [hm, RAGraph.isDummy, hchain.old _ hfresh, hnew]
      · exact hchain.dummies m hm
    · intro x hx
      rw [pathSteps_cons, List.mem_cons] at hx
      rcases hx with hx | hx
      · rw [hx]
        simp only
        rw [hchain.old _ hfresh, hchain.old _ (hmem hprev), hnew, hold1 prev hprev]
        simp only
        omega
      · exact hchain.spans x hx
    · rw [hchain.backEdges, ← hg1]

/-- A long edge, as `create_dummy_nodes` finds it. -/
structure RAGraph.LongEdge (g : RAGraph) (e : RGraphEdge) : Prop where
  form : e.from_ = some e.src ∧ e.to_ = some e.dst
  src : e.src ∈ g.graph.nodes
  dst : e.dst ∈ g.graph.nodes
  low : 0 ≤ (g.data e.src).layer
  high : (g.data e.dst).layer < 2147483648
  long : (g.data e.src).layer + 1 < (g.data e.dst).layer

/-- One long edge gives way to a chain. -/
theorem subdivideEdge_spec (hshape : g.graph.Shape) (hlong : g.LongEdge e) (hedge : g.graph.Edge e.src e.dst) :
    ∃ t ms g', g.graph.arcs.Perm (e.ends :: t.arcs) ∧ g.graph.SameNodes t ∧ subdivideEdge g e = some g' ∧
      Bridged { g with graph := t } g' e.src ms e.dst := by
  obtain ⟨hfrom, hto⟩ := hlong.form
  have hlow := hlong.low
  have hhigh := hlong.high
  have hfar := hlong.long
  obtain ⟨t, hdel, ht, hsame, hperm⟩ := hshape.delEdge hedge
  have hsrc : e.src ∈ t.nodes := by
    rw [hsame.nodes]
    exact hlong.src
  have hdst : e.dst ∈ t.nodes := by
    rw [hsame.nodes]
    exact hlong.dst
  have hdiff : rAbs (wrapInt ((g.data e.src).layer - (g.data e.dst).layer)) =
      (g.data e.dst).layer - (g.data e.src).layer := by
    rw [wrapInt_of_range (by omega) (by omega), rAbs, if_pos (by omega), wrapInt_of_range (by omega) (by omega)]
    omega
  obtain ⟨ms, last, g1, t1, hrun, hlast, -, hbridge⟩ := chainDummies_spec (e := e)
    ((g.data e.dst).layer - (g.data e.src).layer - 1).toNat 1 e.src e.nth { g with graph := t } ht hsrc hsrc hdst hlow
    hhigh (by simp) (by simp only [Nat.cast_one]; omega)
  refine ⟨t, ms, _, hperm, hsame, ?_, hbridge⟩
  simp only [subdivideEdge, hfrom, hto, rAgraphDelEdge, hdel, hdiff, Option.bind_eq_bind, Option.bind_some]
  rw [Nat.cast_one] at hrun
  rw [hrun, Option.bind_some, hlast, Option.bind_some]

end Chain

/-- The loop over the long edges: `it` waits, and each edge before it is a chain. -/
structure Subdividing (base : RAGraph) (long : List RGraphEdge) (short : List (Nat × Nat))
    (it : List RGraphEdge) (chains : List (Chain Nat)) (g : RAGraph) : Prop where
  shape : g.graph.Shape
  nodes : g.graph.nodes = base.graph.nodes ++ chains.flatMap Chain.mid
  arcs : g.graph.arcs.Perm (it.map RGraphEdge.ends ++ (short ++ chains.flatMap Chain.steps))
  old : ∀ n ∈ base.graph.nodes, g.data n = base.data n
  dummies : ∀ m ∈ chains.flatMap Chain.mid, g.isDummy m = true
  spans : ∀ e ∈ chains.flatMap Chain.steps, (g.data e.2).layer = (g.data e.1).layer + 1
  ends : chains.map Chain.ends ++ it.map RGraphEdge.ends = long.map RGraphEdge.ends
  backEdges : g.backEdges = base.backEdges

variable {base g : RAGraph} {long it : List RGraphEdge} {short : List (Nat × Nat)} {chains : List (Chain Nat)}
  {e : RGraphEdge}

/-- A turn of the loop. -/
theorem Subdividing.step (h : Subdividing base long short (e :: it) chains g) (hlong : base.LongEdge e) :
    ∃ c g', subdivideEdge g e = some g' ∧ Subdividing base long short it (chains ++ [c]) g' := by
  have hmem : ∀ {n}, n ∈ base.graph.nodes → n ∈ g.graph.nodes := by
    intro n hn
    rw [h.nodes]
    exact List.mem_append_left _ hn
  have hhere : g.LongEdge e := by
    refine ⟨hlong.form, hmem hlong.src, hmem hlong.dst, ?_, ?_, ?_⟩
    · rw [h.old _ hlong.src]
      exact hlong.low
    · rw [h.old _ hlong.dst]
      exact hlong.high
    · rw [h.old _ hlong.src, h.old _ hlong.dst]
      exact hlong.long
  have hedge : g.graph.Edge e.src e.dst := by
    rw [RGraph.Edge, h.arcs.mem_iff]
    simp [RGraphEdge.ends]
  obtain ⟨t, ms, g', hperm, hsame, hrun, hb⟩ := subdivideEdge_spec h.shape hhere hedge
  have hkeep : ∀ n ∈ g.graph.nodes, g'.data n = g.data n := by
    intro n hn
    apply hb.old n
    rw [hsame.nodes]
    exact hn
  refine ⟨⟨e.src, ms, e.dst⟩, g', hrun, hb.shape, ?_, ?_, ?_, ?_, ?_, ?_, hb.backEdges.trans h.backEdges⟩
  · rw [hb.nodes, hsame.nodes, h.nodes]
    simp
  · have hrest : t.arcs.Perm (it.map RGraphEdge.ends ++ (short ++ chains.flatMap Chain.steps)) :=
      (hperm.symm.trans h.arcs).cons_inv
    have hlast : it.map RGraphEdge.ends ++ (short ++ (chains ++ [Chain.mk e.src ms e.dst]).flatMap Chain.steps) =
        it.map RGraphEdge.ends ++ (short ++ chains.flatMap Chain.steps) ++ pathSteps e.src ms e.dst := by
      simp [Chain.steps]
    rw [hlast]
    exact (hb.arcs.trans (hrest.append_left _)).trans List.perm_append_comm
  · intro n hn
    rw [hkeep n (hmem hn), h.old n hn]
  · intro m hm
    rw [List.flatMap_append, List.flatMap_singleton, List.mem_append] at hm
    rcases hm with hm | hm
    · have hin : m ∈ g.graph.nodes := by
        rw [h.nodes]
        exact List.mem_append_right _ hm
      rw [RAGraph.isDummy, hkeep m hin]
      exact h.dummies m hm
    · exact hb.dummies m hm
  · intro x hx
    rw [List.flatMap_append, List.flatMap_singleton, List.mem_append] at hx
    rcases hx with hx | hx
    · have hin : g.graph.Edge x.1 x.2 := by
        rw [RGraph.Edge, h.arcs.mem_iff]
        exact List.mem_append_right _ (List.mem_append_right _ hx)
      obtain ⟨h1, h2⟩ := h.shape.ends_mem hin
      rw [hkeep _ h1, hkeep _ h2]
      exact h.spans x hx
    · exact hb.spans x hx
  · rw [← h.ends]
    simp [Chain.ends, RGraphEdge.ends]

/-- The whole loop. -/
theorem Subdividing.run (it : List RGraphEdge) (g : RAGraph) (chains : List (Chain Nat))
    (h : Subdividing base long short it chains g) (hlong : ∀ e ∈ it, base.LongEdge e) :
    ∃ chains' g', subdivideEdges it g = some g' ∧ Subdividing base long short [] chains' g' := by
  induction it generalizing g chains with
  | nil => exact ⟨chains, g, by simp [subdivideEdges], h⟩
  | cons e it ih =>
    obtain ⟨c, g1, hrun, h1⟩ := h.step (hlong e List.mem_cons_self)
    obtain ⟨chains', g', hrest, h'⟩ := ih g1 _ h1 (fun x hx => hlong x (List.mem_cons_of_mem e hx))
    exact ⟨chains', g', by simp only [subdivideEdges, hrun, Option.bind_eq_bind, Option.bind_some, hrest], h'⟩

/-- The list of the long edges stays as it is while they give way. -/
theorem chainDummies_longEdges {e : RGraphEdge} {u turns prev last : Nat} {i nth : Int} {g g' : RAGraph}
    (h : chainDummies e u turns i prev nth g = some (last, g')) : g'.longEdges = g.longEdges := by
  induction turns generalizing i prev nth g with
  | zero =>
    cases h
    rfl
  | succ turns ih =>
    simp only [chainDummies, rAgraphAddEdgeAt, Option.bind_eq_bind, Option.bind_eq_some_iff] at h
    obtain ⟨_, ⟨_, -, hsome⟩, hrest⟩ := h
    rw [ih hrest, ← Option.some.inj hsome]
    rfl

theorem subdivideEdges_longEdges {it : List RGraphEdge} {g g' : RAGraph} (h : subdivideEdges it g = some g') :
    g'.longEdges = g.longEdges := by
  induction it generalizing g with
  | nil =>
    cases h
    rfl
  | cons e it ih =>
    simp only [subdivideEdges, subdivideEdge, rAgraphDelEdge, Option.bind_eq_bind, Option.bind_eq_some_iff] at h
    obtain ⟨g₁, ⟨u, -, v, -, _, ⟨_, -, hdel⟩, ⟨last, g₂⟩, hchain, t, -, hsome⟩, hrest⟩ := h
    rw [ih hrest, ← Option.some.inj hsome]
    show g₂.longEdges = g.longEdges
    rw [chainDummies_longEdges hchain, ← Option.some.inj hdel]

end Radare
