import Radare.Core.CrossingRun

namespace Radare

open Framework

/-- `AEdge`: the nodes at its ends and the points it goes by. -/
structure AEdge where
  from_ : Option Nat
  to_ : Option Nat
  x : List Int
  y : List Int
  isReversed : Bool

/-- `RAGraph` once its nodes are placed: `x` and `y` of each, and the `height` of each layer. -/
structure RPlaced extends RLayers where
  x : Nat → Int
  y : Nat → Int
  height : Nat → Int
  longEdges : List RGraphEdge
  backEdges : List RGraphEdge
  edges : List AEdge

def restoreLongEdges : List RGraphEdge → RGraph → Option RGraph
  | [], t => some t
  | e :: it, t => do
    let t ← rGraphAddEdgeAt t e.from_ e.to_ e.nth
    restoreLongEdges it t

def restoreBackEdges : List RGraphEdge → RGraph → Option RGraph
  | [], t => some t
  | e :: it, t => do
    let t ← rGraphDelEdge t e.to_ e.from_
    let t ← rGraphAddEdgeAt t e.from_ e.to_ e.nth
    restoreBackEdges it t

/-- `restore_original_edges`, its two loops. -/
def restoreOriginalEdges (g : RPlaced) : Option RPlaced := do
  let t ← restoreLongEdges g.longEdges g.graph
  let t ← restoreBackEdges g.backEdges t
  some { g with graph := t }

/-- `add_to_list`: `r_list_prepend` or `r_list_append`. -/
def addToList {α : Type} (prepend : Bool) (l : List α) (v : α) : List α := if prepend then v :: l else l ++ [v]

/-- The loop of `create_edge_from_dummies`: the node behind the chain, the points and the nodes to remove. -/
def walkDummies (g : RPlaced) (prepend : Bool) :
    Nat → Nat → List Int → List Int → List Nat → Option (Nat × List Int × List Int × List Nat)
  | 0, _, _, _, _ => none
  | fuel + 1, n, x, y, toremove =>
    if (g.data n).isDummy = true then
      if 0 ≤ (g.data n).layer ∧ (g.data n).layer < g.layers.length then do
        let node ← g.graph.mem n
        let next ← node.outNodes.head?
        walkDummies g prepend fuel next (addToList prepend (addToList prepend x (g.x n)) (g.x n))
          (addToList prepend (addToList prepend y (g.y n)) (wrapInt (g.y n + g.height (g.data n).layer.toNat)))
          (addToList prepend toremove n)
      else none
    else some (n, x, y, toremove)

def createEdgeFromDummies (fuel : Nat) (g : RPlaced) (n : Nat) (toremove : List Nat) :
    Option (AEdge × List Nat) := do
  let node ← g.graph.mem n
  if (g.data n).isReversed = true then do
    let from_ ← node.inNodes.head?
    let (an, x, y, toremove) ← walkDummies g true fuel n [g.x n] [g.y from_] toremove
    some (⟨some an, some from_, x, y, true⟩, toremove)
  else do
    let (an, x, y, toremove) ← walkDummies g false fuel n [] [] toremove
    some (⟨node.inNodes.head?, some an, x, y, false⟩, toremove)

/-- The point of a back edge from `an` to `gk`, the `j`-th of them; `tp` are the neighbours of `gk`. -/
def backEdgePoint (g : RPlaced) (an gk : Nat) (j : Int) (tp : List Nat) : List Int × List Int :=
  match tp with
  | [] => ([], [])
  | fn :: rest =>
    let ln := rest.getLastD fn
    if fn = an then ([wrapInt (g.x an - 2 - j)], [g.y gk])
    else ([wrapInt (g.x ln + (g.data ln).w + 2 + j)], [g.y gk])

/-- The loop of `analyze_back_edges` over the neighbours of `an`. -/
def analyzeBackEdges (g : RPlaced) (an : Nat) : List Nat → Int → List AEdge → Option (List AEdge)
  | [], _, edges => some edges
  | gk :: itk, j, edges =>
    if (g.data gk).layer > (g.data an).layer then analyzeBackEdges g an itk j edges
    else do
      let ak ← g.graph.mem gk
      let (x, y) := backEdgePoint g an gk j ak.outNodes
      analyzeBackEdges g an itk (wrapInt (j + 1)) (edges ++ [⟨some an, some gk, x, y, true⟩])

/-- The loops of `remove_dummy_nodes` over the nodes of the layers, with `edges` and `toremove`. -/
def collectDummies (fuel : Nat) (g : RPlaced) : List Nat → List AEdge → List Nat → Option (List AEdge × List Nat)
  | [], edges, toremove => some (edges, toremove)
  | n :: order, edges, toremove =>
    if (g.data n).isDummy = true ∧ n ∉ toremove then do
      let (e, toremove) ← createEdgeFromDummies fuel g n toremove
      collectDummies fuel g order (edges ++ [e]) toremove
    else if (g.data n).isDummy = false then do
      let node ← g.graph.mem n
      let edges ← analyzeBackEdges g n node.outNodes 0 edges
      collectDummies fuel g order edges toremove
    else collectDummies fuel g order edges toremove

def removeDummyNodes (fuel : Nat) (g : RPlaced) : Option RPlaced := do
  let (edges, toremove) ← collectDummies fuel g g.layers.flatten g.edges []
  let t ← delNodes toremove g.graph
  some { g with graph := t, edges := edges }

theorem restoreLongEdges_spec (it : List RGraphEdge) {t : RGraph} (h : t.Shape)
    (hit : ∀ e ∈ it, (e.from_ = some e.src ∧ e.to_ = some e.dst) ∧ e.src ∈ t.nodes ∧ e.dst ∈ t.nodes) :
    ∃ t', restoreLongEdges it t = some t' ∧ t'.Shape ∧ t.SameNodes t' ∧
      t'.arcs.Perm (it.map RGraphEdge.ends ++ t.arcs) := by
  induction it generalizing t with
  | nil => exact ⟨t, rfl, h, ⟨rfl, rfl⟩, .refl _⟩
  | cons e it ih =>
    obtain ⟨⟨hfrom, hto⟩, hsrc, hdst⟩ := hit e List.mem_cons_self
    obtain ⟨t₁, hadd, hshape₁, hsame₁, hperm₁⟩ := h.addEdgeAt hsrc hdst e.nth
    obtain ⟨t', hrun, hshape, hsame, hperm⟩ := ih hshape₁ fun x hx => by
      rw [hsame₁.nodes]
      exact hit x (List.mem_cons_of_mem e hx)
    refine ⟨t', ?_, hshape, ⟨hsame.nodes.trans hsame₁.nodes, hsame.fresh.trans hsame₁.fresh⟩, ?_⟩
    · rw [restoreLongEdges, hfrom, hto, hadd]
      exact hrun
    · apply hperm.trans
      apply (hperm₁.append_left _).trans
      exact List.perm_middle

theorem restoreBackEdges_spec {it : List RGraphEdge} {t : RGraph} {rest : List (Nat × Nat)} (h : t.Shape)
    (hit : ∀ e ∈ it, e.from_ = some e.src ∧ e.to_ = some e.dst)
    (harcs : t.arcs.Perm (it.map (fun e => e.ends.swap) ++ rest)) :
    ∃ t', restoreBackEdges it t = some t' ∧ t'.Shape ∧ t.SameNodes t' ∧
      t'.arcs.Perm (it.map RGraphEdge.ends ++ rest) := by
  induction it generalizing t rest with
  | nil => exact ⟨t, rfl, h, ⟨rfl, rfl⟩, harcs⟩
  | cons e it ih =>
    obtain ⟨hfrom, hto⟩ := hit e List.mem_cons_self
    have hedge : t.Edge e.dst e.src := harcs.mem_iff.mpr (by simp [RGraphEdge.ends])
    obtain ⟨hdst, hsrc⟩ := h.ends_mem hedge
    obtain ⟨t₁, hdel, hshape₁, hsame₁, hperm₁⟩ := h.delEdge hedge
    rw [← hsame₁.nodes] at hdst hsrc
    obtain ⟨t₂, hadd, hshape₂, hsame₂, hperm₂⟩ := hshape₁.addEdgeAt hsrc hdst e.nth
    have hleft : t₁.arcs.Perm (it.map (fun e => e.ends.swap) ++ rest) := (hperm₁.symm.trans harcs).cons_inv
    have hnext : t₂.arcs.Perm (it.map (fun e => e.ends.swap) ++ (e.ends :: rest)) :=
      (hperm₂.trans (hleft.cons _)).trans List.perm_middle.symm
    obtain ⟨t', hrun, hshape, hsame, hperm⟩ := ih hshape₂ (fun x hx => hit x (List.mem_cons_of_mem e hx)) hnext
    refine ⟨t', ?_, hshape, ⟨?_, ?_⟩, hperm.trans List.perm_middle⟩
    · rw [restoreBackEdges, hfrom, hto, hdel, Option.bind_eq_bind, Option.bind_some, hadd]
      exact hrun
    · rw [hsame.nodes, hsame₂.nodes, hsame₁.nodes]
    · rw [hsame.fresh, hsame₂.fresh, hsame₁.fresh]

theorem addToList_perm {α : Type} (prepend : Bool) (l : List α) (v : α) :
    (addToList prepend l v).Perm (l ++ [v]) := by
  unfold addToList
  split_ifs
  · exact (List.perm_append_singleton v l).symm
  · exact .refl _

/-- `u` is a dummy of a layer that exists. -/
def RPlaced.DummyAt (p : RPlaced) (u : Nat) : Prop :=
  (p.data u).isDummy = true ∧ 0 ≤ (p.data u).layer ∧ (p.data u).layer < p.layers.length

theorem walkDummies_step {p : RPlaced} (prepend : Bool) {m next : Nat} (hlive : (p.graph.mem m).isSome)
    (hm : p.DummyAt m) (hout : p.graph.out m = [next]) (fuel : Nat) (x y : List Int) (toremove : List Nat) :
    ∃ x' y', walkDummies p prepend (fuel + 1) m x y toremove =
      walkDummies p prepend fuel next x' y' (addToList prepend toremove m) := by
  obtain ⟨node, hnode⟩ := Option.isSome_iff_exists.mp hlive
  have hnext : node.outNodes = [next] := (RGraph.out_eq hnode).symm.trans hout
  rw [walkDummies, if_pos hm.1, if_pos hm.2, hnode, Option.bind_eq_bind, Option.bind_some, hnext]
  exact ⟨_, _, rfl⟩

/-- The walk ends behind the chain, with all its dummies to remove. -/
theorem walkDummies_chain {p : RPlaced} (prepend : Bool) {m b : Nat} {ms : List Nat}
    (hout : ∀ e ∈ pathSteps m ms b, p.graph.out e.1 = [e.2]) (hlive : ∀ u ∈ m :: ms, (p.graph.mem u).isSome)
    (hdummy : ∀ u ∈ m :: ms, p.DummyAt u) (hend : (p.data b).isDummy = false) {fuel : Nat}
    (hfuel : ms.length + 2 ≤ fuel) (x y : List Int) (toremove : List Nat) :
    ∃ x' y' toremove', walkDummies p prepend fuel m x y toremove = some (b, x', y', toremove') ∧
      toremove'.Perm (toremove ++ m :: ms) := by
  induction ms generalizing m x y toremove fuel with
  | nil =>
    obtain ⟨fuel, rfl⟩ := Nat.exists_eq_add_of_le' hfuel
    obtain ⟨x', y', hstep⟩ := walkDummies_step prepend (hlive m List.mem_cons_self) (hdummy m List.mem_cons_self)
      (hout (m, b) List.mem_cons_self) (fuel + 1) x y toremove
    refine ⟨x', y', _, hstep.trans ?_, addToList_perm prepend toremove m⟩
    rw [walkDummies, if_neg (by simp [hend])]
  | cons next ms ih =>
    obtain ⟨fuel, rfl⟩ := Nat.exists_eq_add_of_le' hfuel
    obtain ⟨x₁, y₁, hstep⟩ := walkDummies_step prepend (hlive m List.mem_cons_self) (hdummy m List.mem_cons_self)
      (hout (m, next) List.mem_cons_self) (fuel + (ms.length + 2)) x y toremove
    obtain ⟨x', y', toremove', hrun, hperm⟩ := ih (fun e he => hout e (List.mem_cons_of_mem _ he))
      (fun u hu => hlive u (List.mem_cons_of_mem _ hu)) (fun u hu => hdummy u (List.mem_cons_of_mem _ hu))
      (Nat.le_add_left _ fuel) x₁ y₁ (addToList prepend toremove m)
    refine ⟨x', y', toremove', hstep.trans hrun, hperm.trans ?_⟩
    simpa using (addToList_perm prepend toremove m).append_right (next :: ms)

/-- The ends of the long edge that the points belong to. -/
def AEdge.ends (e : AEdge) : Option Nat × Option Nat :=
  if e.isReversed = true then (e.to_, e.from_) else (e.from_, e.to_)

/-- A chain in the finished graph, whose dummies have one edge in and one edge out. -/
structure RPlaced.HasChain (p : RPlaced) (c : Chain Nat) : Prop where
  ne_nil : c.mid ≠ []
  live : ∀ u ∈ c.mid, (p.graph.mem u).isSome
  out : ∀ e ∈ c.steps, e.1 ∈ c.mid → p.graph.out e.1 = [e.2]
  inn : ∀ e ∈ c.steps, e.2 ∈ c.mid → p.graph.inn e.2 = [e.1]
  dummy : ∀ u ∈ c.mid, p.DummyAt u
  plain : (p.data c.to_).isDummy = false
  rises : ∀ e ∈ c.steps, (p.data e.1).layer < (p.data e.2).layer

/-- The first dummy of a chain has the lowest layer. -/
theorem RPlaced.HasChain.head_le {p : RPlaced} {c : Chain Nat} (h : p.HasChain c) {m n : Nat}
    (hm : c.mid.head? = some m) (hn : n ∈ c.mid) : n = m ∨ (p.data m).layer < (p.data n).layer := by
  obtain ⟨a, mid, b⟩ := c
  cases mid with
  | nil => cases hm
  | cons first ms =>
    obtain rfl : first = m := Option.some.inj hm
    rcases List.mem_cons.mp hn with hn | hn
    · exact .inl hn
    · have hsteps : ∀ e ∈ pathSteps first ms b, (p.data e.1).layer < (p.data e.2).layer := fun e he =>
        h.rises e (List.mem_cons_of_mem _ he)
      exact .inr ((pathSteps_between (f := fun u => (p.data u).layer) hsteps).2 n hn).1

theorem createEdgeFromDummies_chain {p : RPlaced} {c : Chain Nat} (h : p.HasChain c) {m : Nat}
    (hm : c.mid.head? = some m) {fuel : Nat} (hfuel : c.mid.length + 1 ≤ fuel) (toremove : List Nat) :
    ∃ e toremove', createEdgeFromDummies fuel p m toremove = some (e, toremove') ∧
      e.ends = (some c.from_, some c.to_) ∧ toremove'.Perm (toremove ++ c.mid) := by
  obtain ⟨a, mid, b⟩ := c
  cases mid with
  | nil => cases hm
  | cons first ms =>
    obtain rfl : first = m := Option.some.inj hm
    obtain ⟨node, hnode⟩ := Option.isSome_iff_exists.mp (h.live first List.mem_cons_self)
    have hfrom : node.inNodes = [a] :=
      (RGraph.inn_eq hnode).symm.trans (h.inn (a, first) List.mem_cons_self List.mem_cons_self)
    have hfst : ∀ e ∈ pathSteps first ms b, e.1 ∈ first :: ms := fun e he => by
      rw [← pathSteps_fst first ms b]
      exact List.mem_map.mpr ⟨e, he, rfl⟩
    have hout : ∀ e ∈ pathSteps first ms b, p.graph.out e.1 = [e.2] := fun e he =>
      h.out e (List.mem_cons_of_mem _ he) (hfst e he)
    have hwalk := fun prepend => walkDummies_chain prepend hout h.live h.dummy h.plain hfuel
    unfold createEdgeFromDummies
    rw [hnode, Option.bind_eq_bind, Option.bind_some, hfrom]
    split_ifs with hreversed
    · obtain ⟨x', y', toremove', hrun, hperm⟩ := hwalk true [p.x first] [p.y a] toremove
      refine ⟨⟨some b, some a, x', y', true⟩, toremove', ?_, rfl, hperm⟩
      simp only [List.head?_cons, Option.bind_eq_bind, Option.bind_some, hrun]
    · obtain ⟨x', y', toremove', hrun, hperm⟩ := hwalk false [] [] toremove
      refine ⟨⟨some a, some b, x', y', false⟩, toremove', ?_, rfl, hperm⟩
      simp only [List.head?_cons, Option.bind_eq_bind, Option.bind_some, hrun]

theorem analyzeBackEdges_some (p : RPlaced) (an : Nat) {itk : List Nat} (hlive : ∀ u ∈ itk, (p.graph.mem u).isSome)
    (j : Int) : ∃ more, ∀ edges, analyzeBackEdges p an itk j edges = some (edges ++ more) := by
  induction itk generalizing j with
  | nil =>
    refine ⟨[], fun edges => ?_⟩
    rw [List.append_nil]
    rfl
  | cons gk itk ih =>
    have hrest := ih fun u hu => hlive u (List.mem_cons_of_mem gk hu)
    obtain ⟨ak, hak⟩ := Option.isSome_iff_exists.mp (hlive gk List.mem_cons_self)
    by_cases hlayer : (p.data gk).layer > (p.data an).layer
    · obtain ⟨more, hrun⟩ := hrest j
      refine ⟨more, fun edges => ?_⟩
      rw [analyzeBackEdges, if_pos hlayer]
      exact hrun edges
    · obtain ⟨more, hrun⟩ := hrest (wrapInt (j + 1))
      refine ⟨⟨some an, some gk, (backEdgePoint p an gk j ak.outNodes).1,
        (backEdgePoint p an gk j ak.outNodes).2, true⟩ :: more, fun edges => ?_⟩
      rw [analyzeBackEdges, if_neg hlayer, hak, Option.bind_eq_bind, Option.bind_some]
      refine (hrun _).trans ?_
      rw [List.append_assoc]
      rfl

/-- What `analyze_back_edges` draws for the nodes of a list, one after the other; dummies are left out. -/
def backEdgesOf (g : RPlaced) : List Nat → Option (List AEdge)
  | [] => some []
  | n :: order =>
    if (g.data n).isDummy = true then backEdgesOf g order
    else do
      let node ← g.graph.mem n
      let edges ← analyzeBackEdges g n node.outNodes 0 []
      let rest ← backEdgesOf g order
      some (edges ++ rest)

theorem backEdgesOf_append {p : RPlaced} {seen order : List Nat} {back more : List AEdge}
    (hseen : backEdgesOf p seen = some back) (horder : backEdgesOf p order = some more) :
    backEdgesOf p (seen ++ order) = some (back ++ more) := by
  induction seen generalizing back with
  | nil =>
    obtain rfl := Option.some.inj hseen
    exact horder
  | cons n seen ih =>
    rw [backEdgesOf] at hseen
    rw [List.cons_append, backEdgesOf]
    split_ifs at hseen ⊢
    · exact ih hseen
    · simp only [Option.bind_eq_bind, Option.bind_eq_some_iff, Option.some.injEq] at hseen ⊢
      obtain ⟨node, hnode, edges, hedges, rest, hrest, rfl⟩ := hseen
      exact ⟨node, hnode, edges, hedges, rest ++ more, ih hrest, (List.append_assoc _ _ _).symm⟩

/-- `remove_dummy_nodes` after the nodes `seen`: the chains `ds` are drawn and wait for their removal, and of the
others not even the first dummy was seen. The edges are one for each of the chains drawn, and the back edges. -/
structure Collecting (p : RPlaced) (chains : List (Chain Nat)) (seen : List Nat) (ds rest : List (Chain Nat))
    (edges : List AEdge) (toremove : List Nat) : Prop where
  perm : chains.Perm (ds ++ rest)
  toremove : toremove.Perm (ds.flatMap Chain.mid)
  heads : ∀ c ∈ rest, ∀ m ∈ c.mid.head?, m ∉ seen
  drawn : ∃ made back : List AEdge, backEdgesOf p seen = some back ∧ edges.Perm (made ++ back) ∧
    made.map AEdge.ends = ds.map fun c => (some c.from_, some c.to_)

section Collect

variable {p : RPlaced} {chains ds rest : List (Chain Nat)} {seen order toremove : List Nat} {edges : List AEdge}
  {n : Nat}

/-- A node that begins no chain that is left. -/
theorem Collecting.skip (h : Collecting p chains seen ds rest edges toremove)
    (hn : ∀ c ∈ rest, ∀ m ∈ c.mid.head?, m ≠ n) {more : List AEdge} (hmore : backEdgesOf p [n] = some more) :
    Collecting p chains (seen ++ [n]) ds rest (edges ++ more) toremove := by
  refine ⟨h.perm, h.toremove, fun c hc m hm hmem => ?_, ?_⟩
  · rcases List.mem_append.mp hmem with hmem | hmem
    · exact h.heads c hc m hm hmem
    · exact hn c hc m hm (List.mem_singleton.mp hmem)
  · obtain ⟨made, back, hback, hperm, hends⟩ := h.drawn
    refine ⟨made, back ++ more, backEdgesOf_append hback hmore, ?_, hends⟩
    rw [← List.append_assoc]
    exact hperm.append_right more

/-- The first dummy of a chain that is left: the chain is drawn. -/
theorem Collecting.draw (h : Collecting p chains seen ds rest edges toremove)
    (hnd : (chains.flatMap Chain.mid).Nodup) (hdummy : (p.data n).isDummy = true) {c : Chain Nat} (hc : c ∈ rest)
    (hn : c.mid.head? = some n) {e : AEdge} (he : e.ends = (some c.from_, some c.to_)) {toremove' : List Nat}
    (hperm : toremove'.Perm (toremove ++ c.mid)) :
    ∃ rest', Collecting p chains (seen ++ [n]) (ds ++ [c]) rest' (edges ++ [e]) toremove' := by
  obtain ⟨l, r, rfl⟩ := List.append_of_mem hc
  have hall : chains.Perm ((ds ++ [c]) ++ (l ++ r)) := by
    apply h.perm.trans
    rw [List.append_assoc]
    exact List.perm_middle.append_left ds
  refine ⟨l ++ r, hall, ?_, fun d hd m hm hmem => ?_, ?_⟩
  · rw [List.flatMap_append, List.flatMap_singleton]
    exact hperm.trans (h.toremove.append_right _)
  · have hd' : d ∈ l ++ c :: r := by
      rcases List.mem_append.mp hd with hd | hd
      · exact List.mem_append_left _ hd
      · exact List.mem_append_right _ (List.mem_cons_of_mem _ hd)
    rcases List.mem_append.mp hmem with hmem | hmem
    · exact h.heads d hd' m hm hmem
    · obtain rfl := List.mem_singleton.mp hmem
      rw [(hall.flatMap_right _).nodup_iff, List.flatMap_append, List.nodup_append] at hnd
      refine hnd.2.2 m ?_ m (List.mem_flatMap.mpr ⟨d, hd, List.mem_of_mem_head? hm⟩) rfl
      simp [List.mem_of_mem_head? hn]
  · obtain ⟨made, back, hback, hedges, hends⟩ := h.drawn
    have hnone : backEdgesOf p [n] = some [] := if_pos hdummy
    refine ⟨made ++ [e], back ++ [], backEdgesOf_append hback hnone, ?_, ?_⟩
    · rw [List.append_nil, ← List.append_cons]
      exact (List.perm_append_singleton e edges).trans ((hedges.cons e).trans List.perm_middle.symm)
    · simp [hends, he]

variable (hchains : ∀ c ∈ chains, p.HasChain c) (hnd : (chains.flatMap Chain.mid).Nodup)
  (hlive : ∀ u ∈ p.layers.flatten, (p.graph.mem u).isSome ∧ ∀ v ∈ p.graph.out u, (p.graph.mem v).isSome)
  (hdummy : ∀ u ∈ p.layers.flatten, (p.data u).isDummy = true → u ∈ chains.flatMap Chain.mid)
  (hrise : p.layers.flatten.Pairwise fun u v => (p.data u).layer ≤ (p.data v).layer)
  (hmids : ∀ u ∈ chains.flatMap Chain.mid, u ∈ p.layers.flatten)
include hchains hnd hlive hdummy hrise hmids

theorem collectDummies_run {fuel : Nat} (hfuel : ∀ c ∈ chains, c.mid.length + 1 ≤ fuel)
    (hsplit : p.layers.flatten = seen ++ order) (h : Collecting p chains seen ds rest edges toremove) :
    ∃ edges' toremove' ds' rest', collectDummies fuel p order edges toremove = some (edges', toremove') ∧
      Collecting p chains p.layers.flatten ds' rest' edges' toremove' := by
  induction order generalizing seen ds rest edges toremove with
  | nil =>
    rw [List.append_nil] at hsplit
    rw [hsplit]
    exact ⟨edges, toremove, ds, rest, rfl, h⟩
  | cons n order ih =>
    have hmem : n ∈ p.layers.flatten := by simp [hsplit]
    have hnext : p.layers.flatten = (seen ++ [n]) ++ order := by rw [hsplit, ← List.append_cons]
    have hheads : ∀ c ∈ rest, ∀ m ∈ c.mid.head?, m ∈ chains.flatMap Chain.mid ∧ m ∉ toremove := by
      intro c hc m hm
      have hall := (h.perm.flatMap_right Chain.mid).nodup_iff.mp hnd
      rw [List.flatMap_append, List.nodup_append] at hall
      have hmid : m ∈ rest.flatMap Chain.mid := List.mem_flatMap.mpr ⟨c, hc, List.mem_of_mem_head? hm⟩
      refine ⟨?_, fun hrm => hall.2.2 m (h.toremove.mem_iff.mp hrm) m hmid rfl⟩
      rw [(h.perm.flatMap_right Chain.mid).mem_iff, List.flatMap_append]
      exact List.mem_append_right _ hmid
    rw [collectDummies]
    split_ifs with hcreate hplain
    · -- the order of the layers makes it the first dummy of its chain
      obtain ⟨hd, hnot⟩ := hcreate
      have hin : n ∈ (ds ++ rest).flatMap Chain.mid :=
        (h.perm.flatMap_right Chain.mid).mem_iff.mp (hdummy n hmem hd)
      rw [List.flatMap_append, List.mem_append] at hin
      obtain ⟨c, hc, hcn⟩ := List.mem_flatMap.mp (hin.resolve_left fun hds => hnot (h.toremove.mem_iff.mpr hds))
      have hcc : c ∈ chains := h.perm.mem_iff.mpr (List.mem_append_right _ hc)
      obtain ⟨m, hm⟩ := Option.isSome_iff_exists.mp (List.isSome_head?.mpr (hchains c hcc).ne_nil)
      have hfirst : n = m := by
        refine ((hchains c hcc).head_le hm hcn).resolve_right fun hlt => ?_
        have hmflat := hmids m (List.mem_flatMap.mpr ⟨c, hcc, List.mem_of_mem_head? hm⟩)
        rw [hsplit] at hmflat hrise
        have hlater := (List.pairwise_append.mp hrise).2.1
        rcases List.mem_append.mp hmflat with hseen | hlate
        · exact h.heads c hc m hm hseen
        · rcases List.mem_cons.mp hlate with rfl | hlate
          · exact lt_irrefl _ hlt
          · exact absurd (List.rel_of_pairwise_cons hlater hlate) (not_le.mpr hlt)
      subst hfirst
      obtain ⟨e, toremove', hrun, hends, hperm⟩ :=
        createEdgeFromDummies_chain (hchains c hcc) hm (hfuel c hcc) toremove
      obtain ⟨rest', hcollect⟩ := h.draw hnd hd hc hm hends hperm
      obtain ⟨edges', toremove'', ds', rest'', hrest, hdone⟩ := ih hnext hcollect
      rw [hrun]
      exact ⟨edges', toremove'', ds', rest'', hrest, hdone⟩
    · obtain ⟨hnode, hout⟩ := hlive n hmem
      obtain ⟨node, hnode⟩ := Option.isSome_iff_exists.mp hnode
      rw [RGraph.out_eq hnode] at hout
      obtain ⟨more, hback⟩ := analyzeBackEdges_some p n hout 0
      have hmore : backEdgesOf p [n] = some more := by
        rw [backEdgesOf, if_neg (by simp [hplain]), hnode, Option.bind_eq_bind, Option.bind_some, hback]
        simp [backEdgesOf]
      have hskip := h.skip (n := n) (fun c hc m hm hmn => by
        have hmid := (hheads c hc m hm).1
        obtain ⟨d, hdc, hdm⟩ := List.mem_flatMap.mp hmid
        have hd := ((hchains d hdc).dummy m hdm).1
        rw [hmn, hplain] at hd
        cases hd) hmore
      obtain ⟨edges', toremove', ds', rest', hrest, hdone⟩ := ih hnext hskip
      rw [hnode, Option.bind_eq_bind, Option.bind_some, hback]
      exact ⟨edges', toremove', ds', rest', hrest, hdone⟩
    · have hrm : n ∈ toremove := by
        by_contra hnot
        exact hcreate ⟨by simpa using hplain, hnot⟩
      have hnone : backEdgesOf p [n] = some [] := if_pos (by simpa using hplain)
      have hskip := h.skip (n := n) (fun c hc m hm hmn => (hheads c hc m hm).2 (hmn ▸ hrm)) hnone
      rw [List.append_nil] at hskip
      exact ih hnext hskip

end Collect

section Layers

variable {t : RAGraph} {r : RLayers} {changed : Bool}

theorem RLayers.mem_flatten {u : Nat} : u ∈ r.layers.flatten ↔ ∃ l, u ∈ r.layer l := by
  rw [List.mem_flatten]
  constructor
  · rintro ⟨nodes, hnodes, hu⟩
    obtain ⟨l, hl⟩ := List.mem_iff_getElem?.mp hnodes
    exact ⟨l, by rwa [RLayers.layer, hl]⟩
  · rintro ⟨l, hu⟩
    cases hl : r.layers[l]? with
    | none =>
      rw [RLayers.layer, hl] at hu
      cases hu
    | some nodes =>
      rw [RLayers.layer, hl] at hu
      exact ⟨nodes, List.mem_of_getElem? hl, hu⟩

theorem LaidOut.layer_eq (h : LaidOut t r changed) (u : Nat) : (r.data u).layer = (t.data u).layer :=
  congrArg RANode.layer (h.data u)

theorem LaidOut.isDummy_eq (h : LaidOut t r changed) (u : Nat) : (r.data u).isDummy = t.isDummy u :=
  congrArg RANode.isDummy (h.data u)

/-- Every node stands in the layer that it has. -/
theorem LaidOut.mem_layer (h : LaidOut t r changed) {l u : Nat} :
    u ∈ r.layer l ↔ u ∈ t.graph.nodes ∧ (t.data u).layer = l := by
  rw [(h.layers l).mem_iff]
  simp

theorem LaidOut.mem_flatten (h : LaidOut t r changed) (ht : t.Levelled) {u : Nat} :
    u ∈ r.layers.flatten ↔ u ∈ t.graph.nodes := by
  rw [RLayers.mem_flatten]
  constructor
  · rintro ⟨l, hu⟩
    exact (h.mem_layer.mp hu).1
  · intro hu
    obtain ⟨l, hl⟩ := Int.eq_ofNat_of_zero_le (ht.layer u hu).1
    exact ⟨l, h.mem_layer.mpr ⟨hu, hl⟩⟩

theorem LaidOut.layer_lt (h : LaidOut t r changed) (ht : t.Levelled) {u : Nat} (hu : u ∈ t.graph.nodes) :
    0 ≤ (r.data u).layer ∧ (r.data u).layer < r.layers.length := by
  obtain ⟨l, hl⟩ := Int.eq_ofNat_of_zero_le (ht.layer u hu).1
  have hmem := h.mem_layer.mpr ⟨hu, hl⟩
  rw [h.layer_eq, hl]
  refine ⟨Int.natCast_nonneg l, Int.ofNat_lt.mpr ?_⟩
  by_contra hge
  rw [RLayers.layer, List.getElem?_eq_none (Nat.not_lt.mp hge)] at hmem
  cases hmem

theorem LaidOut.pairwise_layer (h : LaidOut t r changed) :
    r.layers.flatten.Pairwise fun u v => (r.data u).layer ≤ (r.data v).layer := by
  have hlayer : ∀ (l : Nat) (nodes : List Nat), r.layers[l]? = some nodes → ∀ u ∈ nodes, (r.data u).layer = l := by
    intro l nodes hl u hu
    have hmem : u ∈ r.layer l := by rwa [RLayers.layer, hl]
    exact h.isLayered.layer l u hmem
  rw [List.pairwise_flatten]
  constructor
  · intro nodes hnodes
    obtain ⟨l, hl⟩ := List.mem_iff_getElem?.mp hnodes
    refine List.pairwise_of_forall_mem_list fun u hu v hv => ?_
    rw [hlayer l nodes hl u hu, hlayer l nodes hl v hv]
  · rw [List.pairwise_iff_getElem]
    intro i j hi hj hij u hu v hv
    rw [hlayer i _ (List.getElem?_eq_getElem hi) u hu, hlayer j _ (List.getElem?_eq_getElem hj) v hv]
    exact Int.ofNat_le.mpr (Nat.le_of_lt hij)

end Layers

section Chains

variable {g done : RAGraph} {chains : List (Chain Nat)} {t : RGraph}

/-- The edges are those of `g` again, with the chains besides. -/
theorem LayerChains.subdivided (h : LayerChains g done chains) (hg : g.graph.Shape) (ht : t.Shape)
    (hnodes : t.nodes = done.graph.nodes) (harcs : t.arcs.Perm (g.graph.arcs ++ chains.flatMap Chain.steps)) :
    Subdivided g.graph.nodes g.graph.arcs chains t.arcs := by
  have hnd := ht.lists.nodup
  rw [hnodes, h.nodes, List.nodup_append] at hnd
  exact ⟨harcs, fun e he => hg.ends_mem he, h.old, hnd.2.1, fun m hm hold => hnd.2.2 m hold m hm rfl⟩

variable (hsub : Subdivided g.graph.nodes g.graph.arcs chains t.arcs) (ht : t.Shape)
include hsub ht

theorem chain_out {e : Nat × Nat} (he : e ∈ chains.flatMap Chain.steps) (hmid : e.1 ∈ chains.flatMap Chain.mid) :
    t.out e.1 = [e.2] := by
  have hedge : t.Edge e.1 e.2 := hsub.edges.mem_iff.mpr (List.mem_append_right _ he)
  have hone := hsub.one_out hmid
  obtain ⟨hnode, hout⟩ := mem_arcs.mp hedge
  rw [RGraph.arcs, ← length_out ht.lists.nodup hnode] at hone
  obtain ⟨v, hv⟩ := List.length_eq_one_iff.mp hone
  rw [hv, List.mem_singleton] at hout
  rw [hv, hout]

theorem chain_inn {e : Nat × Nat} (he : e ∈ chains.flatMap Chain.steps) (hmid : e.2 ∈ chains.flatMap Chain.mid) :
    t.inn e.2 = [e.1] := by
  have hedge : t.Edge e.1 e.2 := hsub.edges.mem_iff.mpr (List.mem_append_right _ he)
  have hone := hsub.one_in hmid
  have hnode := (ht.ends_mem hedge).2
  have hinn := (ht.mem_inn hnode).mpr hedge
  rw [RGraph.arcs, ← ht.lists.length_inn hnode] at hone
  obtain ⟨u, hu⟩ := List.length_eq_one_iff.mp hone
  rw [hu, List.mem_singleton] at hinn
  rw [hu, hinn]

end Chains

section Restore

variable {g done : RAGraph} {chains : List (Chain Nat)} {r : RLayers} {changed : Bool}

theorem LayerChains.mid_mem (h : LayerChains g done chains) {m : Nat} (hm : m ∈ chains.flatMap Chain.mid) :
    m ∈ done.graph.nodes ∧ done.isDummy m = true := by
  have hmem : m ∈ done.graph.nodes := by
    rw [h.nodes]
    exact List.mem_append_right _ hm
  exact ⟨hmem, (h.dummy m hmem).mpr hm⟩

theorem LayerChains.old_mem (h : LayerChains g done chains) {n : Nat} (hn : n ∈ g.graph.nodes) :
    n ∈ done.graph.nodes := by
  rw [h.nodes]
  exact List.mem_append_left _ hn

theorem LayerChains.step_edge (h : LayerChains g done chains) {e : Nat × Nat}
    (he : e ∈ chains.flatMap Chain.steps) : done.graph.Edge e.1 e.2 := by
  obtain ⟨short, forward, harcs, -⟩ := h.arcs
  exact harcs.mem_iff.mpr (List.mem_append_right _ he)

/-- `restore_original_edges` gives the edges back; the chains are still there. -/
theorem LayerChains.restoreOriginalEdges (h : LayerChains g done chains) (ht : done.Levelled) (p : RPlaced)
    (hgraph : p.graph = done.graph) (hlong : p.longEdges = done.longEdges) (hback : p.backEdges = done.backEdges) :
    ∃ t, Radare.restoreOriginalEdges p = some { p with graph := t } ∧ t.Shape ∧
      t.nodes = done.graph.nodes ∧ t.arcs.Perm (g.graph.arcs ++ chains.flatMap Chain.steps) := by
  obtain ⟨short, forward, harcs, hforward, hg⟩ := h.arcs
  have hform := fun e he => h.form e (List.mem_append_left _ he)
  obtain ⟨t₁, hrun₁, hshape₁, hsame₁, hperm₁⟩ := restoreLongEdges_spec done.longEdges ht.shape fun e he => by
    have hends : e.ends ∈ chains.map Chain.ends := by
      rw [h.ends]
      exact List.mem_map.mpr ⟨e, he, rfl⟩
    obtain ⟨c, hc, hce⟩ := List.mem_map.mp hends
    obtain ⟨hsrc, hdst⟩ : c.from_ = e.src ∧ c.to_ = e.dst := Prod.mk.inj hce
    obtain ⟨hold, hold'⟩ := h.old c hc
    exact ⟨hform e he, h.old_mem (hsrc ▸ hold), h.old_mem (hdst ▸ hold')⟩
  have hall : t₁.arcs.Perm (done.backEdges.map (fun e => e.ends.swap) ++
      (forward ++ chains.flatMap Chain.steps)) := by
    apply hperm₁.trans
    apply (harcs.append_left _).trans
    rw [← List.append_assoc, ← List.append_assoc]
    exact (hforward.trans List.perm_append_comm).append_right _
  obtain ⟨t, hrun, hshape, hsame, hperm⟩ :=
    restoreBackEdges_spec hshape₁ (fun e he => h.form e (List.mem_append_right _ he)) hall
  refine ⟨t, ?_, hshape, hsame.nodes.trans hsame₁.nodes, ?_⟩
  · rw [Radare.restoreOriginalEdges, hgraph, hlong, hback, hrun₁, Option.bind_eq_bind, Option.bind_some, hrun]
    rfl
  · apply hperm.trans
    rw [← List.append_assoc]
    exact (List.perm_append_comm.trans hg.symm).append_right _

variable {t : RGraph} {p : RPlaced}

theorem LayerChains.hasChain (h : LayerChains g done chains) (hg : g.graph.Shape) (hdone : done.Levelled)
    (hlaid : LaidOut done r changed) (hp : p.toRLayers = { r with graph := t }) (ht : t.Shape)
    (hnodes : t.nodes = done.graph.nodes) (harcs : t.arcs.Perm (g.graph.arcs ++ chains.flatMap Chain.steps)) :
    ∀ c ∈ chains, p.HasChain c := by
  intro c hc
  have hsub := h.subdivided hg ht hnodes harcs
  have hdata : p.data = r.data := by rw [hp]
  have hmid : ∀ u ∈ c.mid, u ∈ chains.flatMap Chain.mid := fun u hu => List.mem_flatMap.mpr ⟨c, hc, hu⟩
  have hstep : ∀ e ∈ c.steps, e ∈ chains.flatMap Chain.steps := fun e he => List.mem_flatMap.mpr ⟨c, hc, he⟩
  refine ⟨h.inside c hc, fun u hu => ?_, fun e he hu => ?_, fun e he hu => ?_, fun u hu => ?_, ?_, fun e he => ?_⟩
  · rw [hp]
    apply ht.live
    rw [hnodes]
    exact (h.mid_mem (hmid u hu)).1
  · rw [hp]
    exact chain_out hsub ht (hstep e he) (hmid _ hu)
  · rw [hp]
    exact chain_inn hsub ht (hstep e he) (hmid _ hu)
  · obtain ⟨hmem, hd⟩ := h.mid_mem (hmid u hu)
    rw [RPlaced.DummyAt, hp]
    exact ⟨(hlaid.isDummy_eq u).trans hd, hlaid.layer_lt hdone hmem⟩
  · rw [hdata, hlaid.isDummy_eq, Bool.eq_false_iff]
    intro hd
    have hold := (h.old c hc).2
    exact hsub.apart c.to_ ((h.dummy c.to_ (h.old_mem hold)).mp hd) hold
  · have hspan := hdone.spans _ _ (h.step_edge (hstep e he))
    rw [hdata, hlaid.layer_eq, hlaid.layer_eq]
    omega

theorem LayerChains.removeDummyNodes (h : LayerChains g done chains) (hg : g.graph.Shape) (hdone : done.Levelled)
    (hlaid : LaidOut done r changed) (hp : p.toRLayers = { r with graph := t }) (hedges : p.edges = []) (ht : t.Shape)
    (hnodes : t.nodes = done.graph.nodes) (harcs : t.arcs.Perm (g.graph.arcs ++ chains.flatMap Chain.steps))
    {fuel : Nat} (hfuel : done.graph.nodes.length + 1 ≤ fuel) :
    ∃ q, Radare.removeDummyNodes fuel p = some q ∧ q.graph.Shape ∧ q.graph.nodes = g.graph.nodes ∧
      q.graph.arcs.Perm g.graph.arcs ∧ ∃ made back : List AEdge, backEdgesOf p p.layers.flatten = some back ∧
        q.edges.Perm (made ++ back) ∧
        (made.map AEdge.ends).Perm (done.longEdges.map fun e => (e.from_, e.to_)) := by
  have hsub := h.subdivided hg ht hnodes harcs
  have hgraph : p.graph = t := by rw [hp]
  have hlayers : p.layers = r.layers := by rw [hp]
  have hdata : p.data = r.data := by rw [hp]
  have hmemt : ∀ u ∈ p.layers.flatten, u ∈ t.nodes := fun u hu => by
    rw [hnodes, ← hlaid.mem_flatten hdone, ← hlayers]
    exact hu
  have hflat : ∀ u ∈ chains.flatMap Chain.mid, u ∈ p.layers.flatten := fun u hu => by
    rw [hlayers, hlaid.mem_flatten hdone]
    exact (h.mid_mem hu).1
  have hsize : ∀ c ∈ chains, c.mid.length + 1 ≤ fuel := fun c hc => by
    have hle := (List.sublist_flatten_of_mem (List.mem_map.mpr ⟨c, hc, rfl⟩ : c.mid ∈ chains.map Chain.mid)).length_le
    rw [h.nodes, List.length_append] at hfuel
    rw [← List.flatMap_def] at hle
    omega
  have hstart : Collecting p chains [] [] chains [] [] :=
    ⟨.refl _, .refl _, fun _ _ _ _ => List.not_mem_nil, [], [], rfl, .refl _, rfl⟩
  obtain ⟨edges, toremove, ds, rest, hrun, hend⟩ :=
    collectDummies_run (h.hasChain hg hdone hlaid hp ht hnodes harcs) hsub.nodup
      (fun u hu => by
        rw [hgraph]
        exact ⟨ht.live u (hmemt u hu), fun v hv => ht.live v (ht.lists.outMem u (hmemt u hu) v hv)⟩)
      (fun u hu hd => by
        rw [hdata, hlaid.isDummy_eq] at hd
        exact (h.dummy u (hnodes ▸ hmemt u hu)).mp hd)
      (by
        rw [hlayers, hdata]
        exact hlaid.pairwise_layer)
      hflat hsize (List.nil_append _).symm hstart
  -- no chain is left: the first dummy of each was seen
  have hrest : rest = [] := List.eq_nil_iff_forall_not_mem.mpr fun c hc => by
    have hcc : c ∈ chains := hend.perm.mem_iff.mpr (List.mem_append_right _ hc)
    obtain ⟨m, hm⟩ := Option.isSome_iff_exists.mp (List.isSome_head?.mpr (h.inside c hcc))
    exact hend.heads c hc m hm (hflat m (List.mem_flatMap.mpr ⟨c, hcc, List.mem_of_mem_head? hm⟩))
  have hds : chains.Perm ds := by simpa [hrest] using hend.perm
  have hremove : toremove.Perm (chains.flatMap Chain.mid) := hend.toremove.trans (hds.flatMap_right _).symm
  obtain ⟨t', hdel, hshape, hnodes', harcs'⟩ := ht.delNodes (hremove.nodup_iff.mpr hsub.nodup) fun u hu =>
    hmemt u (hflat u (hremove.mem_iff.mp hu))
  obtain ⟨made, back, hback, hmade, hends⟩ := hend.drawn
  refine ⟨{ p with graph := t', edges := edges }, ?_, hshape, ?_, ?_, made, back, hback, hmade, ?_⟩
  · rw [Radare.removeDummyNodes, hedges, hrun, hgraph, Option.bind_eq_bind, Option.bind_some]
    dsimp only
    rw [hdel]
    rfl
  · have hmids : (chains.flatMap Chain.mid).filter (· ∉ toremove) = [] := by
      simp only [List.filter_eq_nil_iff, hremove.mem_iff, decide_eq_true_eq, not_not]
      exact fun u hu => hu
    have hold : g.graph.nodes.filter (· ∉ toremove) = g.graph.nodes := by
      simp only [List.filter_eq_self, hremove.mem_iff, decide_eq_true_eq]
      exact fun u hu hm => hsub.apart u hm hu
    rw [hnodes', hnodes, h.nodes, List.filter_append, hold, hmids, List.append_nil]
  · rw [harcs']
    exact hsub.filter_old (fun u => hremove.mem_iff) h.inside
  · rw [hends]
    have hlong : (done.longEdges.map fun e => (e.from_, e.to_)) =
        chains.map fun c => (some c.from_, some c.to_) := by
      have hsome := congrArg (List.map fun e : Nat × Nat => (some e.1, some e.2)) h.ends
      rw [List.map_map, List.map_map] at hsome
      apply Eq.trans _ hsome.symm
      apply List.map_congr_left
      intro e he
      obtain ⟨hfrom, hto⟩ := h.form e (List.mem_append_left _ he)
      exact Prod.ext hfrom hto
    rw [hlong]
    exact hds.symm.map _

end Restore

/-- What a layout leaves of the graph when it is over: wherever the steps in between put the nodes, the graph has its
nodes and its edges again, and the drawn edges are one for each long edge, with its ends, and those that
`analyze_back_edges` draws for the nodes. -/
theorem graph_restored (ops : List GraphOp) (hroom : rGraphNew.RunHasRoom ops) :
    ∃ built, rAgraphNew.run ops = some built ∧
      (built.graph.arcs.length ≤ 92681 → (∀ n, ¬built.graph.Edge n n) →
        ∃ g1 g2 g3 r g changed,
          (∀ fuel, edgeTotal built.graph.nodes built.graph.out + built.graph.nodes.length + 2 ≤ fuel →
            removeCycles fuel built = some g1 ∧ assignLayers fuel g1 = some g2 ∧
              createDummyNodes fuel g2 = some g3) ∧
          createLayers g3 = some r ∧ minimizeCrossings r = some (g, changed) ∧
          ∀ x y height, ∃ p, restoreOriginalEdges ⟨g, x, y, height, g3.longEdges, g3.backEdges, []⟩ = some p ∧
            ∀ fuel, g3.graph.nodes.length + 1 ≤ fuel → ∃ q, removeDummyNodes fuel p = some q ∧ q.graph.Shape ∧
              q.graph.nodes = built.graph.nodes ∧ q.graph.arcs.Perm built.graph.arcs ∧
              ∃ made back : List AEdge, backEdgesOf p p.layers.flatten = some back ∧
                q.edges.Perm (made ++ back) ∧
                (made.map AEdge.ends).Perm (g3.longEdges.map fun e => (e.from_, e.to_))) := by
  obtain ⟨t, hrun, hok⟩ := RGraph.Ok.new.run ops hroom
  refine ⟨_, rAgraphNew_run hrun, fun hfew hloop => ?_⟩
  obtain ⟨g1, g2, g3, hruns, -, hlevelled, hdegrees, chains, hchains⟩ :=
    levelled_of_ok ⟨t, fun _ => newAnode, [], []⟩ hok (Nat.lt_of_le_of_lt hfew (by decide)) (fun _ _ => rfl) hloop
  obtain ⟨r, g, changed, hcreate, hmin, hlaid⟩ := createLayers_minimizeCrossings hlevelled (hdegrees hfew)
  refine ⟨g1, g2, g3, r, g, changed, hruns, hcreate, hmin, fun x y height => ?_⟩
  obtain ⟨t', hrestore, hshape, hnodes, harcs⟩ := hchains.restoreOriginalEdges hlevelled
    ⟨g, x, y, height, g3.longEdges, g3.backEdges, []⟩ hlaid.graph rfl rfl
  exact ⟨_, hrestore, fun fuel hfuel =>
    hchains.removeDummyNodes hok.shape hlevelled hlaid rfl rfl hshape hnodes harcs hfuel⟩

/-- Two cycles with parallel edges, and a long edge. -/
theorem graph_restored_cycles : ∃ built, rAgraphNew.run
      [.addNode, .addNode, .addNode, .addEdge 0 1, .addEdge 1 2, .addEdge 0 2, .addEdge 2 0, .addEdge 2 0] =
        some built ∧
    ∃ g1 g2 g3 r g changed, (∀ fuel, 10 ≤ fuel → removeCycles fuel built = some g1 ∧
        assignLayers fuel g1 = some g2 ∧ createDummyNodes fuel g2 = some g3) ∧
      createLayers g3 = some r ∧ minimizeCrossings r = some (g, changed) ∧
      ∀ x y height, ∃ p, restoreOriginalEdges ⟨g, x, y, height, g3.longEdges, g3.backEdges, []⟩ = some p ∧
        ∀ fuel, g3.graph.nodes.length + 1 ≤ fuel → ∃ q, removeDummyNodes fuel p = some q ∧ q.graph.Shape ∧
          q.graph.nodes = [0, 1, 2] ∧ q.graph.arcs.Perm [(0, 1), (0, 2), (1, 2), (2, 0), (2, 0)] ∧
          ∃ made back : List AEdge, backEdgesOf p p.layers.flatten = some back ∧
            q.edges.Perm (made ++ back) ∧
            (made.map AEdge.ends).Perm (g3.longEdges.map fun e => (e.from_, e.to_)) := by
  obtain ⟨built, hrun, hlaid⟩ := graph_restored
    [.addNode, .addNode, .addNode, .addEdge 0 1, .addEdge 1 2, .addEdge 0 2, .addEdge 2 0, .addEdge 2 0] cyclesHaveRoom
  refine ⟨built, hrun, ?_⟩
  have harcs : built.graph.arcs = [(0, 1), (0, 2), (1, 2), (2, 0), (2, 0)] := by
    cases hrun
    decide
  have hnodes : built.graph.nodes = [0, 1, 2] := by
    cases hrun
    decide
  have hsize : edgeTotal built.graph.nodes built.graph.out + built.graph.nodes.length + 2 = 10 := by
    cases hrun
    decide
  have hloop : ∀ n, ¬built.graph.Edge n n := fun n hn => by
    rw [RGraph.Edge, harcs] at hn
    simp at hn
    omega
  rw [hsize, hnodes, harcs] at hlaid
  exact hlaid (by simp) hloop

end Radare
