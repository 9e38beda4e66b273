import Mathlib.Algebra.Order.BigOperators.Group.List
import Radare.Core.Crossing
import Radare.Core.LayeringRight

namespace Radare

open Framework

/-- The loop that looks for the last layer. -/
def lastLayer (data : Nat → RANode) (nodes : List Nat) : Int :=
  nodes.foldl (fun nLayers gn => if (data gn).layer > nLayers then (data gn).layer else nLayers) 0

/-- The last loop of `create_layers`; no store outside `layers`. -/
def fillLayers : List Nat → RLayers → Option RLayers
  | [], g => some g
  | gn :: it, g =>
    if 0 ≤ (g.data gn).layer then do
      let nodes ← g.layers[(g.data gn).layer.toNat]?
      fillLayers it { g with
        data := Function.update g.data gn { g.data gn with posInLayer := nodes.length }
        layers := g.layers.set (g.data gn).layer.toNat (nodes ++ [gn]) }
    else none

/-- `create_layers`. `n_layers` is an `int`, and the places are 0 before they are written. -/
def createLayers (g : RAGraph) : Option RLayers :=
  let nLayers := lastLayer g.data g.graph.nodes
  if nLayers < intMax then
    fillLayers g.graph.nodes
      ⟨g.graph, fun gn => { g.data gn with posInLayer := 0 }, List.replicate (nLayers + 1).toNat []⟩
  else none

/-- The `for` loop of a pass over the layers. -/
def sweepLayers (fromUp : Bool) : List Nat → RLayers → Bool → Option (RLayers × Bool)
  | [], g, crossChanged => some (g, crossChanged)
  | i :: is, g, crossChanged => do
    let (g, changed) ← layerSweep g g.layers.length i fromUp
    sweepLayers fromUp is g (crossChanged || changed)

/-- A do-while loop of `minimize_crossings`, with `max_changes` to go and the last `cross_changed`. -/
def crossPasses (fromUp : Bool) (order : List Nat) : Nat → RLayers → Option (RLayers × Bool)
  | 0, g => some (g, true)
  | maxChanges + 1, g => do
    let (g, crossChanged) ← sweepLayers fromUp order g false
    if crossChanged = true ∧ maxChanges ≠ 0 then crossPasses fromUp order maxChanges g
    else some (g, crossChanged)

/-- `minimize_crossings`, with the last value of `cross_changed`. -/
def minimizeCrossings (g : RLayers) : Option (RLayers × Bool) := do
  let (g, _) ← crossPasses true (List.range g.layers.length) 4096 g
  crossPasses false (List.range g.layers.length).reverse 4096 g

/-- The edges that end in `x`, for a node of the layer `i`. -/
def RLayers.inDegree (g : RLayers) (i x : Nat) : Nat := ((g.layer (i - 1)).map fun u => (g.graph.out u).count x).sum

/-- The counters of the crossing matrices are `int`s. -/
def RLayers.EdgesFit (g : RLayers) : Prop :=
  ∀ i, ∀ x ∈ g.layer i, ∀ y ∈ g.layer i, x ≠ y → (g.inDegree i x * g.inDegree i y : Nat) ≤ intMax ∧
    ((g.graph.out x).length * (g.graph.out y).length : Nat) ≤ intMax

/-- The same graph, its layers in other orders. -/
structure Reordered (g g' : RLayers) : Prop where
  graph : g'.graph = g.graph
  count : g'.layers.length = g.layers.length
  perm : ∀ l, (g'.layer l).Perm (g.layer l)
  data : ∀ u, (g'.data u).toRANode = (g.data u).toRANode

/-- No two neighbours in the layer `i` cross less the other way round. -/
def RLayers.NoGain (g : RLayers) (i : Nat) (fromUp : Bool) : Prop :=
  (g.layer i).IsChain fun x y => g.crossingsIn i fromUp [x, y] ≤ g.crossingsIn i fromUp [y, x]

variable {g g' g'' : RLayers} {i : Nat} {fromUp changed : Bool}

theorem Reordered.refl (g : RLayers) : Reordered g g := ⟨rfl, rfl, fun _ => .refl _, fun _ => rfl⟩

theorem Reordered.trans (h : Reordered g g') (h' : Reordered g' g'') : Reordered g g'' :=
  ⟨h'.graph.trans h.graph, h'.count.trans h.count, fun l => (h'.perm l).trans (h.perm l),
    fun u => (h'.data u).trans (h.data u)⟩

theorem Swept.reordered (h : Swept g i fromUp g' changed) : Reordered g g' := by
  refine ⟨h.graph, h.others.1, fun l => ?_, fun u => (h.data u).1⟩
  by_cases hl : l = i
  · rw [hl]
    exact h.perm
  · exact .of_eq (h.others.2 l hl)

theorem Swept.isLayered (h : Swept g i fromUp g' changed) (hg : g.IsLayered) : g'.IsLayered := by
  have hre := h.reordered
  refine ⟨fun l u hu => ?_, fun l j u hj => ?_, fun l u hu v hv => ?_⟩
  · rw [hre.data u]
    exact hg.layer l u ((hre.perm l).mem_iff.mp hu)
  · by_cases hl : l = i
    · subst hl
      exact h.place j u hj
    · rw [h.others.2 l hl] at hj
      have hu := List.mem_of_getElem? hj
      have hnot : u ∉ g.layer i := fun hmem => by
        have hsame := (hg.layer l u hu).symm.trans (hg.layer i u hmem)
        exact hl (Int.ofNat_inj.mp hsame)
      rw [RLayers.pos, (h.data u).2 hnot]
      exact hg.place l j u hj
  · rw [hre.graph] at hv
    exact (hre.perm (l + 1)).mem_iff.mpr (hg.edge l u ((hre.perm l).mem_iff.mp hu) v hv)

theorem Reordered.edgesFit (h : Reordered g g') (hfit : g.EdgesFit) : g'.EdgesFit := by
  intro i x hx y hy hne
  have hdegree : ∀ x, g'.inDegree i x = g.inDegree i x := fun x => by
    rw [RLayers.inDegree, RLayers.inDegree, h.graph]
    exact ((h.perm (i - 1)).map _).sum_eq
  rw [hdegree, hdegree, h.graph]
  exact hfit i x ((h.perm i).mem_iff.mp hx) y ((h.perm i).mem_iff.mp hy) hne

theorem RLayers.EdgesFit.pairs (hfit : g.EdgesFit) (i : Nat) (fromUp : Bool) : g.PairsFit i fromUp := by
  intro x hx y hy hne
  obtain ⟨hin, hout⟩ := hfit i x hx y hy hne
  unfold RLayers.crossingsIn
  split_ifs
  · decide
  · rw [crossings_pair, count_edgePairs]
    exact Int.le_trans (Int.ofNat_le.mpr (orderCost_mul_le _ _ _)) hin
  · refine Int.le_trans (Int.ofNat_le.mpr ?_) hout
    rw [← length_edgePairs_pair]
    exact List.countP_le_length

theorem placeNodes_same {nodes : List Nat} {data : Nat → RANodeInLayer} (j : Nat)
    (h : ∀ k u, nodes[k]? = some u → (data u).posInLayer = (j + k : Nat)) : placeNodes j nodes data = data := by
  induction nodes generalizing j with
  | nil => rfl
  | cons n nodes ih =>
    have hn : Function.update data n { data n with posInLayer := j } = data := by
      rw [← Nat.add_zero j, ← h 0 n rfl]
      exact Function.update_eq_self n data
    rw [placeNodes, hn]
    refine ih (j + 1) fun k u hu => ?_
    rw [h (k + 1) u hu, Nat.add_right_comm, Nat.add_assoc]

theorem RLayers.IsLayered.reorder_self (h : g.IsLayered) (hi : i < g.layers.length) :
    g.reorder i (g.layer i) = g := by
  have hlayers : g.layers.set i (g.layer i) = g.layers := by
    rw [RLayers.layer, List.getElem?_eq_getElem hi, Option.getD_some, List.set_getElem_self]
  have hdata : placeNodes 0 (g.layer i) g.data = g.data := by
    refine placeNodes_same 0 fun k u hu => ?_
    rw [Nat.zero_add]
    exact h.place i k u hu
  rw [RLayers.reorder, hlayers, hdata]

/-- A sweep that changes nothing leaves the graph as it was. -/
theorem layerSweep_still (h : g.IsLayered) (hi : i < g.layers.length) (hfit : g.PairsFit i fromUp)
    (hsweep : layerSweep g g.layers.length i fromUp = some (g', false)) : g' = g ∧ g.NoGain i fromUp := by
  obtain ⟨m, hm, hcells⟩ := getCrossingMatrix_some h hfit
  have hnd := h.nodup i
  have hpos : ∀ x ∈ g.layer i, 0 ≤ g.pos x ∧ g.pos x < (g.layer i).length := fun x hx => h.pos_lt hx
  rw [layerSweep, hm] at hsweep
  have hself := h.reorder_self hi
  unfold RLayers.NoGain
  cases hl : g.layer i with
  | nil =>
    rw [hl] at hsweep hself
    cases hsweep
    exact ⟨hself, .nil⟩
  | cons u rest =>
    rw [hl] at hnd hpos hcells hsweep hself
    have hloop := sweepLoop_eq [] u rest false hnd hpos hcells
    rw [Bool.false_or] at hloop
    rw [Option.bind_eq_bind, Option.bind_some, show (u :: rest).length - 1 = rest.length from rfl] at hsweep
    change (sweepLoop g (u :: rest).length m rest.length ([] : List Nat).length ([] ++ u :: rest) false).bind _ = _
      at hsweep
    rw [hloop, Option.bind_some] at hsweep
    obtain ⟨hg, hstill⟩ := Prod.mk.inj (Option.some.inj hsweep)
    obtain ⟨hsame, hchain⟩ := passFrom_still hstill
    rw [hsame] at hg
    exact ⟨hg.symm.trans hself, hchain⟩

/-- One pass over the layers. -/
theorem sweepLayers_run (fromUp : Bool) {is : List Nat} (his : ∀ i ∈ is, i < g.layers.length) (h : g.IsLayered) (hfit : g.EdgesFit)
    (crossChanged : Bool) :
    ∃ g' changed, sweepLayers fromUp is g crossChanged = some (g', crossChanged || changed) ∧ Reordered g g' ∧
      g'.IsLayered ∧ (changed = false → g' = g ∧ ∀ i ∈ is, g.NoGain i fromUp) := by
  induction is generalizing g crossChanged with
  | nil => exact ⟨g, false, by rw [sweepLayers, Bool.or_false], .refl g, h, fun _ => ⟨rfl, nofun⟩⟩
  | cons i is ih =>
    have hi := his i List.mem_cons_self
    obtain ⟨g₁, changed₁, hsweep, hswept⟩ := layerSweep_swept h hi (hfit.pairs i fromUp)
    have hre := hswept.reordered
    have his₁ : ∀ i ∈ is, i < g₁.layers.length := fun i hmem => by
      rw [hre.count]
      exact his i (List.mem_cons_of_mem _ hmem)
    obtain ⟨g₂, changed₂, hrest, hre₂, hlayered₂, hstill⟩ :=
      ih his₁ (hswept.isLayered h) (hre.edgesFit hfit) (crossChanged || changed₁)
    refine ⟨g₂, changed₁ || changed₂, ?_, hre.trans hre₂, hlayered₂, fun hno => ?_⟩
    · rw [sweepLayers, hsweep, Option.bind_eq_bind, Option.bind_some, ← Bool.or_assoc]
      exact hrest
    · obtain ⟨rfl, rfl⟩ := Bool.or_eq_false_iff.mp hno
      obtain ⟨rfl, hgain⟩ := layerSweep_still h hi (hfit.pairs i fromUp) hsweep
      obtain ⟨hsame, hgains⟩ := hstill rfl
      refine ⟨hsame, fun j hj => ?_⟩
      rcases List.mem_cons.mp hj with rfl | hj
      · exact hgain
      · exact hgains j hj

/-- A loop of passes ends after at most `max_changes` of them; where the last one changed nothing, no two
neighbours of a layer cross less the other way round. -/
theorem crossPasses_run {order : List Nat} (fromUp : Bool) (maxChanges : Nat) (hpos : 0 < maxChanges)
    (horder : ∀ i ∈ order, i < g.layers.length) (h : g.IsLayered) (hfit : g.EdgesFit) :
    ∃ g' changed, crossPasses fromUp order maxChanges g = some (g', changed) ∧ Reordered g g' ∧ g'.IsLayered ∧
      (changed = false → ∀ i ∈ order, g'.NoGain i fromUp) := by
  induction maxChanges generalizing g with
  | zero => exact absurd hpos (Nat.lt_irrefl 0)
  | succ maxChanges ih =>
    obtain ⟨g₁, changed, hpass, hre, hlayered, hstill⟩ := sweepLayers_run fromUp horder h hfit false
    rw [Bool.false_or] at hpass
    rw [crossPasses, hpass, Option.bind_eq_bind, Option.bind_some]
    dsimp only
    by_cases hagain : changed = true ∧ maxChanges ≠ 0
    · have horder₁ : ∀ i ∈ order, i < g₁.layers.length := fun i hi => by
        rw [hre.count]
        exact horder i hi
      obtain ⟨g₂, changed₂, hpasses, hre₂, hlayered₂, hgain⟩ :=
        ih (Nat.pos_of_ne_zero hagain.2) horder₁ hlayered (hre.edgesFit hfit)
      refine ⟨g₂, changed₂, ?_, hre.trans hre₂, hlayered₂, hgain⟩
      rw [if_pos hagain, hpasses]
    · refine ⟨g₁, changed, by rw [if_neg hagain], hre, hlayered, fun hno => ?_⟩
      obtain ⟨rfl, hgains⟩ := hstill hno
      exact hgains

theorem minimizeCrossings_run (h : g.IsLayered) (hfit : g.EdgesFit) :
    ∃ g' changed, minimizeCrossings g = some (g', changed) ∧ Reordered g g' ∧ g'.IsLayered ∧
      (changed = false → ∀ i, i < g.layers.length → g'.NoGain i false) := by
  obtain ⟨g₁, changed₁, hup, hre₁, hlayered₁, -⟩ := crossPasses_run true 4096 (by decide)
    (fun i => List.mem_range.mp) h hfit
  have hdown : ∀ i ∈ (List.range g₁.layers.length).reverse, i < g₁.layers.length := fun i hi =>
    List.mem_range.mp (List.mem_reverse.mp hi)
  obtain ⟨g₂, changed₂, hpasses, hre₂, hlayered₂, hgain⟩ := crossPasses_run false 4096 (by decide)
    hdown hlayered₁ (hre₁.edgesFit hfit)
  refine ⟨g₂, changed₂, ?_, hre₁.trans hre₂, hlayered₂, fun hno i hi => ?_⟩
  · rw [minimizeCrossings, hup, Option.bind_eq_bind, Option.bind_some]
    exact hpasses
  · refine hgain hno i (List.mem_reverse.mpr (List.mem_range.mpr ?_))
    rw [hre₁.count]
    exact hi

/-- The layers hold the nodes `done` of the graph, in its order, and each of these knows its place. -/
structure LayersFilled (g : RAGraph) (nLayers : Nat) (done : List Nat) (r : RLayers) : Prop where
  graph : r.graph = g.graph
  data : ∀ u, (r.data u).toRANode = g.data u
  count : r.layers.length = nLayers
  layer : ∀ l : Nat, r.layer l = done.filter fun u => (g.data u).layer = l
  place : ∀ (l j u : Nat), (r.layer l)[j]? = some u → r.pos u = j

theorem RLayers.layer_set (r : RLayers) (nodes : List Nat) (data : Nat → RANodeInLayer) {i : Nat}
    (hi : i < r.layers.length) (l : Nat) :
    RLayers.layer ⟨r.graph, data, r.layers.set i nodes⟩ l = if l = i then nodes else r.layer l := by
  by_cases hl : l = i
  · subst hl
    simp [RLayers.layer, hi]
  · simp [RLayers.layer, hl, List.getElem?_set_ne (Ne.symm hl)]

variable {t : RAGraph} {nLayers : Nat}

theorem LayersFilled.step {done : List Nat} {r : RLayers} (h : LayersFilled t nLayers done r) {gn i : Nat} (hnew : gn ∉ done)
    (hlayer : (t.data gn).layer = i) (hi : i < nLayers) :
    LayersFilled t nLayers (done ++ [gn]) { r with
      data := Function.update r.data gn { r.data gn with posInLayer := (r.layer i).length }
      layers := r.layers.set i (r.layer i ++ [gn]) } := by
  have hset := r.layer_set (r.layer i ++ [gn])
    (Function.update r.data gn { r.data gn with posInLayer := (r.layer i).length }) (h.count.symm ▸ hi)
  refine ⟨h.graph, fun u => ?_, ?_, fun l => ?_, fun l j u hj => ?_⟩
  · by_cases hu : u = gn
    · subst hu
      simp [h.data]
    · simp [hu, h.data]
  · simp [h.count]
  · rw [hset, List.filter_append, ← h.layer l]
    by_cases hl : l = i
    · subst hl
      simp [hlayer]
    · have hother : ¬i = l := fun heq => hl heq.symm
      simp [hl, hlayer, hother]
  · have hkept : ∀ l, ∀ u ∈ r.layer l, u ≠ gn := fun l u hu heq => by
      rw [h.layer l] at hu
      exact hnew (heq ▸ List.mem_of_mem_filter hu)
    have hplace : ∀ l, (r.layer l)[j]? = some u →
        RLayers.pos { r with
          data := Function.update r.data gn { r.data gn with posInLayer := (r.layer i).length }
          layers := r.layers.set i (r.layer i ++ [gn]) } u = j := fun l hl => by
      simp only [RLayers.pos, Function.update_of_ne (hkept l u (List.mem_of_getElem? hl))]
      exact h.place l j u hl
    rw [hset] at hj
    split_ifs at hj with hl
    · rcases Nat.lt_or_ge j (r.layer i).length with hlt | hge
      · rw [List.getElem?_append_left hlt] at hj
        exact hplace i hj
      · obtain ⟨hlast, rfl⟩ : j - (r.layer i).length = 0 ∧ gn = u := by
          rw [List.getElem?_append_right hge] at hj
          simpa [List.getElem?_eq_some_iff] using hj
        have hj : j = (r.layer i).length := by omega
        simp [RLayers.pos, hj]
    · exact hplace l hj

theorem fillLayers_run {it done : List Nat} {r : RLayers} (h : LayersFilled t nLayers done r)
    (hnd : (done ++ it).Nodup) (hit : ∀ u ∈ it, 0 ≤ (t.data u).layer ∧ (t.data u).layer < nLayers) :
    ∃ r', fillLayers it r = some r' ∧ LayersFilled t nLayers (done ++ it) r' := by
  induction it generalizing done r with
  | nil =>
    rw [List.append_nil]
    exact ⟨r, rfl, h⟩
  | cons gn it ih =>
    obtain ⟨hpos, hlt⟩ := hit gn List.mem_cons_self
    obtain ⟨i, hi⟩ := Int.eq_ofNat_of_zero_le hpos
    have hbound : i < nLayers := by omega
    have hnew : gn ∉ done := fun hmem => by
      have hdisjoint := List.nodup_append.mp hnd
      exact hdisjoint.2.2 gn hmem gn List.mem_cons_self rfl
    have hnext := h.step hnew hi hbound
    rw [List.append_cons] at hnd ⊢
    obtain ⟨r', hrun, hfilled⟩ := ih hnext hnd fun u hu => hit u (List.mem_cons_of_mem _ hu)
    refine ⟨r', ?_, hfilled⟩
    have hlayer : (r.data gn).layer = i := (congrArg RANode.layer (h.data gn)).trans hi
    have hget : r.layers[i]? = some (r.layer i) := by
      rw [RLayers.layer, List.getElem?_eq_getElem (h.count.symm ▸ hbound), Option.getD_some]
    rw [fillLayers, hlayer, if_pos (Int.natCast_nonneg i), Int.toNat_natCast, hget]
    exact hrun

theorem lastLayer_spec (data : Nat → RANode) (nodes : List Nat) :
    (0 ≤ lastLayer data nodes ∧ ∀ u ∈ nodes, (data u).layer ≤ lastLayer data nodes) ∧
      (lastLayer data nodes = 0 ∨ ∃ u ∈ nodes, (data u).layer = lastLayer data nodes) := by
  induction nodes using List.reverseRecOn with
  | nil => simp [lastLayer]
  | append_singleton nodes gn ih =>
    obtain ⟨⟨hpos, hle⟩, hmax⟩ := ih
    have hstep : lastLayer data (nodes ++ [gn]) =
        if (data gn).layer > lastLayer data nodes then (data gn).layer else lastLayer data nodes := by
      simp [lastLayer, List.foldl_append]
    rw [hstep]
    split_ifs with hgt
    · refine ⟨⟨by omega, fun u hu => ?_⟩, .inr ⟨gn, by simp, rfl⟩⟩
      rcases List.mem_append.mp hu with hu | hu
      · exact Int.le_trans (hle u hu) (Int.le_of_lt hgt)
      · simp [List.mem_singleton.mp hu]
    · refine ⟨⟨hpos, fun u hu => ?_⟩, hmax.imp_right fun ⟨u, hu, heq⟩ => ⟨u, by simp [hu], heq⟩⟩
      rcases List.mem_append.mp hu with hu | hu
      · exact hle u hu
      · rw [List.mem_singleton.mp hu]
        exact Int.not_lt.mp hgt

theorem RAGraph.Levelled.createLayers (h : t.Levelled) :
    ∃ nLayers r, Radare.createLayers t = some r ∧ LayersFilled t nLayers t.graph.nodes r := by
  obtain ⟨⟨hpos, hle⟩, hmax⟩ := lastLayer_spec t.data t.graph.nodes
  have hfits : lastLayer t.data t.graph.nodes < intMax := by
    rcases hmax with hzero | ⟨u, hu, heq⟩
    · rw [hzero]
      decide
    · rw [← heq]
      exact (h.layer u hu).2
  have hstart : LayersFilled t (lastLayer t.data t.graph.nodes + 1).toNat []
      ⟨t.graph, fun gn => { t.data gn with posInLayer := 0 },
        List.replicate (lastLayer t.data t.graph.nodes + 1).toNat []⟩ := by
    have hempty : ∀ l, RLayers.layer ⟨t.graph, fun gn => { t.data gn with posInLayer := 0 },
        List.replicate (lastLayer t.data t.graph.nodes + 1).toNat []⟩ l = [] := fun l => by
      simp only [RLayers.layer, List.getElem?_replicate]
      split_ifs <;> rfl
    refine ⟨rfl, fun _ => rfl, List.length_replicate, hempty, fun l j u hj => ?_⟩
    rw [hempty] at hj
    cases hj
  obtain ⟨r, hrun, hfilled⟩ := fillLayers_run hstart h.shape.lists.nodup fun u hu => by
    have hu0 := (h.layer u hu).1
    have hu1 := hle u hu
    omega
  refine ⟨_, r, ?_, hfilled⟩
  simp only [Radare.createLayers, if_pos hfits]
  exact hrun

theorem LayersFilled.mem {r : RLayers} (h : LayersFilled t nLayers t.graph.nodes r) {l u : Nat} :
    u ∈ r.layer l ↔ u ∈ t.graph.nodes ∧ (t.data u).layer = l := by
  simp [h.layer]

theorem LayersFilled.isLayered {r : RLayers} (h : LayersFilled t nLayers t.graph.nodes r) (ht : t.Levelled) :
    r.IsLayered := by
  refine ⟨fun l u hu => ?_, h.place, fun l u hu v hv => ?_⟩
  · exact (congrArg RANode.layer (h.data u)).trans (h.mem.mp hu).2
  · obtain ⟨hu, hl⟩ := h.mem.mp hu
    rw [h.graph] at hv
    have hedge : t.graph.Edge u v := mem_arcs.mpr ⟨hu, hv⟩
    apply h.mem.mpr
    refine ⟨(ht.shape.ends_mem hedge).2, ?_⟩
    rw [ht.spans u v hedge, hl]
    rfl

theorem LayersFilled.edgesFit {r : RLayers} (h : LayersFilled t nLayers t.graph.nodes r) (ht : t.Levelled)
    (hfit : t.DegreesFit) : r.EdgesFit := by
  have hdegree : ∀ i, ∀ x ∈ t.graph.nodes, r.inDegree i x ≤ (t.graph.inn x).length := fun i x hx => by
    rw [← sum_count ht.shape.lists.nodup (t.graph.inn x) (ht.shape.lists.inMem x hx)]
    have hmirror : ∀ u ∈ t.graph.nodes, (t.graph.inn x).count u = (r.graph.out u).count x := fun u hu => by
      rw [h.graph]
      exact (ht.shape.lists.mirror u hu x hx).symm
    rw [List.map_congr_left hmirror, RLayers.inDegree, h.layer]
    exact (List.filter_sublist.map _).sum_le_sum fun _ _ => Nat.zero_le _
  intro i x hx y hy hne
  obtain ⟨hx, hlx⟩ := h.mem.mp hx
  obtain ⟨hy, hly⟩ := h.mem.mp hy
  obtain ⟨hin, hout⟩ := hfit x hx y hy hne (hlx.trans hly.symm)
  have hcast : ∀ n : Nat, n ≤ 2147483647 → (n : Int) ≤ intMax := fun n hn => by
    unfold intMax
    omega
  rw [h.graph]
  exact ⟨hcast _ ((Nat.mul_le_mul (hdegree i x hx) (hdegree i y hy)).trans hin), hcast _ hout⟩

/-- The graph `t` in layers: each holds the nodes that have its number, in some order, and where the last pass
`changed` nothing, no two neighbours of a layer cross less with the layer below the other way round. -/
structure LaidOut (t : RAGraph) (g : RLayers) (changed : Bool) : Prop where
  isLayered : g.IsLayered
  graph : g.graph = t.graph
  data : ∀ u, (g.data u).toRANode = t.data u
  layers : ∀ l : Nat, (g.layer l).Perm (t.graph.nodes.filter fun u => (t.data u).layer = l)
  best : changed = false → ∀ i, i < g.layers.length → g.NoGain i false

theorem createLayers_minimizeCrossings (ht : t.Levelled) (hfit : t.DegreesFit) :
    ∃ r g changed, createLayers t = some r ∧ minimizeCrossings r = some (g, changed) ∧ LaidOut t g changed := by
  obtain ⟨nLayers, r, hcreate, hfilled⟩ := ht.createLayers
  obtain ⟨g, changed, hrun, hre, hlayered, hgain⟩ :=
    minimizeCrossings_run (hfilled.isLayered ht) (hfilled.edgesFit ht hfit)
  refine ⟨r, g, changed, hcreate, hrun, hlayered, hre.graph.trans hfilled.graph,
    fun u => (hre.data u).trans (hfilled.data u), fun l => ?_, fun hno i hi => ?_⟩
  · rw [← hfilled.layer l]
    exact hre.perm l
  · apply hgain hno i
    rw [← hre.count]
    exact hi

theorem cyclesHaveRoom : rGraphNew.RunHasRoom
    [.addNode, .addNode, .addNode, .addEdge 0 1, .addEdge 1 2, .addEdge 0 2, .addEdge 2 0, .addEdge 2 0] := by
  apply RGraph.runHasRoom_cons (by decide) rfl
  apply RGraph.runHasRoom_cons (by decide) rfl
  apply RGraph.runHasRoom_cons (by decide) rfl
  apply RGraph.runHasRoom_cons (by decide) rfl
  apply RGraph.runHasRoom_cons (by decide) rfl
  apply RGraph.runHasRoom_cons (by decide) rfl
  apply RGraph.runHasRoom_cons (by decide) rfl
  exact RGraph.runHasRoom_cons (by decide) rfl trivial

end Radare
