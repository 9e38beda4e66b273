import Mathlib.Algebra.BigOperators.Ring.List
import Mathlib.Data.Nat.Cast.Order.Basic
import Mathlib.Tactic.Ring
import Radare.Core.Layering
import Radare.Framework.Crossings

namespace Radare

open Framework

/-- `RANode` with its place in the layer, which `assign_layers` does not read. -/
structure RANodeInLayer extends RANode where
  posInLayer : Int

/-- `RAGraph` once its layers exist: `layers` holds the `nodes` of each `struct layer_t`. -/
structure RLayers where
  graph : RGraph
  data : Nat → RANodeInLayer
  layers : List (List Nat)

/-- `layers[i].nodes`; behind the last layer there is none. -/
def RLayers.layer (g : RLayers) (i : Nat) : List Nat := g.layers[i]?.getD []

def RLayers.pos (g : RLayers) (gn : Nat) : Int := (g.data gn).posInLayer

/-- The rows and columns of `m`, an `int` each. -/
abbrev CrossMatrix := Int × Int → Int

def intMax : Int := 2147483647

/-- `m[a][b]++` in a matrix of `len` rows: nothing for a place outside it, and no value past an `int`. -/
def CrossMatrix.bump (len : Nat) (m : CrossMatrix) (k : Int × Int) : Option CrossMatrix :=
  if 0 ≤ k.1 ∧ k.1 < len ∧ 0 ≤ k.2 ∧ k.2 < len ∧ m k < intMax then
    some (Function.update m k (m k + 1))
  else none

/-- `m[a][b]`. -/
def CrossMatrix.read (len : Nat) (m : CrossMatrix) (a b : Int) : Option Int :=
  if 0 ≤ a ∧ a < len ∧ 0 ≤ b ∧ b < len then some (m (a, b)) else none

/-- The body of the innermost loop from above, for the edges `gj → gk` and `gs → gt`. -/
def crossingUp (g : RLayers) (i len gk gs : Nat) (m : CrossMatrix) (gt : Nat) : Option CrossMatrix :=
  if gt = gk then some m
  else if gt = gs then some m
  else if (g.data gk).layer ≠ i ∨ (g.data gt).layer ≠ i then some m
  else m.bump len (g.pos gk, g.pos gt)

/-- The loop over the layer above. `before` holds its nodes `0` to `j - 1`. -/
def crossingsUp (g : RLayers) (i len : Nat) : List Nat → List Nat → CrossMatrix → Option CrossMatrix
  | _, [], m => some m
  | before, gj :: nodes, m => do
    let m ← (g.graph.out gj).foldlM (fun m gk =>
      if gj = gk then some m
      else before.foldlM (fun m gs => (g.graph.out gs).foldlM (crossingUp g i len gk gs) m) m) m
    crossingsUp g i len (before ++ [gj]) nodes m

/-- The body of the innermost loop to below. -/
def crossingDown (g : RLayers) (len gj gk gs : Nat) (m : CrossMatrix) (gt : Nat) : Option CrossMatrix :=
  if g.pos gt < g.pos gk then m.bump len (g.pos gj, g.pos gs) else some m

def crossingsDown (g : RLayers) (len : Nat) (nodes : List Nat) (m : CrossMatrix) : Option CrossMatrix :=
  nodes.foldlM (fun m gj =>
    (g.graph.out gj).foldlM (fun m gk =>
      nodes.foldlM (fun m gs =>
        if gs = gj then some m
        else (g.graph.out gs).foldlM (crossingDown g len gj gk gs) m) m) m) m

def getCrossingMatrix (g : RLayers) (maxlayer i : Nat) (fromUp : Bool) : Option CrossMatrix := do
  let len := (g.layer i).length
  let m ← if 0 < i ∧ fromUp = true then crossingsUp g i len [] (g.layer (i - 1)) (fun _ => 0)
    else some (fun _ => 0)
  if i + 1 < maxlayer ∧ fromUp = false then crossingsDown g len (g.layer i) m else some m

/-- The loop that swaps, at `j` with `k` rounds to go. -/
def sweepLoop (g : RLayers) (len : Nat) (m : CrossMatrix) :
    Nat → Nat → List Nat → Bool → Option (List Nat × Bool)
  | 0, _, nodes, changed => some (nodes, changed)
  | k + 1, j, nodes, changed => do
    let u ← nodes[j]?
    let v ← nodes[j + 1]?
    let uv ← m.read len (g.pos u) (g.pos v)
    let vu ← m.read len (g.pos v) (g.pos u)
    if uv > vu then
      sweepLoop g len m k (j + 1) ((nodes.set j v).set (j + 1) u) true
    else sweepLoop g len m k (j + 1) nodes changed

/-- The loop that writes `pos_in_layer`, at `j`. -/
def placeNodes : Nat → List Nat → (Nat → RANodeInLayer) → Nat → RANodeInLayer
  | _, [], data => data
  | j, n :: nodes, data => placeNodes (j + 1) nodes (Function.update data n { data n with posInLayer := j })

/-- The layer `i` with its nodes in a new order, their places written. -/
def RLayers.reorder (g : RLayers) (i : Nat) (nodes : List Nat) : RLayers :=
  { g with layers := g.layers.set i nodes, data := placeNodes 0 nodes g.data }

def layerSweep (g : RLayers) (maxlayer i : Nat) (fromUp : Bool) : Option (RLayers × Bool) := do
  let m ← getCrossingMatrix g maxlayer i fromUp
  let (nodes, changed) ← sweepLoop g (g.layer i).length m ((g.layer i).length - 1) 0 (g.layer i) false
  some (g.reorder i nodes, changed)

/-- A layered graph: a node knows its layer and its place there, and its edges end in the next layer. -/
structure RLayers.IsLayered (g : RLayers) : Prop where
  layer : ∀ l, ∀ u ∈ g.layer l, (g.data u).layer = l
  place : ∀ (l j u : Nat), (g.layer l)[j]? = some u → g.pos u = j
  edge : ∀ l, ∀ u ∈ g.layer l, ∀ v ∈ g.graph.out u, v ∈ g.layer (l + 1)

/-- The crossings of the layer `i` in the order `l` with the layer above it, or the one below. -/
def RLayers.crossingsIn (g : RLayers) (i : Nat) (fromUp : Bool) (l : List Nat) : Nat :=
  if fromUp = true then
    if i = 0 then 0 else crossings g.graph.out (g.layer (i - 1)) l
  else crossings g.graph.out l (g.layer (i + 1))

/-- The edges of two nodes of the layer cross at most `INT_MAX` times. -/
def RLayers.PairsFit (g : RLayers) (i : Nat) (fromUp : Bool) : Prop :=
  ∀ x ∈ g.layer i, ∀ y ∈ g.layer i, x ≠ y → (g.crossingsIn i fromUp [x, y] : Int) ≤ intMax

/-- What a sweep of the layer `i` leaves. -/
structure Swept (g : RLayers) (i : Nat) (fromUp : Bool) (g' : RLayers) (changed : Bool) : Prop where
  graph : g'.graph = g.graph
  perm : (g'.layer i).Perm (g.layer i)
  place : ∀ (j u : Nat), (g'.layer i)[j]? = some u → g'.pos u = j
  others : g'.layers.length = g.layers.length ∧ ∀ l, l ≠ i → g'.layer l = g.layer l
  data : ∀ u, (g'.data u).toRANode = (g.data u).toRANode ∧ (u ∉ g.layer i → g'.data u = g.data u)
  notMore : g'.crossingsIn i fromUp (g'.layer i) ≤ g.crossingsIn i fromUp (g.layer i)
  fewer : changed = true → g'.crossingsIn i fromUp (g'.layer i) < g.crossingsIn i fromUp (g.layer i)

variable {g : RLayers} {i len : Nat} {fromUp : Bool}

theorem RLayers.IsLayered.rising (h : g.IsLayered) (l : Nat) :
    (g.layer l).Pairwise (fun a b => g.pos a < g.pos b) := by
  rw [List.pairwise_iff_getElem]
  intro a b ha hb hab
  rw [h.place l a _ (List.getElem?_eq_getElem ha), h.place l b _ (List.getElem?_eq_getElem hb)]
  exact Int.ofNat_lt.mpr hab

theorem RLayers.IsLayered.nodup (h : g.IsLayered) (l : Nat) : (g.layer l).Nodup := by
  refine (h.rising l).imp ?_
  intro a b hab heq
  rw [heq] at hab
  exact lt_irrefl _ hab

theorem RLayers.IsLayered.pos_lt (h : g.IsLayered) {l x : Nat} (hx : x ∈ g.layer l) :
    0 ≤ g.pos x ∧ g.pos x < (g.layer l).length := by
  obtain ⟨j, hj, rfl⟩ := List.mem_iff_getElem.mp hx
  rw [h.place l j _ (List.getElem?_eq_getElem hj)]
  exact ⟨Int.natCast_nonneg j, Int.ofNat_lt.mpr hj⟩

theorem RLayers.IsLayered.pos_inj (h : g.IsLayered) {l x y : Nat} (hx : x ∈ g.layer l) (hy : y ∈ g.layer l)
    (heq : g.pos x = g.pos y) : x = y := by
  obtain ⟨a, ha, rfl⟩ := List.mem_iff_getElem.mp hx
  obtain ⟨b, hb, rfl⟩ := List.mem_iff_getElem.mp hy
  rw [h.place l a _ (List.getElem?_eq_getElem ha), h.place l b _ (List.getElem?_eq_getElem hb)] at heq
  have hab : a = b := Int.ofNat_inj.mp heq
  subst hab
  rfl

/-- A node is in one layer only, so an edge leads away from it. -/
theorem RLayers.IsLayered.edge_ne (h : g.IsLayered) {l u v : Nat} (hu : u ∈ g.layer l)
    (hv : v ∈ g.graph.out u) : u ≠ v := by
  rintro rfl
  have h1 := h.layer l u hu
  have h2 := h.layer (l + 1) u (h.edge l u hu u hv)
  omega

theorem foldlM_flatMap {α β γ : Type} (f : α → List β) (b : γ → β → Option γ) (l : List α) (m : γ) :
    (l.flatMap f).foldlM b m = l.foldlM (fun m a => (f a).foldlM b m) m := by
  induction l generalizing m with
  | nil => rfl
  | cons a l ih =>
    rw [List.flatMap_cons, List.foldlM_append, List.foldlM_cons]
    exact bind_congr ih

theorem foldlM_congr {α γ : Type} {b c : γ → α → Option γ} {l : List α} (h : ∀ a ∈ l, ∀ m, b m a = c m a)
    (m : γ) : l.foldlM b m = l.foldlM c m := by
  induction l generalizing m with
  | nil => rfl
  | cons a l ih =>
    rw [List.foldlM_cons, List.foldlM_cons, h a List.mem_cons_self m]
    exact bind_congr (fun m' => ih (fun x hx => h x (List.mem_cons_of_mem _ hx)) m')

theorem foldlM_skip {α γ : Type} (p : α → Prop) [DecidablePred p] (b : γ → α → Option γ) (l : List α) (m : γ) :
    l.foldlM (fun m a => if p a then some m else b m a) m = (l.filter (fun a => ¬p a)).foldlM b m := by
  induction l generalizing m with
  | nil => rfl
  | cons a l ih =>
    by_cases hp : p a
    · rw [List.filter_cons_of_neg (by simpa using hp), ← ih, List.foldlM_cons]
      simp only [if_pos hp]
      rfl
    · rw [List.filter_cons_of_pos (by simpa using hp), List.foldlM_cons, List.foldlM_cons]
      simp only [if_neg hp]
      exact bind_congr ih

/-- The places a list of counts names, each counted as often as it stands in the list. -/
theorem foldlM_bump {K : List (Int × Int)} {m : CrossMatrix}
    (hK : ∀ k ∈ K, 0 ≤ k.1 ∧ k.1 < len ∧ 0 ≤ k.2 ∧ k.2 < len)
    (hfit : ∀ k ∈ K, m k + K.count k ≤ intMax) :
    K.foldlM (CrossMatrix.bump len) m = some (fun k => m k + K.count k) := by
  induction K generalizing m with
  | nil => simp
  | cons a K ih =>
    have ha := hK a List.mem_cons_self
    have hroom := hfit a List.mem_cons_self
    rw [List.count_cons_self] at hroom
    have hstep : CrossMatrix.bump len m a = some (Function.update m a (m a + 1)) :=
      if_pos ⟨ha.1, ha.2.1, ha.2.2.1, ha.2.2.2, by omega⟩
    have hcount : ∀ k, Function.update m a (m a + 1) k + (K.count k : Int) = m k + ((a :: K).count k : Int) := by
      intro k
      by_cases hk : k = a
      · rw [hk, Function.update_self, List.count_cons_self]
        push_cast
        omega
      · rw [Function.update_of_ne hk, List.count_cons_of_ne (Ne.symm hk)]
    rw [List.foldlM_cons, hstep]
    refine (ih (fun k hk => hK k (List.mem_cons_of_mem _ hk)) ?_).trans ?_
    · intro k hk
      rw [hcount]
      exact hfit k (List.mem_cons_of_mem _ hk)
    · simp only [hcount]

theorem foldlM_bump_none {K : List (Int × Int)} {m : CrossMatrix} {k : Int × Int} (hk : k ∈ K)
    (hover : intMax < m k + K.count k) (hm : m k ≤ intMax) : K.foldlM (CrossMatrix.bump len) m = none := by
  induction K generalizing m with
  | nil => cases hk
  | cons a K ih =>
    rw [List.foldlM_cons]
    by_cases hroom : 0 ≤ a.1 ∧ a.1 < len ∧ 0 ≤ a.2 ∧ a.2 < len ∧ m a < intMax
    · rw [CrossMatrix.bump, if_pos hroom]
      by_cases hak : k = a
      · subst hak
        rw [List.count_cons_self] at hover
        have hmem : k ∈ K := by
          by_contra hnot
          rw [List.count_eq_zero_of_not_mem hnot] at hover
          omega
        refine ih hmem ?_ ?_
        · rw [Function.update_self]
          omega
        · rw [Function.update_self]
          omega
      · rw [List.count_cons_of_ne (Ne.symm hak)] at hover
        refine ih ((List.mem_cons.mp hk).resolve_left hak) ?_ ?_
        · rw [Function.update_of_ne hak]
          exact hover
        · rw [Function.update_of_ne hak]
          exact hm
    · rw [CrossMatrix.bump, if_neg hroom]
      rfl

/-- The counts of the loops from above, by nodes. -/
def keysUp (out : Nat → List Nat) : List Nat → List Nat → List (Nat × Nat)
  | _, [] => []
  | before, gj :: nodes =>
    (out gj).flatMap (fun gk =>
      before.flatMap (fun gs => ((out gs).filter (fun gt => ¬gt = gk)).map (Prod.mk gk)))
      ++ keysUp out (before ++ [gj]) nodes

theorem keysUp_cons (out : Nat → List Nat) (before : List Nat) (gj : Nat) (nodes : List Nat) :
    keysUp out before (gj :: nodes) =
      (out gj).flatMap (fun gk =>
        before.flatMap (fun gs => ((out gs).filter (fun gt => ¬gt = gk)).map (Prod.mk gk)))
        ++ keysUp out (before ++ [gj]) nodes := rfl

/-- The counts of the loops to below. -/
def keysDown (g : RLayers) (nodes : List Nat) : List (Nat × Nat) :=
  nodes.flatMap (fun gj => (g.graph.out gj).flatMap (fun gk =>
    (nodes.filter (fun gs => ¬gs = gj)).flatMap (fun gs =>
      ((g.graph.out gs).filter (fun gt => g.pos gt < g.pos gk)).map (fun _ => (gj, gs)))))

def RLayers.places (g : RLayers) (k : Nat × Nat) : Int × Int := (g.pos k.1, g.pos k.2)

/-- The layers are as the warning of the source wants them, and no edge is a loop. -/
theorem crossingsUp_eq {lower : List Nat} (hlow : ∀ v ∈ lower, (g.data v).layer = i)
    (before nodes : List Nat) (hb : ∀ u ∈ before, ∀ v ∈ g.graph.out u, v ∈ lower ∧ u ≠ v)
    (hn : ∀ u ∈ nodes, ∀ v ∈ g.graph.out u, v ∈ lower ∧ u ≠ v) (m : CrossMatrix) :
    crossingsUp g i len before nodes m =
      ((keysUp g.graph.out before nodes).map g.places).foldlM (CrossMatrix.bump len) m := by
  induction nodes generalizing before m with
  | nil => rfl
  | cons gj nodes ih =>
    have hgj := hn gj List.mem_cons_self
    have hb' : ∀ u ∈ before ++ [gj], ∀ v ∈ g.graph.out u, v ∈ lower ∧ u ≠ v := by
      intro u hu
      rcases List.mem_append.mp hu with hu | hu
      · exact hb u hu
      · rw [List.mem_singleton.mp hu]
        exact hgj
    have hinner : ∀ gk ∈ g.graph.out gj, ∀ m, (if gj = gk then some m
        else before.foldlM (fun m gs => (g.graph.out gs).foldlM (crossingUp g i len gk gs) m) m) =
        ((before.flatMap (fun gs => ((g.graph.out gs).filter (fun gt => ¬gt = gk)).map
          (Prod.mk gk))).map g.places).foldlM (CrossMatrix.bump len) m := by
      intro gk hgk m
      obtain ⟨hk, hne⟩ := hgj gk hgk
      rw [if_neg hne, List.map_flatMap, foldlM_flatMap]
      refine foldlM_congr (fun gs hgs m => ?_) m
      rw [List.map_map, List.foldlM_map, ← foldlM_skip]
      refine foldlM_congr (fun gt hgt m => ?_) m
      obtain ⟨ht, hne⟩ := hb gs hgs gt hgt
      have hlayers : ¬((g.data gk).layer ≠ i ∨ (g.data gt).layer ≠ i) := by
        rw [hlow gk hk, hlow gt ht]
        simp
      rw [crossingUp, if_neg (Ne.symm hne), if_neg hlayers]
      rfl
    rw [keysUp_cons, List.map_append, List.foldlM_append, List.map_flatMap, foldlM_flatMap, crossingsUp,
      foldlM_congr hinner]
    exact bind_congr (ih _ hb' (fun u hu => hn u (List.mem_cons_of_mem _ hu)))

theorem crossingsDown_eq (nodes : List Nat) (m : CrossMatrix) :
    crossingsDown g len nodes m = ((keysDown g nodes).map g.places).foldlM (CrossMatrix.bump len) m := by
  unfold crossingsDown keysDown
  rw [List.map_flatMap, foldlM_flatMap]
  refine foldlM_congr (fun gj _ m => ?_) m
  rw [List.map_flatMap, foldlM_flatMap]
  refine foldlM_congr (fun gk _ m => ?_) m
  rw [List.map_flatMap, foldlM_flatMap, foldlM_skip]
  refine foldlM_congr (fun gs _ m => ?_) m
  rw [List.map_map, List.foldlM_map]
  have hflip : ∀ gt ∈ g.graph.out gs, ∀ m, crossingDown g len gj gk gs m gt =
      if ¬g.pos gt < g.pos gk then some m else m.bump len (g.pos gj, g.pos gs) := by
    intro gt _ m
    by_cases hlt : g.pos gt < g.pos gk
    · rw [crossingDown, if_pos hlt, if_neg (not_not_intro hlt)]
    · rw [crossingDown, if_neg hlt, if_pos hlt]
  rw [foldlM_congr hflip, foldlM_skip]
  simp only [not_not]
  rfl

theorem count_rows (out : Nat → List Nat) {x y : Nat} (hxy : x ≠ y) (before a : List Nat) :
    (a.flatMap (fun gk => before.flatMap (fun gs =>
      ((out gs).filter (fun gt => ¬gt = gk)).map (Prod.mk gk)))).count (x, y) =
      a.count x * (before.map (fun gs => (out gs).count y)).sum := by
  induction a with
  | nil => simp
  | cons gk a ih =>
    have hrow : (before.flatMap (fun gs => ((out gs).filter (fun gt => ¬gt = gk)).map (Prod.mk gk))).count (x, y) =
        if gk = x then (before.map (fun gs => (out gs).count y)).sum else 0 := by
      rw [List.count_flatMap]
      by_cases hk : gk = x
      · rw [if_pos hk]
        congr 1
        apply List.map_congr_left
        intro gs _
        rw [Function.comp_apply, hk, List.count_map_of_injective _ _ (Prod.mk_right_injective x),
          List.count_filter (by simpa using Ne.symm hxy)]
      · rw [if_neg hk]
        apply List.sum_eq_zero
        intro n hn
        obtain ⟨gs, -, rfl⟩ := List.mem_map.mp hn
        apply List.count_eq_zero_of_not_mem
        intro hmem
        obtain ⟨gt, -, hp⟩ := List.mem_map.mp hmem
        exact hk (Prod.mk.inj hp).1
    rw [List.flatMap_cons, List.count_append, ih, hrow, List.count_cons]
    by_cases hk : gk = x
    · rw [if_pos hk, if_pos (beq_iff_eq.mpr hk), Nat.add_mul, Nat.one_mul, Nat.add_comm]
    · rw [if_neg hk, if_neg (fun he => hk (beq_iff_eq.mp he)), Nat.zero_add, Nat.add_zero]

/-- Both ways of going through the pairs of edges: each edge with those before it, or with those behind. -/
theorem count_keysUp (out : Nat → List Nat) {x y : Nat} (hxy : x ≠ y) (before nodes : List Nat) :
    (keysUp out before nodes).count (x, y) =
      (before.map (fun gs => (out gs).count y)).sum * (nodes.map (fun gj => (out gj).count x)).sum +
        orderCost (fun gs gj => (out gj).count x * (out gs).count y) nodes := by
  induction nodes generalizing before with
  | nil => simp [keysUp, orderCost, pairsBefore]
  | cons gj nodes ih =>
    rw [keysUp_cons, List.count_append, count_rows out hxy, ih, orderCost_cons]
    have hfactor : (nodes.map (fun j => (out j).count x * (out gj).count y)).sum =
        (nodes.map (fun j => (out j).count x)).sum * (out gj).count y :=
      List.sum_map_mul_right nodes _ _
    rw [hfactor]
    simp only [List.map_append, List.sum_append, List.map_cons, List.sum_cons, List.map_nil, List.sum_nil]
    ring

theorem mem_keysUp {out : Nat → List Nat} {before nodes : List Nat} {k : Nat × Nat}
    (hk : k ∈ keysUp out before nodes) :
    k.1 ≠ k.2 ∧ ∃ u ∈ before ++ nodes, ∃ v ∈ nodes, k.1 ∈ out v ∧ k.2 ∈ out u := by
  induction nodes generalizing before with
  | nil => cases hk
  | cons gj nodes ih =>
    rw [keysUp_cons, List.mem_append] at hk
    rcases hk with hk | hk
    · simp only [List.mem_flatMap, List.mem_map, List.mem_filter, decide_eq_true_eq] at hk
      obtain ⟨gk, hgk, gs, hgs, gt, ⟨hgt, hne⟩, rfl⟩ := hk
      exact ⟨Ne.symm hne, gs, List.mem_append_left _ hgs, gj, List.mem_cons_self, hgk, hgt⟩
    · obtain ⟨hne, u, hu, v, hv, hmem⟩ := ih hk
      rw [List.append_assoc] at hu
      exact ⟨hne, u, hu, v, List.mem_cons_of_mem _ hv, hmem⟩

theorem mem_keysDown {nodes : List Nat} {k : Nat × Nat} (hk : k ∈ keysDown g nodes) :
    k.1 ≠ k.2 ∧ k.1 ∈ nodes ∧ k.2 ∈ nodes := by
  simp only [keysDown, List.mem_flatMap, List.mem_map, List.mem_filter, decide_eq_true_eq] at hk
  obtain ⟨gj, hgj, gk, -, gs, ⟨hgs, hne⟩, gt, -, rfl⟩ := hk
  exact ⟨Ne.symm hne, hgj, hgs⟩

theorem sum_single {l : List Nat} (hl : l.Nodup) {a : Nat} (ha : a ∈ l) {f : Nat → Nat}
    (hf : ∀ b ∈ l, b ≠ a → f b = 0) : (l.map f).sum = f a := by
  have hsum := List.sum_map_eq_nsmul_single a f (fun b hb hmem => hf b hmem hb)
  rw [hsum, List.count_eq_one_of_mem hl ha, one_nsmul]

theorem count_keysDown {nodes : List Nat} (hnd : nodes.Nodup) {x y : Nat} (hx : x ∈ nodes) (hy : y ∈ nodes)
    (hxy : x ≠ y) :
    (keysDown g nodes).count (x, y) =
      ((g.graph.out x).map (fun gk => (g.graph.out y).countP (fun gt => g.pos gt < g.pos gk))).sum := by
  have hzero : ∀ gj gs gk, ¬(gj = x ∧ gs = y) →
      (((g.graph.out gs).filter (fun gt => g.pos gt < g.pos gk)).map (fun _ => (gj, gs))).count (x, y) = 0 := by
    intro gj gs gk hne
    apply List.count_eq_zero_of_not_mem
    intro hmem
    obtain ⟨gt, -, hp⟩ := List.mem_map.mp hmem
    exact hne (Prod.mk.inj hp)
  rw [keysDown, List.count_flatMap, sum_single hnd hx]
  · rw [Function.comp_apply, List.count_flatMap]
    congr 1
    apply List.map_congr_left
    intro gk _
    have hy' : y ∈ nodes.filter (fun gs => ¬gs = x) := by
      rw [List.mem_filter]
      exact ⟨hy, by simpa using Ne.symm hxy⟩
    rw [Function.comp_apply, List.count_flatMap, sum_single (hnd.filter _) hy']
    · rw [Function.comp_apply, List.map_const', List.count_replicate_self, List.countP_eq_length_filter]
    · intro gs _ hgs
      exact hzero x gs gk (fun he => hgs he.2)
  · intro gj _ hgj
    rw [Function.comp_apply, List.count_eq_zero]
    intro hmem
    simp only [List.mem_flatMap, List.mem_map] at hmem
    obtain ⟨gk, -, gs, -, gt, -, hp⟩ := hmem
    exact hgj (Prod.mk.inj hp).1

/-- The counts of the whole matrix. -/
def layerKeys (g : RLayers) (i : Nat) (fromUp : Bool) : List (Nat × Nat) :=
  if fromUp = true then
    if i = 0 then [] else keysUp g.graph.out [] (g.layer (i - 1))
  else if i + 1 < g.layers.length then keysDown g (g.layer i)
  else []

theorem getCrossingMatrix_eq (h : g.IsLayered) :
    getCrossingMatrix g g.layers.length i fromUp =
      ((layerKeys g i fromUp).map g.places).foldlM (CrossMatrix.bump (g.layer i).length) (fun _ => 0) := by
  cases fromUp with
  | true =>
    by_cases hi : i = 0
    · simp [getCrossingMatrix, layerKeys, hi]
    · have hup : ∀ u ∈ g.layer (i - 1), ∀ v ∈ g.graph.out u, v ∈ g.layer i ∧ u ≠ v := by
        intro u hu v hv
        have hmem := h.edge (i - 1) u hu v hv
        rw [show i - 1 + 1 = i by omega] at hmem
        exact ⟨hmem, h.edge_ne hu hv⟩
      have hloops := fun len => @crossingsUp_eq g i len _ (h.layer i) [] (g.layer (i - 1))
        (fun u hu => absurd hu List.not_mem_nil) hup (fun _ => 0)
      simp [getCrossingMatrix, layerKeys, hi, Nat.pos_of_ne_zero hi, hloops]
  | false =>
    by_cases hi : i + 1 < g.layers.length
    · simp [getCrossingMatrix, layerKeys, hi, crossingsDown_eq]
    · simp [getCrossingMatrix, layerKeys, hi]

theorem mem_layerKeys (h : g.IsLayered) {k : Nat × Nat} (hk : k ∈ layerKeys g i fromUp) :
    k.1 ≠ k.2 ∧ k.1 ∈ g.layer i ∧ k.2 ∈ g.layer i := by
  unfold layerKeys at hk
  split_ifs at hk with hup hi hd
  · cases hk
  · obtain ⟨hne, u, hu, v, hv, h1, h2⟩ := mem_keysUp hk
    rw [List.nil_append] at hu
    have hmem1 := h.edge (i - 1) v hv k.1 h1
    have hmem2 := h.edge (i - 1) u hu k.2 h2
    rw [show i - 1 + 1 = i by omega] at hmem1 hmem2
    exact ⟨hne, hmem1, hmem2⟩
  · exact mem_keysDown hk
  · cases hk

theorem count_layerKeys (h : g.IsLayered) {x y : Nat} (hx : x ∈ g.layer i) (hy : y ∈ g.layer i) (hxy : x ≠ y) :
    (layerKeys g i fromUp).count (x, y) = g.crossingsIn i fromUp [x, y] := by
  unfold layerKeys RLayers.crossingsIn
  split_ifs with hup hi hd
  · rfl
  · rw [count_keysUp _ hxy, crossings_pair, count_edgePairs]
    simp
  · rw [count_keysDown (h.nodup i) hx hy hxy, crossings_two]
    congr 1
    apply List.map_congr_left
    intro gk hgk
    apply List.countP_congr
    intro gt hgt
    rw [decide_eq_true_eq, decide_eq_true_eq]
    exact (mem_pairsBefore_iff (h.rising (i + 1)) (h.edge i y hy gt hgt) (h.edge i x hx gk hgk)).symm
  · have hlast : g.layer (i + 1) = [] := by
      rw [RLayers.layer, List.getElem?_eq_none (by omega)]
      rfl
    simp [crossings, hlast, pairsBefore]

theorem count_places (h : g.IsLayered) {K : List (Nat × Nat)} (hK : ∀ k ∈ K, k.1 ∈ g.layer i ∧ k.2 ∈ g.layer i)
    {x y : Nat} (hx : x ∈ g.layer i) (hy : y ∈ g.layer i) :
    (K.map g.places).count (g.places (x, y)) = K.count (x, y) := by
  unfold List.count
  rw [List.countP_map]
  apply List.countP_congr
  intro k hk
  obtain ⟨h1, h2⟩ := hK k hk
  rw [Function.comp_apply, beq_iff_eq, beq_iff_eq]
  constructor
  · intro heq
    obtain ⟨he1, he2⟩ := Prod.mk.inj heq
    exact Prod.ext (h.pos_inj h1 hx he1) (h.pos_inj h2 hy he2)
  · intro heq
    rw [heq]

theorem count_crossMatrix (h : g.IsLayered) (fromUp : Bool) {x y : Nat} (hx : x ∈ g.layer i)
    (hy : y ∈ g.layer i) (hxy : x ≠ y) :
    ((layerKeys g i fromUp).map g.places).count (g.places (x, y)) = g.crossingsIn i fromUp [x, y] := by
  rw [count_places h (fun k hk => (mem_layerKeys h hk).2) hx hy, count_layerKeys h hx hy hxy]

/-- The matrix holds, for two nodes of the layer, the crossings of their edges in that order. -/
theorem getCrossingMatrix_some (h : g.IsLayered) (hfit : g.PairsFit i fromUp) :
    ∃ m, getCrossingMatrix g g.layers.length i fromUp = some m ∧
      ∀ x ∈ g.layer i, ∀ y ∈ g.layer i, x ≠ y → m (g.pos x, g.pos y) = g.crossingsIn i fromUp [x, y] := by
  have hcells : ∀ k ∈ (layerKeys g i fromUp).map g.places, ∃ x ∈ g.layer i, ∃ y ∈ g.layer i, x ≠ y ∧
      k = g.places (x, y) := by
    intro k hk
    obtain ⟨⟨x, y⟩, hmem, rfl⟩ := List.mem_map.mp hk
    obtain ⟨hne, hx, hy⟩ := mem_layerKeys h hmem
    exact ⟨x, hx, y, hy, hne, rfl⟩
  refine ⟨_, (getCrossingMatrix_eq h).trans (foldlM_bump ?_ ?_), ?_⟩
  · intro k hk
    obtain ⟨x, hx, y, hy, -, rfl⟩ := hcells k hk
    exact ⟨(h.pos_lt hx).1, (h.pos_lt hx).2, (h.pos_lt hy).1, (h.pos_lt hy).2⟩
  · intro k hk
    obtain ⟨x, hx, y, hy, hne, rfl⟩ := hcells k hk
    rw [count_crossMatrix h fromUp hx hy hne, Int.zero_add]
    exact hfit x hx y hy hne
  · intro x hx y hy hne
    have hcount := count_crossMatrix h fromUp hx hy hne
    rw [RLayers.places] at hcount
    simp only [hcount, Int.zero_add]

theorem getCrossingMatrix_none (h : g.IsLayered) (hfit : ¬g.PairsFit i fromUp) :
    getCrossingMatrix g g.layers.length i fromUp = none := by
  unfold RLayers.PairsFit at hfit
  push Not at hfit
  obtain ⟨x, hx, y, hy, hne, hover⟩ := hfit
  have hcount := count_crossMatrix h fromUp hx hy hne
  rw [getCrossingMatrix_eq h]
  refine foldlM_bump_none (k := g.places (x, y)) ?_ ?_ ?_
  · rw [← List.count_pos_iff, hcount]
    unfold intMax at hover
    omega
  · rw [hcount, Int.zero_add]
    exact hover
  · decide

/-- The loop in place is a pass over the nodes that follow the one in hand. -/
theorem sweepLoop_eq {m : CrossMatrix} {M : Nat → Nat → Nat} (head : List Nat) (u : Nat) (rest : List Nat)
    (changed : Bool) (hnd : (u :: rest).Nodup)
    (hin : ∀ x ∈ u :: rest, 0 ≤ g.pos x ∧ g.pos x < len)
    (hm : ∀ x ∈ u :: rest, ∀ y ∈ u :: rest, x ≠ y → m (g.pos x, g.pos y) = M x y) :
    sweepLoop g len m rest.length head.length (head ++ u :: rest) changed =
      some (head ++ (passFrom M u rest).1, changed || (passFrom M u rest).2) := by
  induction rest generalizing head u changed with
  | nil => simp [sweepLoop, passFrom]
  | cons v rest ih =>
    have hu : u ∈ u :: v :: rest := List.mem_cons_self
    have hv : v ∈ u :: v :: rest := List.mem_cons_of_mem _ List.mem_cons_self
    have huv : u ≠ v := fun he => (List.nodup_cons.mp hnd).1 (he ▸ List.mem_cons_self)
    have hread (x y : Nat) (hx : x ∈ u :: v :: rest) (hy : y ∈ u :: v :: rest) (hxy : x ≠ y) :
        m.read len (g.pos x) (g.pos y) = some (M x y : Int) := by
      rw [CrossMatrix.read, if_pos ⟨(hin x hx).1, (hin x hx).2, (hin y hy).1, (hin y hy).2⟩, hm x hx y hy hxy]
    have hat : (head ++ u :: v :: rest)[head.length]? = some u := by simp
    have hnext : (head ++ u :: v :: rest)[head.length + 1]? = some v := by simp
    rw [List.length_cons, sweepLoop, hat, hnext]
    simp only [Option.bind_eq_bind, Option.bind_some, hread u v hu hv huv, hread v u hv hu huv.symm]
    rw [passFrom_cons]
    by_cases hlt : M v u < M u v
    · have hsub : ∀ x ∈ u :: rest, x ∈ u :: v :: rest := by
        intro x hx
        rcases List.mem_cons.mp hx with rfl | hx
        · exact hu
        · exact List.mem_cons_of_mem _ (List.mem_cons_of_mem _ hx)
      have hswap : ((head ++ u :: v :: rest).set head.length v).set (head.length + 1) u =
          (head ++ [v]) ++ u :: rest := by
        simp
      have hnd' : (u :: rest).Nodup := by
        refine hnd.sublist ?_
        exact (List.sublist_cons_self v rest).cons_cons u
      have hrest := ih (head ++ [v]) u true hnd' (fun x hx => hin x (hsub x hx))
        (fun x hx y hy => hm x (hsub x hx) y (hsub y hy))
      rw [List.length_append, List.length_singleton] at hrest
      rw [if_pos (Int.ofNat_lt.mpr hlt), if_pos hlt, hswap, hrest]
      simp
    · have hrest := ih (head ++ [u]) v changed (List.nodup_cons.mp hnd).2
        (fun x hx => hin x (List.mem_cons_of_mem _ hx))
        (fun x hx y hy => hm x (List.mem_cons_of_mem _ hx) y (List.mem_cons_of_mem _ hy))
      rw [List.length_append, List.length_singleton, List.append_assoc, List.singleton_append] at hrest
      rw [if_neg (fun hgt => hlt (Int.ofNat_lt.mp hgt)), if_neg hlt, hrest]
      simp

theorem placeNodes_of_not_mem {n : Nat} {nodes : List Nat} (hn : n ∉ nodes) (j : Nat)
    (data : Nat → RANodeInLayer) : placeNodes j nodes data n = data n := by
  induction nodes generalizing j data with
  | nil => rfl
  | cons a nodes ih =>
    have hne : n ≠ a := by
      rintro rfl
      exact hn List.mem_cons_self
    rw [placeNodes, ih (fun hm => hn (List.mem_cons_of_mem _ hm)), Function.update_of_ne hne]

theorem placeNodes_toRANode (j : Nat) (nodes : List Nat) (data : Nat → RANodeInLayer) (n : Nat) :
    (placeNodes j nodes data n).toRANode = (data n).toRANode := by
  induction nodes generalizing j data with
  | nil => rfl
  | cons a nodes ih =>
    rw [placeNodes, ih]
    by_cases hn : n = a
    · rw [hn, Function.update_self]
    · rw [Function.update_of_ne hn]

theorem placeNodes_posInLayer {nodes : List Nat} (hnd : nodes.Nodup) {k n : Nat} (hk : nodes[k]? = some n)
    (j : Nat) (data : Nat → RANodeInLayer) : (placeNodes j nodes data n).posInLayer = (j + k : Nat) := by
  induction nodes generalizing j k data with
  | nil => cases hk
  | cons a nodes ih =>
    obtain ⟨ha, hnd⟩ := List.nodup_cons.mp hnd
    rw [placeNodes]
    cases k with
    | zero =>
      obtain rfl : a = n := by simpa using hk
      rw [placeNodes_of_not_mem ha, Function.update_self]
      rfl
    | succ k =>
      rw [List.getElem?_cons_succ] at hk
      rw [ih hnd hk, Nat.add_right_comm, Nat.add_assoc]

/-- The crossings of a layer are the cost of its order, pair by pair. -/
theorem RLayers.crossingsIn_eq (g : RLayers) (i : Nat) (fromUp : Bool) {l : List Nat} (hl : l.Nodup) :
    g.crossingsIn i fromUp l = orderCost (fun x y => g.crossingsIn i fromUp [x, y]) l := by
  unfold RLayers.crossingsIn
  split_ifs
  · simp [orderCost]
  · exact crossings_lower _ _ hl
  · exact crossings_upper _ _ _

/-- The neighbours a sweep counts against stay as they are. -/
theorem RLayers.crossingsIn_congr {g' : RLayers} (hg : g'.graph = g.graph)
    (hl : ∀ l, l ≠ i → g'.layer l = g.layer l) (fromUp : Bool) (l : List Nat) :
    g'.crossingsIn i fromUp l = g.crossingsIn i fromUp l := by
  unfold RLayers.crossingsIn
  split_ifs with hup hi
  · rfl
  · rw [hg, hl (i - 1) (by omega)]
  · rw [hg, hl (i + 1) (by omega)]

theorem layerSweep_swept (h : g.IsLayered) (hi : i < g.layers.length) (hfit : g.PairsFit i fromUp) :
    ∃ g' changed, layerSweep g g.layers.length i fromUp = some (g', changed) ∧ Swept g i fromUp g' changed := by
  obtain ⟨m, hm, hcells⟩ := getCrossingMatrix_some h hfit
  let M := fun x y => g.crossingsIn i fromUp [x, y]
  obtain ⟨nodes, changed, hloop, hperm, hcost⟩ : ∃ nodes changed,
      sweepLoop g (g.layer i).length m ((g.layer i).length - 1) 0 (g.layer i) false = some (nodes, changed) ∧
        nodes.Perm (g.layer i) ∧ orderCost M nodes ≤ orderCost M (g.layer i) ∧
        (changed = true → orderCost M nodes < orderCost M (g.layer i)) := by
    have hnd := h.nodup i
    have hpos : ∀ x ∈ g.layer i, 0 ≤ g.pos x ∧ g.pos x < (g.layer i).length := fun x hx => h.pos_lt hx
    cases hl : g.layer i with
    | nil => exact ⟨[], false, rfl, List.Perm.refl _, Nat.le_refl _, fun hf => absurd hf Bool.false_ne_true⟩
    | cons u rest =>
      rw [hl] at hnd hpos hcells
      refine ⟨_, _, sweepLoop_eq [] u rest false hnd hpos hcells, passFrom_perm M u rest, ?_⟩
      rw [Bool.false_or]
      exact passFrom_cost M u rest
  have hnd : nodes.Nodup := hperm.nodup_iff.mpr (h.nodup i)
  have hnow : (g.reorder i nodes).layer i = nodes := by
    simp [RLayers.layer, RLayers.reorder, hi]
  have hothers : ∀ l, l ≠ i → (g.reorder i nodes).layer l = g.layer l := by
    intro l hl
    simp only [RLayers.layer, RLayers.reorder]
    rw [List.getElem?_set_ne (Ne.symm hl)]
  have hsame := @RLayers.crossingsIn_congr g i (g.reorder i nodes) rfl hothers fromUp
  refine ⟨g.reorder i nodes, changed, ?_, ?_⟩
  · rw [layerSweep, hm]
    simp only [Option.bind_eq_bind, Option.bind_some, hloop]
  · refine ⟨rfl, ?_, ?_, ⟨List.length_set, hothers⟩, ?_, ?_, ?_⟩
    · rw [hnow]
      exact hperm
    · intro j u hj
      rw [hnow] at hj
      rw [RLayers.pos, RLayers.reorder, placeNodes_posInLayer hnd hj, Nat.zero_add]
    · intro u
      exact ⟨placeNodes_toRANode 0 nodes g.data u,
        fun hu => placeNodes_of_not_mem (fun hm => hu (hperm.mem_iff.mp hm)) 0 g.data⟩
    · rw [hsame, hnow, g.crossingsIn_eq i fromUp hnd,
        g.crossingsIn_eq i fromUp (h.nodup i)]
      exact hcost.1
    · rw [hsame, hnow, g.crossingsIn_eq i fromUp hnd,
        g.crossingsIn_eq i fromUp (h.nodup i)]
      exact hcost.2

theorem layerSweep_iff (h : g.IsLayered) (hi : i < g.layers.length) :
    (∃ g' changed, layerSweep g g.layers.length i fromUp = some (g', changed) ∧ Swept g i fromUp g' changed) ↔
      g.PairsFit i fromUp := by
  constructor
  · rintro ⟨g', changed, hsweep, -⟩
    by_contra hfit
    rw [layerSweep, getCrossingMatrix_none h hfit] at hsweep
    cases hsweep
  · exact layerSweep_swept h hi

/-- Two layers of two nodes: `a` and `b` are the edges of the upper ones, the lower ones are 2 and 3. -/
def pairLayers (a b : List Nat) : RLayers :=
  { graph :=
      { rGraphNew with
        mem := fun n => [RGraphNode.mk 0 a [] a, ⟨1, b, [], b⟩, ⟨2, [], [], []⟩, ⟨3, [], [], []⟩][n]? }
    data := fun n => ⟨⟨if n < 2 then 0 else 1, false, false, 1⟩, n % 2⟩
    layers := [[0, 1], [2, 3]] }

theorem pairLayers_isLayered {a b : List Nat} (ha : ∀ v ∈ a, v = 2 ∨ v = 3) (hb : ∀ v ∈ b, v = 2 ∨ v = 3) :
    (pairLayers a b).IsLayered := by
  have hlow : (pairLayers a b).layer 1 = [2, 3] := rfl
  have hnone : ∀ l, (pairLayers a b).layer (l + 2) = [] := fun _ => rfl
  refine ⟨?_, ?_, ?_⟩
  · intro l u hu
    match l with
    | 0 => rcases List.mem_pair.mp hu with rfl | rfl <;> rfl
    | 1 => rcases List.mem_pair.mp hu with rfl | rfl <;> rfl
    | l + 2 => rw [hnone] at hu; cases hu
  · intro l j u hj
    match l, j with
    | 0, 0 => cases hj; rfl
    | 0, 1 => cases hj; rfl
    | 0, j + 2 => cases hj
    | 1, 0 => cases hj; rfl
    | 1, 1 => cases hj; rfl
    | 1, j + 2 => cases hj
    | l + 2, j => rw [hnone] at hj; cases hj
  · intro l u hu v hv
    match l with
    | 0 =>
      rw [hlow, List.mem_pair]
      rcases List.mem_pair.mp hu with rfl | rfl
      · exact ha v hv
      · exact hb v hv
    | 1 => rcases List.mem_pair.mp hu with rfl | rfl <;> cases hv
    | l + 2 => rw [hnone] at hu; cases hu

theorem layerSweep_iff_tangled :
    (∃ g' changed, layerSweep (pairLayers [3] [2]) 2 1 true = some (g', changed) ∧
      Swept (pairLayers [3] [2]) 1 true g' changed) ↔ (pairLayers [3] [2]).PairsFit 1 true :=
  layerSweep_iff (pairLayers_isLayered (by decide) (by decide)) (by decide)

theorem pairLayers_overflow {a b : List Nat} (h : (pairLayers a b).IsLayered)
    (hover : intMax < (b.count 3 * a.count 2 : Nat)) : layerSweep (pairLayers a b) 2 1 true = none := by
  have hcross : (pairLayers a b).crossingsIn 1 true [3, 2] = b.count 3 * a.count 2 :=
    (crossings_pair _ _ 3 2).trans (count_edgePairs _ _ 3 2)
  have hfit : ¬(pairLayers a b).PairsFit 1 true := by
    intro hfit
    have hlow : (pairLayers a b).layer 1 = [2, 3] := rfl
    have hle := hfit 3 (by rw [hlow]; decide) 2 (by rw [hlow]; decide) (by decide)
    rw [hcross] at hle
    omega
  have hnone : getCrossingMatrix (pairLayers a b) 2 1 true = none := getCrossingMatrix_none h hfit
  rw [layerSweep, hnone]
  rfl

/-- Parallel edges that do not cross, but would 46341 * 46341 times with the lower nodes changed. -/
theorem layerSweep_parallel :
    (pairLayers (List.replicate 46341 2) (List.replicate 46341 3)).IsLayered ∧
      layerSweep (pairLayers (List.replicate 46341 2) (List.replicate 46341 3)) 2 1 true = none := by
  have hlayered : (pairLayers (List.replicate 46341 2) (List.replicate 46341 3)).IsLayered :=
    pairLayers_isLayered (fun v hv => Or.inl (List.eq_of_mem_replicate hv))
      (fun v hv => Or.inr (List.eq_of_mem_replicate hv))
  refine ⟨hlayered, pairLayers_overflow hlayered ?_⟩
  rw [List.count_replicate_self, List.count_replicate_self]
  decide

end Radare
