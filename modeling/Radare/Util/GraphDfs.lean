import Radare.Framework.DepthFirstRun
import Radare.Util.GraphRep

namespace Radare

open Framework Framework.DepthFirst

/-- `RGraphEdge`; on the stack of a search one without `to` waits to finish `from`. -/
structure RGraphEdge where
  from_ : Option Nat
  to_ : Option Nat
  nth : Int
  deriving DecidableEq

def RGraphEdge.src (e : RGraphEdge) : Nat := e.from_.getD 0

def RGraphEdge.dst (e : RGraphEdge) : Nat := e.to_.getD 0

/-- `RStack`: the elements up to `top`, the top first, and the allocated size. -/
structure RStack where
  elems : List RGraphEdge
  nElems : Ut32

def RStack.top (s : RStack) : Int := (s.elems.length : Int) - 1

def rStackNew (n : Ut32) : RStack := ⟨[], n⟩

/-- `r_stack_push`; `none` for a write behind the array or a `top` that runs over. -/
def rStackPush (s : RStack) (el : RGraphEdge) : Option RStack :=
  let nElems := if BitVec.ofInt 32 s.top = s.nElems - 1 then s.nElems * 2 else s.nElems
  if s.top + 1 < 2147483648 ∧ s.top + 1 < nElems.toNat then some ⟨el :: s.elems, nElems⟩ else none

/-- What `dfs_node` works on: its stack, the `color` array and the calls of the visitor so far. -/
structure DfsState where
  stack : RStack
  color : Nat → Color
  log : List (Visit Nat RGraphEdge)

/-- The place of a node in the `color` array, which has `last_index` elements. -/
def colorIndex (g : RGraph) (n : Nat) : Option Nat := do
  let x ← g.mem n
  if (x.idx.toNat : Int) < g.lastIndex then some x.idx.toNat else none

/-- The visitor's part of a turn, with all its callbacks set; a finish marker colours its node. -/
def dfsReport (g : RGraph) (curEdge : RGraphEdge) (d : DfsState) : Option DfsState :=
  match curEdge.from_, curEdge.to_ with
  | some _, some cur => do
    let k ← colorIndex g cur
    match d.color k with
    | .white => some { d with log := d.log ++ [.tree curEdge] }
    | .gray => some { d with log := d.log ++ [.back curEdge] }
    | .black => some { d with log := d.log ++ [.cross curEdge] }
  | some from_, none => do
    let k ← colorIndex g from_
    some { d with
      color := Function.update d.color k .black
      log := if d.color k = .black then d.log else d.log ++ [.finish from_] }
  | none, _ => some d

def pushNeighbours (cur : Nat) : List Nat → Int → RStack → Option RStack
  | [], _, s => some s
  | v :: it, i, s => do
    let s ← rStackPush s ⟨some cur, some v, i⟩
    pushNeighbours cur it (wrapInt (i + 1)) s

/-- The rest of a turn: a white node is discovered. -/
def dfsDiscover (g : RGraph) (to_ : Option Nat) (d : DfsState) : Option DfsState :=
  match to_ with
  | none => some d
  | some cur => do
    let k ← colorIndex g cur
    if d.color k ≠ .white then some d
    else do
      let s ← rStackPush d.stack ⟨some cur, none, 0⟩
      let x ← g.mem cur
      let s ← pushNeighbours cur x.outNodes 0 s
      some ⟨s, Function.update d.color k .gray, d.log ++ [.discover cur]⟩

/-- The loop of `dfs_node`. -/
def dfsLoop (g : RGraph) : Nat → DfsState → Option DfsState
  | 0, _ => none
  | fuel + 1, d =>
    match d.stack.elems with
    | [] => some d
    | curEdge :: rest => do
      let d ← dfsReport g curEdge { d with stack := { d.stack with elems := rest } }
      let d ← dfsDiscover g curEdge.to_ d
      dfsLoop g fuel d

def dfsNode (g : RGraph) (fuel : Nat) (n : Nat) (color : Nat → Color) (log : List (Visit Nat RGraphEdge)) :
    Option DfsState := do
  let s ← rStackPush (rStackNew (2 * g.nEdges + 1)) ⟨none, some n, 0⟩
  dfsLoop g fuel ⟨s, color, log⟩

def dfsNodes (g : RGraph) (fuel : Nat) :
    List Nat → (Nat → Color) → List (Visit Nat RGraphEdge) → Option (List (Visit Nat RGraphEdge))
  | [], _, log => some log
  | n :: it, color, log => do
    let k ← colorIndex g n
    if color k = .white then do
      let d ← dfsNode g fuel n color log
      dfsNodes g fuel it d.color d.log
    else dfsNodes g fuel it color log

/-- `r_graph_dfs`: the calls it makes to the visitor. A negative `last_index` is no size for the
`color` array, and nothing is visited. -/
def rGraphDfs (fuel : Nat) (g : RGraph) : Option (List (Visit Nat RGraphEdge)) :=
  if g.lastIndex < 0 then some []
  else dfsNodes g fuel g.nodes (fun _ => .white) []

/-- The edges that leave a node, each with its place among them. -/
def RGraph.edgesOf (g : RGraph) (n : Nat) : List RGraphEdge :=
  (g.out n).mapIdx (fun i v => ⟨some n, some v, i⟩)

def RGraph.occurrences (g : RGraph) : List RGraphEdge := g.nodes.flatMap g.edgesOf

/-- What an element of the stack is to the search. -/
def ofFrame : Frame Nat RGraphEdge → RGraphEdge
  | .edge e => e
  | .close n => ⟨some n, none, 0⟩

/-- The C state follows a state of the search. -/
structure DfsState.Follows (g : RGraph) (d : DfsState) (s : Search Nat RGraphEdge) : Prop where
  stack : d.stack.elems = s.stack.map ofFrame
  size : d.stack.nElems = 2 * g.nEdges + 1
  color : ∀ n ∈ g.nodes, d.color (g.idx n) = s.color n
  log : d.log = s.log

theorem length_edgesOf (g : RGraph) (n : Nat) : (g.edgesOf n).length = (g.out n).length := List.length_mapIdx

theorem mem_edgesOf {g : RGraph} {n : Nat} {e : RGraphEdge} (he : e ∈ g.edgesOf n) :
    ∃ v ∈ g.out n, ∃ i : Nat, e = ⟨some n, some v, i⟩ := by
  obtain ⟨i, hi, rfl⟩ := List.mem_mapIdx.mp he
  exact ⟨(g.out n)[i], List.getElem_mem hi, i, rfl⟩

theorem edgesOf_src (g : RGraph) (n : Nat) : ∀ e ∈ g.edgesOf n, e.src = n := by
  intro e he
  obtain ⟨v, -, i, rfl⟩ := mem_edgesOf he
  rfl

theorem length_occurrences (g : RGraph) : g.occurrences.length = edgeTotal g.nodes g.out := by
  rw [RGraph.occurrences, List.length_flatMap, edgeTotal]
  exact congrArg List.sum (List.map_congr_left (fun n _ => length_edgesOf g n))

theorem nodup_edgesOf (g : RGraph) (n : Nat) : (g.edgesOf n).Nodup := by
  rw [RGraph.edgesOf, List.nodup_iff_injective_getElem]
  intro i j hij
  simp only [List.getElem_mapIdx, RGraphEdge.mk.injEq] at hij
  exact Fin.ext (by exact_mod_cast hij.2.2)

theorem nodup_occurrences {g : RGraph} (hnd : g.nodes.Nodup) : g.occurrences.Nodup := by
  rw [RGraph.occurrences, List.nodup_flatMap]
  refine ⟨fun n _ => nodup_edgesOf g n, hnd.imp ?_⟩
  intro m n hmn e hm hn
  exact hmn ((edgesOf_src g m e hm).symm.trans (edgesOf_src g n e hn))

section Stack

theorem rStackPush_eq {s : RStack} (hcap : s.elems.length < s.nElems.toNat)
    (htop : s.elems.length < 2147483648) (el : RGraphEdge) :
    rStackPush s el = some ⟨el :: s.elems, s.nElems⟩ := by
  have hne : BitVec.ofInt 32 s.top ≠ s.nElems - 1 := by
    intro he
    have hnat := congrArg BitVec.toNat he
    have hlt := s.nElems.isLt
    have hone : BitVec.toNat (1 : Ut32) = 1 := rfl
    rw [BitVec.toNat_ofInt, BitVec.toNat_sub, hone, RStack.top] at hnat
    omega
  rw [rStackPush, if_neg hne]
  rw [if_pos]
  rw [RStack.top]
  omega

theorem pushNeighbours_eq (cur : Nat) (it : List Nat) (i : Nat) (s : RStack)
    (hcap : s.elems.length + it.length ≤ s.nElems.toNat) (htop : s.elems.length + it.length ≤ 2147483648)
    (hi : i + it.length < 2147483648) :
    pushNeighbours cur it i s =
      some ⟨(it.mapIdx (fun k v => (⟨some cur, some v, (i + k : Nat)⟩ : RGraphEdge))).reverse ++ s.elems,
        s.nElems⟩ := by
  induction it generalizing i s with
  | nil => rfl
  | cons v it ih =>
    rw [List.length_cons] at hcap htop hi
    rw [pushNeighbours, rStackPush_eq (by omega) (by omega), Option.bind_eq_bind, Option.bind_some,
      wrapInt_of_range (by omega) (by omega)]
    have hrec := ih (i + 1) ⟨⟨some cur, some v, i⟩ :: s.elems, s.nElems⟩
      (by simp only [List.length_cons]; omega) (by simp only [List.length_cons]; omega) (by omega)
    push_cast at hrec ⊢
    rw [hrec, List.mapIdx_cons, List.reverse_cons, List.append_assoc]
    simp only [Nat.cast_zero, add_zero, List.singleton_append, Nat.cast_add, Nat.cast_one]
    congr 5
    funext k w
    congr 1
    omega

end Stack

variable {g : RGraph} {d : DfsState} {s : Search Nat RGraphEdge} {path : List Nat}

theorem colorIndex_eq (h : g.Ok) {n : Nat} (hn : n ∈ g.nodes) : colorIndex g n = some (g.idx n) := by
  obtain ⟨x, hx⟩ := Option.isSome_iff_exists.mp (h.live n hn)
  have hlt := h.idxLt n hn
  rw [RGraph.idx_eq hx] at hlt ⊢
  simp only [colorIndex, hx, Option.bind_eq_bind, Option.bind_some]
  rw [if_pos hlt]

/-- A node changes its colour in the array as it does in the search. -/
theorem color_update (h : g.Ok) (hc : ∀ n ∈ g.nodes, d.color (g.idx n) = s.color n) {n : Nat}
    (hn : n ∈ g.nodes) (c : Color) :
    ∀ m ∈ g.nodes, Function.update d.color (g.idx n) c (g.idx m) = Function.update s.color n c m := by
  intro m hm
  by_cases hmn : m = n
  · rw [hmn, Function.update_self, Function.update_self]
  · rw [Function.update_of_ne hmn, Function.update_of_ne (fun he => hmn (h.idxInj m hm n hn he))]
    exact hc m hm

theorem nElems_toNat (h : g.Ok) (hfew : edgeTotal g.nodes g.out < 2147483648) :
    (2 * g.nEdges + 1 : Ut32).toNat = 2 * edgeTotal g.nodes g.out + 1 := by
  have hone : BitVec.toNat (1 : Ut32) = 1 := rfl
  have htwo : BitVec.toNat (2 : Ut32) = 2 := rfl
  rw [BitVec.toNat_add, BitVec.toNat_mul, h.nEdges, hone, htwo]
  omega

/-- A white node is discovered. -/
theorem dfsDiscover_white (h : g.Ok) (hfew : edgeTotal g.nodes g.out < 2147483648) (hf : d.Follows g s)
    {n : Nat} (hn : n ∈ g.nodes) (hw : s.color n = .white)
    (hroom : (s.enter g.edgesOf n).stack.length ≤ edgeTotal g.nodes g.out + 1) :
    ∃ d', dfsDiscover g (some n) d = some d' ∧ d'.Follows g (s.enter g.edgesOf n) := by
  obtain ⟨x, hx⟩ := Option.isSome_iff_exists.mp (h.live n hn)
  have hcap := nElems_toNat h hfew
  have hlen : d.stack.elems.length = s.stack.length := by rw [hf.stack, List.length_map]
  have hout : (g.edgesOf n).length = x.outNodes.length := by rw [length_edgesOf, RGraph.out_eq hx]
  have hroom' : s.stack.length + 1 + x.outNodes.length ≤ edgeTotal g.nodes g.out + 1 := by
    rw [Search.enter, List.length_append, List.length_map, List.length_reverse, List.length_cons, hout] at hroom
    omega
  refine ⟨⟨⟨(x.outNodes.mapIdx (fun k v => (⟨some n, some v, (0 + k : Nat)⟩ : RGraphEdge))).reverse ++
    ⟨some n, none, 0⟩ :: d.stack.elems, d.stack.nElems⟩, Function.update d.color (g.idx n) .gray,
    d.log ++ [.discover n]⟩, ?_, ?_, hf.size, color_update h hf.color hn .gray, ?_⟩
  · have hpush := pushNeighbours_eq n x.outNodes 0 ⟨⟨some n, none, 0⟩ :: d.stack.elems, d.stack.nElems⟩
      (by rw [List.length_cons, hlen, hf.size, hcap]; omega) (by rw [List.length_cons, hlen]; omega) (by omega)
    rw [dfsDiscover, colorIndex_eq h hn]
    simp only [Option.bind_eq_bind, Option.bind_some, hf.color n hn, hw, ne_eq, not_true_eq_false, if_false]
    rw [rStackPush_eq (by rw [hlen, hf.size, hcap]; omega) (by omega)]
    simp only [Option.bind_some, hx]
    rw [Nat.cast_zero] at hpush
    rw [hpush]
    rfl
  · simp only [Search.enter, List.map_append, List.map_map, List.map_cons, hf.stack, ofFrame, RGraph.edgesOf,
      RGraph.out_eq hx, Nat.zero_add]
    congr 1
    exact (List.map_id _).symm
  · rw [Search.enter, hf.log]

theorem dfsDiscover_other (h : g.Ok) (hf : d.Follows g s) {n : Nat} (hn : n ∈ g.nodes)
    (hw : s.color n ≠ .white) : dfsDiscover g (some n) d = some d := by
  rw [dfsDiscover, colorIndex_eq h hn]
  simp only [Option.bind_eq_bind, Option.bind_some, hf.color n hn, ne_eq, hw, not_false_eq_true, if_true]

/-- What is known between two turns. -/
structure Running (g : RGraph) (s : Search Nat RGraphEdge) (path : List Nat) : Prop where
  inv : Inv g.edgesOf RGraphEdge.src RGraphEdge.dst s path
  within : Within g.nodes g.edgesOf RGraphEdge.dst s

theorem Running.step (h : Running g s path) : ∃ path', Running g (s.step g.edgesOf RGraphEdge.dst) path' := by
  obtain ⟨path', hinv⟩ := h.inv.step (edgesOf_src g)
  exact ⟨path', hinv, Within.step h.inv h.within⟩

theorem Running.stack_length_le (h : Running g s path) :
    s.stack.length ≤ edgeTotal g.nodes g.out + 1 := by
  rw [← length_occurrences]
  exact h.inv.stack_length_le h.within

/-- A node on the stack of the search, or at the end of an edge there, is a node of the graph. -/
theorem Running.edge (h : Running g s path) {e : RGraphEdge} (he : e ∈ pending s.stack) :
    ∃ u ∈ g.nodes, ∃ v ∈ g.nodes, ∃ i : Nat, e = ⟨some u, some v, i⟩ := by
  obtain ⟨n, hn, hen⟩ := h.inv.edge_mem h.within (Or.inr he)
  obtain ⟨v, -, i, rfl⟩ := mem_edgesOf hen
  exact ⟨n, hn, v, h.within.closed n hn _ hen, i, rfl⟩

theorem Running.close (h : Running g s path) {n : Nat} {rest : List (Frame Nat RGraphEdge)}
    (hs : s.stack = .close n :: rest) : n ∈ g.nodes := by
  obtain ⟨ps, hps, -⟩ := h.inv.finish hs
  have hopen := (h.inv.open_ n).mp (by rw [hps]; exact List.mem_cons_self)
  exact h.within.met n hopen.1

/-- One turn of the loop is one of the search. -/
theorem dfsTurn_eq (hok : g.Ok) (hfew : edgeTotal g.nodes g.out < 2147483648) (h : Running g s path)
    (hf : d.Follows g s) {f : Frame Nat RGraphEdge} {rest : List (Frame Nat RGraphEdge)}
    (hs : s.stack = f :: rest) :
    ∃ d1 d2, dfsReport g (ofFrame f) { d with stack := { d.stack with elems := rest.map ofFrame } } = some d1 ∧
      dfsDiscover g (ofFrame f).to_ d1 = some d2 ∧ d2.Follows g (s.step g.edgesOf RGraphEdge.dst) := by
  obtain ⟨path', hnext⟩ := h.step
  have hroom := hnext.stack_length_le
  cases f with
  | edge e =>
    obtain ⟨u, hu, v, hv, i, rfl⟩ := h.edge (e := e) (by rw [hs]; exact List.mem_cons_self)
    have hcolor := hf.color v hv
    cases hc : s.color v with
    | white =>
      rw [Search.step_white hs hc] at hroom ⊢
      rw [hc] at hcolor
      obtain ⟨d2, hd2, hf2⟩ := dfsDiscover_white hok hfew
        (d := ⟨⟨rest.map ofFrame, d.stack.nElems⟩, d.color, d.log ++ [.tree ⟨some u, some v, i⟩]⟩)
        (s := ⟨s.color, rest, s.log ++ [.tree ⟨some u, some v, i⟩]⟩)
        ⟨rfl, hf.size, hf.color, by rw [hf.log]⟩ hv hc hroom
      refine ⟨_, d2, ?_, hd2, hf2⟩
      simp only [dfsReport, ofFrame, colorIndex_eq hok hv, Option.bind_eq_bind, Option.bind_some, hcolor]
    | gray =>
      rw [Search.step_gray hs hc]
      rw [hc] at hcolor
      have hf1 : DfsState.Follows g
          ⟨⟨rest.map ofFrame, d.stack.nElems⟩, d.color, d.log ++ [.back ⟨some u, some v, i⟩]⟩
          ⟨s.color, rest, s.log ++ [.back ⟨some u, some v, i⟩]⟩ := ⟨rfl, hf.size, hf.color, by rw [hf.log]⟩
      refine ⟨_, _, ?_, dfsDiscover_other hok hf1 hv (by rw [hc]; exact nofun), hf1⟩
      simp only [dfsReport, ofFrame, colorIndex_eq hok hv, Option.bind_eq_bind, Option.bind_some, hcolor]
    | black =>
      rw [Search.step_black hs hc]
      rw [hc] at hcolor
      have hf1 : DfsState.Follows g
          ⟨⟨rest.map ofFrame, d.stack.nElems⟩, d.color, d.log ++ [.cross ⟨some u, some v, i⟩]⟩
          ⟨s.color, rest, s.log ++ [.cross ⟨some u, some v, i⟩]⟩ := ⟨rfl, hf.size, hf.color, by rw [hf.log]⟩
      refine ⟨_, _, ?_, dfsDiscover_other hok hf1 hv (by rw [hc]; exact nofun), hf1⟩
      simp only [dfsReport, ofFrame, colorIndex_eq hok hv, Option.bind_eq_bind, Option.bind_some, hcolor]
  | close n =>
    have hn := h.close hs
    obtain ⟨ps, hps, -⟩ := h.inv.finish hs
    have hgray : d.color (g.idx n) ≠ .black := by
      rw [hf.color n hn, (h.inv.gray_iff n).mpr (by rw [hps]; exact List.mem_cons_self)]
      exact nofun
    rw [Search.step_close hs]
    refine ⟨⟨⟨rest.map ofFrame, d.stack.nElems⟩, Function.update d.color (g.idx n) .black,
      d.log ++ [.finish n]⟩, _, ?_, rfl, ?_⟩
    · simp only [dfsReport, ofFrame, colorIndex_eq hok hn, Option.bind_eq_bind, Option.bind_some, if_neg hgray]
    · exact ⟨rfl, hf.size, color_update hok hf.color hn .black, by rw [hf.log]⟩

/-- The loop empties the stack, whatever fuel is left over. -/
theorem dfsLoop_spec (hok : g.Ok) (hfew : edgeTotal g.nodes g.out < 2147483648) (k : Nat)
    (h : Running g s path) (hf : d.Follows g s)
    (hk : edgeTotal g.nodes g.out + g.nodes.length < turns s.log + k) :
    ∃ d' s', (∀ fuel, k ≤ fuel → dfsLoop g fuel d = some d') ∧ d'.Follows g s' ∧ Running g s' [] ∧
      s'.stack = [] ∧ ∀ n ∈ discovered s.log, n ∈ discovered s'.log := by
  induction k generalizing d s path with
  | zero =>
    have hle := h.inv.turns_le h.within
    have hlen : (g.nodes.flatMap g.edgesOf).length = edgeTotal g.nodes g.out := length_occurrences g
    omega
  | succ k ih =>
    cases hs : s.stack with
    | nil =>
      have hpath : path = [] := by
        have hon := h.inv.onPath
        rw [hs] at hon
        cases hon
        rfl
      rw [hpath] at h
      refine ⟨d, s, ?_, hf, h, hs, fun n hn => hn⟩
      intro fuel hfuel
      obtain ⟨m, rfl⟩ : ∃ m, fuel = m + 1 := ⟨fuel - 1, by omega⟩
      rw [dfsLoop, hf.stack, hs]
      rfl
    | cons f rest =>
      obtain ⟨d1, d2, hreport, hdiscover, hf2⟩ := dfsTurn_eq hok hfew h hf hs
      obtain ⟨path', hnext⟩ := h.step
      have hturns : turns (s.step g.edgesOf RGraphEdge.dst).log = turns s.log + 1 :=
        turns_step (by rw [hs]; exact List.cons_ne_nil _ _)
      obtain ⟨d', s', hrun, hf', hr', hs', hmono⟩ := ih hnext hf2 (by omega)
      refine ⟨d', s', ?_, hf', hr', hs', ?_⟩
      · intro fuel hfuel
        obtain ⟨m, rfl⟩ : ∃ m, fuel = m + 1 := ⟨fuel - 1, by omega⟩
        rw [dfsLoop, hf.stack, hs, List.map_cons]
        simp only [hreport, Option.bind_eq_bind, Option.bind_some, hdiscover]
        exact hrun m (by omega)
      · intro n hn
        obtain ⟨l, hl⟩ : ∃ l, (s.step g.edgesOf RGraphEdge.dst).log = s.log ++ l := log_step
        apply hmono
        rw [hl, discovered_append]
        exact List.mem_append_left _ hn

/-- A search from a white node. -/
theorem dfsNode_spec (hok : g.Ok) (hfew : edgeTotal g.nodes g.out < 2147483648) (h : Running g s [])
    (hs : s.stack = []) {color : Nat → Color} (hc : ∀ n ∈ g.nodes, color (g.idx n) = s.color n) {n : Nat}
    (hn : n ∈ g.nodes) (hw : s.color n = .white) :
    ∃ d' s', (∀ fuel, edgeTotal g.nodes g.out + g.nodes.length + 2 ≤ fuel →
        dfsNode g fuel n color s.log = some d') ∧ d'.Follows g s' ∧ Running g s' [] ∧ s'.stack = [] ∧
      (∀ m ∈ discovered s.log, m ∈ discovered s'.log) ∧ n ∈ discovered s'.log := by
  have hcap := nElems_toNat hok hfew
  have hrun1 : Running g (s.enter g.edgesOf n) [n] :=
    ⟨h.inv.enter_root (edgesOf_src g) hs ((h.inv.white_iff n).mp hw), h.within.enter hn⟩
  obtain ⟨d1, hdiscover, hf1⟩ := dfsDiscover_white hok hfew (d := ⟨rStackNew (2 * g.nEdges + 1), color, s.log⟩)
    (s := s) ⟨by rw [hs]; rfl, rfl, hc, rfl⟩ hn hw hrun1.stack_length_le
  obtain ⟨d', s', hrun, hf', hr', hs', hmono⟩ := dfsLoop_spec hok hfew
    (edgeTotal g.nodes g.out + g.nodes.length + 1) hrun1 hf1 (by omega)
  have hgrow : discovered (s.enter g.edgesOf n).log = discovered s.log ++ [n] := discovered_append _ _
  rw [hgrow] at hmono
  refine ⟨d', s', ?_, hf', hr', hs', fun m hm => hmono m (List.mem_append_left _ hm),
    hmono n (List.mem_append_right _ (List.mem_singleton_self n))⟩
  intro fuel hfuel
  obtain ⟨m, rfl⟩ : ∃ m, fuel = m + 1 := ⟨fuel - 1, by omega⟩
  have hzero : (rStackNew (2 * g.nEdges + 1)).elems.length = 0 := rfl
  rw [dfsNode, rStackPush_eq (by rw [hzero, rStackNew, hcap]; omega) (by rw [hzero]; omega)]
  simp only [Option.bind_eq_bind, Option.bind_some, dfsLoop, dfsReport]
  rw [show (⟨⟨(rStackNew (2 * g.nEdges + 1)).elems, (rStackNew (2 * g.nEdges + 1)).nElems⟩, color, s.log⟩ :
    DfsState) = ⟨rStackNew (2 * g.nEdges + 1), color, s.log⟩ from rfl, hdiscover, Option.bind_some]
  exact hrun m (by omega)

/-- The loop of `r_graph_dfs` over the nodes. -/
theorem dfsNodes_spec (hok : g.Ok) (hfew : edgeTotal g.nodes g.out < 2147483648) (it : List Nat)
    (hit : ∀ n ∈ it, n ∈ g.nodes) (h : Running g s []) (hs : s.stack = []) (color : Nat → Color)
    (hc : ∀ n ∈ g.nodes, color (g.idx n) = s.color n) :
    ∃ s', (∀ fuel, edgeTotal g.nodes g.out + g.nodes.length + 2 ≤ fuel →
        dfsNodes g fuel it color s.log = some s'.log) ∧ Running g s' [] ∧ s'.stack = [] ∧
      (∀ m ∈ discovered s.log, m ∈ discovered s'.log) ∧ ∀ n ∈ it, n ∈ discovered s'.log := by
  induction it generalizing s color with
  | nil => exact ⟨s, fun _ _ => rfl, h, hs, fun m hm => hm, nofun⟩
  | cons n it ih =>
    have hn := hit n List.mem_cons_self
    have hit' := fun m hm => hit m (List.mem_cons_of_mem n hm)
    by_cases hw : s.color n = .white
    · obtain ⟨d1, s1, hrun1, hf1, hr1, hs1, hmono1, hn1⟩ := dfsNode_spec hok hfew h hs hc hn hw
      obtain ⟨s', hrun, hr', hs', hmono, hall⟩ := ih hit' hr1 hs1 d1.color hf1.color
      refine ⟨s', ?_, hr', hs', fun m hm => hmono m (hmono1 m hm), ?_⟩
      · intro fuel hfuel
        rw [dfsNodes, colorIndex_eq hok hn]
        simp only [Option.bind_eq_bind, Option.bind_some, hc n hn, hw, if_true, hrun1 fuel hfuel, hf1.log]
        exact hrun fuel hfuel
      · intro m hm
        rcases List.mem_cons.mp hm with hm | hm
        · rw [hm]
          exact hmono n hn1
        · exact hall m hm
    · obtain ⟨s', hrun, hr', hs', hmono, hall⟩ := ih hit' h hs color hc
      refine ⟨s', ?_, hr', hs', hmono, ?_⟩
      · intro fuel hfuel
        rw [dfsNodes, colorIndex_eq hok hn]
        simp only [Option.bind_eq_bind, Option.bind_some, hc n hn, hw, if_false]
        exact hrun fuel hfuel
      · intro m hm
        rcases List.mem_cons.mp hm with hm | hm
        · have hd : n ∈ discovered s.log := by
            by_contra hno
            exact hw ((h.inv.white_iff n).mpr hno)
          rw [hm]
          exact hmono n hd
        · exact hall m hm

/-- What the visitor of a whole search has to see. -/
structure DfsRight (g : RGraph) (log : List (Visit Nat RGraphEdge)) : Prop where
  discover : ∀ n, log.count (.discover n) = if n ∈ g.nodes then 1 else 0
  finish : ∀ n, log.count (.finish n) = if n ∈ g.nodes then 1 else 0
  pass : ∀ e, log.count (.tree e) + log.count (.back e) + log.count (.cross e) =
    if e ∈ g.occurrences then 1 else 0
  tree : ∀ x y z, Tree RGraphEdge.src RGraphEdge.dst log x z → Tree RGraphEdge.src RGraphEdge.dst log y z → x = y
  back : ∀ e ∈ g.occurrences, Visit.back e ∈ log ↔ Anc RGraphEdge.src RGraphEdge.dst log e.dst e.src
  acyclic : ∀ a, ¬Relation.TransGen (Kept g.occurrences RGraphEdge.src RGraphEdge.dst log) a a
  topological : ∀ a b, Kept g.occurrences RGraphEdge.src RGraphEdge.dst log a b →
    (finished log).reverse.idxOf a < (finished log).reverse.idxOf b

theorem Running.dfsRight (hok : g.Ok) (h : Running g s []) (hs : s.stack = [])
    (hall : ∀ n ∈ g.nodes, n ∈ discovered s.log) : DfsRight g s.log := by
  have hc := h.inv.complete h.within hs hok.lists.nodup hall
  have hused : (used s.log).Perm g.occurrences := hc.used
  refine ⟨?_, ?_, ?_, hc.parent, hc.back, h.inv.acyclic hc, fun a b hk => h.inv.topological hc hk⟩
  · intro n
    rw [count_discover, hc.discovered.count_eq, hok.lists.nodup.count]
  · intro n
    rw [count_finish, hc.finished.count_eq, hok.lists.nodup.count]
  · intro e
    rw [count_used, hused.count_eq, (nodup_occurrences hok.lists.nodup).count]

theorem rGraphDfs_spec (hok : g.Ok) (hfew : edgeTotal g.nodes g.out < 2147483648) :
    ∃ log, (∀ fuel, edgeTotal g.nodes g.out + g.nodes.length + 2 ≤ fuel → rGraphDfs fuel g = some log) ∧
      DfsRight g log := by
  have hclosed : ∀ n ∈ g.nodes, ∀ e ∈ g.edgesOf n, e.dst ∈ g.nodes := by
    intro n hn e he
    obtain ⟨v, hv, i, rfl⟩ := mem_edgesOf he
    exact hok.lists.outMem n hn v hv
  have hstart : Running g ⟨fun _ => .white, [], []⟩ [] := ⟨Inv.start _ _ _, hclosed, nofun⟩
  obtain ⟨s', hrun, hr', hs', -, hall⟩ := dfsNodes_spec hok hfew g.nodes (fun n hn => hn) hstart rfl
    (fun _ => .white) (fun _ _ => rfl)
  refine ⟨s'.log, ?_, hr'.dfsRight hok hs' hall⟩
  intro fuel hfuel
  rw [rGraphDfs, if_neg (by have := hok.lastNonneg; omega)]
  exact hrun fuel hfuel

/-- The graph of every history of calls made while its counters have room is searched as it should
be, as long as it has less than `2^31` edges. -/
theorem graph_dfs_right (ops : List GraphOp) (hroom : rGraphNew.RunHasRoom ops) :
    ∃ g, rGraphNew.run ops = some g ∧ (edgeTotal g.nodes g.out < 2147483648 →
      ∃ log, (∀ fuel, edgeTotal g.nodes g.out + g.nodes.length + 2 ≤ fuel → rGraphDfs fuel g = some log) ∧
        DfsRight g log) := by
  obtain ⟨g, hrun, hok⟩ := RGraph.Ok.new.run ops hroom
  exact ⟨g, hrun, rGraphDfs_spec hok⟩

/-- A loop, a cycle and parallel edges. -/
theorem graph_dfs_right_cycle : ∃ g, rGraphNew.run
      [.addNode, .addNode, .addEdge 0 1, .addEdge 0 1, .addEdge 1 0, .addEdge 1 1] = some g ∧
    ∃ log, (∀ fuel, 8 ≤ fuel → rGraphDfs fuel g = some log) ∧ DfsRight g log := by
  obtain ⟨g, hrun, hdfs⟩ := graph_dfs_right
    [.addNode, .addNode, .addEdge 0 1, .addEdge 0 1, .addEdge 1 0, .addEdge 1 1] (by
      apply RGraph.runHasRoom_cons (by decide) rfl
      apply RGraph.runHasRoom_cons (by decide) rfl
      apply RGraph.runHasRoom_cons (by decide) rfl
      apply RGraph.runHasRoom_cons (by decide) rfl
      apply RGraph.runHasRoom_cons (by decide) rfl
      exact RGraph.runHasRoom_cons (by decide) rfl trivial)
  obtain ⟨log, hlog, hright⟩ := hdfs (by cases hrun; decide)
  refine ⟨g, hrun, log, ?_, hright⟩
  intro fuel hfuel
  apply hlog
  cases hrun
  exact hfuel

/-- After `int last_index` ran over the search does not visit the node there is. -/
theorem graph_dfs_skips_node : ∃ g, rGraphNew.run
      ((List.replicate 2147483647 [.addNode, .delNode 0]).flatten ++ [.addNode]) = some g ∧
    ∀ fuel, ∃ log, rGraphDfs fuel g = some log ∧ ¬DfsRight g log := by
  rw [RGraph.run_append, drainedGraph_run 2147483647 (by omega), Option.bind_some]
  refine ⟨rGraphAddNode (drainedGraph 2147483647), rfl, fun fuel => ⟨[], rfl, fun h => ?_⟩⟩
  have hmem : 2147483647 ∈ (rGraphAddNode (drainedGraph 2147483647)).nodes := List.mem_singleton_self _
  have hcount := h.discover 2147483647
  rw [if_pos hmem] at hcount
  cases hcount

end Radare
