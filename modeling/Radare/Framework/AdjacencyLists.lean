import Mathlib.Algebra.BigOperators.Group.List.Basic
import Mathlib.Algebra.GroupWithZero.Nat
import Mathlib.Data.List.Nodup
import Mathlib.Data.List.Perm.Basic

namespace Radare.Framework

variable {ι : Type} [DecidableEq ι] {nodes : List ι} {out inn all out' inn' all' : ι → List ι}

/-- The lists of a directed graph with parallel edges and loops: what a node points to, what points
to it, and both together. -/
structure Adjacency (nodes : List ι) (out inn all : ι → List ι) : Prop where
  nodup : nodes.Nodup
  mirror : ∀ u ∈ nodes, ∀ v ∈ nodes, (out u).count v = (inn v).count u
  split : ∀ u ∈ nodes, (all u).Perm (out u ++ inn u)
  outMem : ∀ u ∈ nodes, ∀ v ∈ out u, v ∈ nodes
  inMem : ∀ u ∈ nodes, ∀ v ∈ inn u, v ∈ nodes

/-- The number of edges. -/
def edgeTotal (nodes : List ι) (out : ι → List ι) : Nat := (nodes.map (fun u => (out u).length)).sum

/-- The second family of lists is the first with an edge from `a` to `b` added somewhere. -/
structure EdgeAdded (nodes : List ι) (a b : ι) (out inn all out' inn' all' : ι → List ι) : Prop where
  out : ∀ w ∈ nodes, (out' w).Perm ((if w = a then [b] else []) ++ out w)
  inn : ∀ w ∈ nodes, (inn' w).Perm ((if w = b then [a] else []) ++ inn w)
  all : ∀ w ∈ nodes, (all' w).Perm ((if w = a then [b] else []) ++ (if w = b then [a] else []) ++ all w)

theorem Adjacency.all_mem (h : Adjacency nodes out inn all) {u v : ι} (hu : u ∈ nodes) (hv : v ∈ all u) :
    v ∈ nodes := by
  have hmem := (h.split u hu).mem_iff.mp hv
  rcases List.mem_append.mp hmem with ho | hi
  · exact h.outMem u hu v ho
  · exact h.inMem u hu v hi

theorem count_if_singleton (p : Prop) [Decidable p] (x y : ι) :
    (if p then [x] else []).count y = if p ∧ x = y then 1 else 0 := by
  by_cases hp : p
  · by_cases hx : x = y
    · simp [hp, hx]
    · simp [hp, hx]
  · simp [hp]

theorem perm_cancel {l l' xs ys : List ι} (h : l'.Perm (xs ++ ys ++ l)) {o o' i i' : List ι}
    (ho : o'.Perm (xs ++ o)) (hi : i'.Perm (ys ++ i)) : l'.Perm (o' ++ i') ↔ l.Perm (o ++ i) := by
  simp only [List.perm_iff_count] at h ho hi ⊢
  constructor
  · intro hl a
    have h1 := h a
    have h2 := ho a
    have h3 := hi a
    have h4 := hl a
    simp only [List.count_append] at *
    omega
  · intro hl a
    have h1 := h a
    have h2 := ho a
    have h3 := hi a
    have h4 := hl a
    simp only [List.count_append] at *
    omega

/-- An edge may be added or taken away. -/
theorem Adjacency.edge_iff {a b : ι} (ha : a ∈ nodes) (hb : b ∈ nodes)
    (h : EdgeAdded nodes a b out inn all out' inn' all') :
    Adjacency nodes out inn all ↔ Adjacency nodes out' inn' all' := by
  have hout : ∀ u ∈ nodes, ∀ v, (out' u).count v = (if u = a ∧ b = v then 1 else 0) + (out u).count v := by
    intro u hu v
    rw [(h.out u hu).count_eq, List.count_append, count_if_singleton]
  have hinn : ∀ u ∈ nodes, ∀ v, (inn' v).count u = (if v = b ∧ a = u then 1 else 0) + (inn v).count u ∨
      v ∉ nodes := by
    intro u hu v
    by_cases hv : v ∈ nodes
    · left
      rw [(h.inn v hv).count_eq, List.count_append, count_if_singleton]
    · exact Or.inr hv
  have hmirror : ∀ u ∈ nodes, ∀ v ∈ nodes,
      ((out' u).count v = (inn' v).count u ↔ (out u).count v = (inn v).count u) := by
    intro u hu v hv
    have h1 := hout u hu v
    have h2 := (hinn u hu v).resolve_right (fun hn => hn hv)
    by_cases hua : u = a
    · by_cases hvb : v = b
      · subst hua
        subst hvb
        simp only [and_self, if_true] at h1 h2
        omega
      · have hne : ¬(u = a ∧ b = v) := fun hn => hvb hn.2.symm
        have hne' : ¬(v = b ∧ a = u) := fun hn => hvb hn.1
        rw [if_neg hne] at h1
        rw [if_neg hne'] at h2
        omega
    · have hne : ¬(u = a ∧ b = v) := fun hn => hua hn.1
      have hne' : ¬(v = b ∧ a = u) := fun hn => hua hn.2.symm
      rw [if_neg hne] at h1
      rw [if_neg hne'] at h2
      omega
  have hsplit : ∀ u ∈ nodes, ((all' u).Perm (out' u ++ inn' u) ↔ (all u).Perm (out u ++ inn u)) :=
    fun u hu => perm_cancel (h.all u hu) (h.out u hu) (h.inn u hu)
  have houtMem : ∀ u ∈ nodes, (∀ v ∈ out' u, v ∈ nodes) ↔ ∀ v ∈ out u, v ∈ nodes := by
    intro u hu
    have hmem : ∀ v, v ∈ out' u ↔ v ∈ (if u = a then [b] else []) ∨ v ∈ out u := by
      intro v
      rw [(h.out u hu).mem_iff, List.mem_append]
    constructor
    · intro hall v hv
      exact hall v ((hmem v).mpr (Or.inr hv))
    · intro hall v hv
      rcases (hmem v).mp hv with hv | hv
      · split_ifs at hv
        · rw [List.mem_singleton.mp hv]
          exact hb
        · cases hv
      · exact hall v hv
  have hinMem : ∀ u ∈ nodes, (∀ v ∈ inn' u, v ∈ nodes) ↔ ∀ v ∈ inn u, v ∈ nodes := by
    intro u hu
    have hmem : ∀ v, v ∈ inn' u ↔ v ∈ (if u = b then [a] else []) ∨ v ∈ inn u := by
      intro v
      rw [(h.inn u hu).mem_iff, List.mem_append]
    constructor
    · intro hall v hv
      exact hall v ((hmem v).mpr (Or.inr hv))
    · intro hall v hv
      rcases (hmem v).mp hv with hv | hv
      · split_ifs at hv
        · rw [List.mem_singleton.mp hv]
          exact ha
        · cases hv
      · exact hall v hv
  constructor
  · intro hadj
    exact ⟨hadj.nodup, fun u hu v hv => (hmirror u hu v hv).mpr (hadj.mirror u hu v hv),
      fun u hu => (hsplit u hu).mpr (hadj.split u hu), fun u hu => (houtMem u hu).mpr (hadj.outMem u hu),
      fun u hu => (hinMem u hu).mpr (hadj.inMem u hu)⟩
  · intro hadj
    exact ⟨hadj.nodup, fun u hu v hv => (hmirror u hu v hv).mp (hadj.mirror u hu v hv),
      fun u hu => (hsplit u hu).mp (hadj.split u hu), fun u hu => (houtMem u hu).mp (hadj.outMem u hu),
      fun u hu => (hinMem u hu).mp (hadj.inMem u hu)⟩

theorem sum_indicator (hnd : nodes.Nodup) {a : ι} (ha : a ∈ nodes) :
    (nodes.map (fun w => if w = a then 1 else 0)).sum = 1 := by
  induction nodes with
  | nil => cases ha
  | cons x xs ih =>
    obtain ⟨hnot, hnd⟩ := List.nodup_cons.mp hnd
    rw [List.map_cons, List.sum_cons]
    by_cases hx : x = a
    · subst hx
      have hzero : (xs.map (fun w => if w = x then 1 else 0)).sum = 0 := by
        apply List.sum_eq_zero
        intro y hy
        obtain ⟨w, hw, rfl⟩ := List.mem_map.mp hy
        have hne : w ≠ x := by
          intro he
          subst he
          exact hnot hw
        rw [if_neg hne]
      rw [if_pos rfl, hzero]
    · have hmem : a ∈ xs := (List.mem_cons.mp ha).resolve_left (fun he => hx he.symm)
      rw [if_neg hx, ih hnd hmem, zero_add]

theorem edgeTotal_edgeAdded (hnd : nodes.Nodup) {a b : ι} (ha : a ∈ nodes)
    (h : EdgeAdded nodes a b out inn all out' inn' all') :
    edgeTotal nodes out' = edgeTotal nodes out + 1 := by
  have hlen : ∀ w ∈ nodes, (out' w).length = (out w).length + if w = a then 1 else 0 := by
    intro w hw
    rw [(h.out w hw).length_eq, List.length_append]
    split_ifs
    · simp [Nat.add_comm]
    · simp
  rw [edgeTotal, edgeTotal, List.map_congr_left hlen, List.sum_map_add, sum_indicator hnd ha]

/-- A node without edges joins. -/
theorem Adjacency.addNode (h : Adjacency nodes out inn all) {n : ι} (hn : n ∉ nodes)
    (hout : ∀ w ∈ nodes, out' w = out w) (hinn : ∀ w ∈ nodes, inn' w = inn w)
    (hall : ∀ w ∈ nodes, all' w = all w) (hno : out' n = []) (hni : inn' n = []) (hna : all' n = []) :
    Adjacency (nodes ++ [n]) out' inn' all' := by
  have hmem : ∀ {w}, w ∈ nodes ++ [n] → w ∈ nodes ∨ w = n := by
    intro w hw
    rwa [List.mem_append, List.mem_singleton] at hw
  have hnone : ∀ w ∈ nodes, n ∉ out w ∧ n ∉ inn w :=
    fun w hw => ⟨fun he => hn (h.outMem w hw n he), fun he => hn (h.inMem w hw n he)⟩
  refine ⟨?_, ?_, ?_, ?_, ?_⟩
  · refine List.nodup_append.mpr ⟨h.nodup, List.nodup_singleton n, ?_⟩
    intro x hx y hy hxy
    rw [List.mem_singleton] at hy
    rw [hxy, hy] at hx
    exact hn hx
  · intro u hu v hv
    rcases hmem hu with hu' | hu'
    · rcases hmem hv with hv' | hv'
      · rw [hout u hu', hinn v hv']
        exact h.mirror u hu' v hv'
      · rw [hv', hout u hu', hni, List.count_nil, List.count_eq_zero_of_not_mem (hnone u hu').1]
    · rcases hmem hv with hv' | hv'
      · rw [hu', hno, hinn v hv', List.count_nil, List.count_eq_zero_of_not_mem (hnone v hv').2]
      · rw [hu', hv', hno, hni]
  · intro u hu
    rcases hmem hu with hu | rfl
    · rw [hall u hu, hout u hu, hinn u hu]
      exact h.split u hu
    · rw [hna, hno, hni]
      exact List.Perm.refl []
  · intro u hu v hv
    rcases hmem hu with hu | rfl
    · rw [hout u hu] at hv
      exact List.mem_append_left _ (h.outMem u hu v hv)
    · rw [hno] at hv
      cases hv
  · intro u hu v hv
    rcases hmem hu with hu | rfl
    · rw [hinn u hu] at hv
      exact List.mem_append_left _ (h.inMem u hu v hv)
    · rw [hni] at hv
      cases hv

/-- A node leaves, and every list forgets it. -/
theorem Adjacency.delNode (h : Adjacency nodes out inn all) (n : ι)
    (hout : ∀ w ∈ nodes, w ≠ n → out' w = (out w).filter (· ≠ n))
    (hinn : ∀ w ∈ nodes, w ≠ n → inn' w = (inn w).filter (· ≠ n))
    (hall : ∀ w ∈ nodes, w ≠ n → all' w = (all w).filter (· ≠ n)) :
    Adjacency (nodes.erase n) out' inn' all' := by
  have hmem : ∀ {w}, w ∈ nodes.erase n → w ∈ nodes ∧ w ≠ n := by
    intro w hw
    rw [h.nodup.mem_erase_iff] at hw
    exact ⟨hw.2, hw.1⟩
  refine ⟨h.nodup.erase n, ?_, ?_, ?_, ?_⟩
  · intro u hu v hv
    obtain ⟨hu, hun⟩ := hmem hu
    obtain ⟨hv, hvn⟩ := hmem hv
    rw [hout u hu hun, hinn v hv hvn, List.count_filter (by simpa using hvn),
      List.count_filter (by simpa using hun)]
    exact h.mirror u hu v hv
  · intro u hu
    obtain ⟨hu, hun⟩ := hmem hu
    rw [hall u hu hun, hout u hu hun, hinn u hu hun, ← List.filter_append]
    exact (h.split u hu).filter _
  · intro u hu v hv
    obtain ⟨hu, hun⟩ := hmem hu
    rw [hout u hu hun, List.mem_filter] at hv
    rw [h.nodup.mem_erase_iff]
    exact ⟨by simpa using hv.2, h.outMem u hu v hv.1⟩
  · intro u hu v hv
    obtain ⟨hu, hun⟩ := hmem hu
    rw [hinn u hu hun, List.mem_filter] at hv
    rw [h.nodup.mem_erase_iff]
    exact ⟨by simpa using hv.2, h.inMem u hu v hv.1⟩

/-- A list over the nodes, counted node by node. -/
theorem sum_count (hnd : nodes.Nodup) (l : List ι) (hl : ∀ v ∈ l, v ∈ nodes) :
    (nodes.map (fun u => l.count u)).sum = l.length := by
  induction l with
  | nil => simp
  | cons a l ih =>
    have hcount : ∀ u ∈ nodes, (a :: l).count u = l.count u + if u = a then 1 else 0 := by
      intro u _
      rw [List.count_cons]
      by_cases hu : u = a
      · simp [hu]
      · simp [hu, Ne.symm hu]
    rw [List.map_congr_left hcount, List.sum_map_add, ih (fun v hv => hl v (List.mem_cons_of_mem _ hv)),
      sum_indicator hnd (hl a List.mem_cons_self), List.length_cons]

theorem length_filter_ne (l : List ι) (n : ι) : (l.filter (· ≠ n)).length + l.count n = l.length := by
  induction l with
  | nil => rfl
  | cons a l ih =>
    by_cases ha : a = n
    · simp [ha, ← ih, Nat.add_assoc]
    · simp [ha, ← ih]
      omega

/-- The edges that go with a node: a loop counts once. -/
theorem edgeTotal_delNode (h : Adjacency nodes out inn all) {n : ι} (hn : n ∈ nodes)
    (hout : ∀ w ∈ nodes, w ≠ n → out' w = (out w).filter (· ≠ n)) :
    edgeTotal (nodes.erase n) out' + (inn n).length + (out n).length =
      edgeTotal nodes out + (out n).count n := by
  have herase : ∀ F : ι → Nat, ((nodes.erase n).map F).sum + F n = (nodes.map F).sum := by
    intro F
    have hp := (List.perm_cons_erase hn).map F
    rw [hp.sum_eq, List.map_cons, List.sum_cons, Nat.add_comm]
  have hlen : ∀ w ∈ nodes.erase n, (out w).length = (out' w).length + (inn n).count w := by
    intro w hw
    rw [h.nodup.mem_erase_iff] at hw
    rw [hout w hw.2 hw.1, ← h.mirror w hw.2 n hn, length_filter_ne]
  have hsum := herase (fun w => (out w).length)
  rw [List.map_congr_left hlen, List.sum_map_add] at hsum
  have hin := herase (fun w => (inn n).count w)
  rw [sum_count h.nodup (inn n) (h.inMem n hn)] at hin
  have hloop := h.mirror n hn n hn
  unfold edgeTotal
  omega

end Radare.Framework

namespace Radare.Framework

variable {ι : Type} {nodes : List ι} {out out' : ι → List ι}

/-- The edges of a graph as pairs of nodes, parallel ones as often as they are there. -/
def arcs (nodes : List ι) (out : ι → List ι) : List (ι × ι) :=
  nodes.flatMap (fun u => (out u).map (fun v => (u, v)))

theorem mem_arcs {u v : ι} : (u, v) ∈ arcs nodes out ↔ u ∈ nodes ∧ v ∈ out u := by
  simp [arcs]

@[simp] theorem arcs_cons (a : ι) (nodes : List ι) (out : ι → List ι) :
    arcs (a :: nodes) out = (out a).map (fun v => (a, v)) ++ arcs nodes out := by
  simp [arcs]

theorem length_arcs : (arcs nodes out).length = edgeTotal nodes out := by
  simp [arcs, edgeTotal, List.length_flatMap]

/-- A node without edges joins. -/
theorem arcs_addNode {n : ι} (hout : ∀ w ∈ nodes, out' w = out w) (hno : out' n = []) :
    arcs (nodes ++ [n]) out' = arcs nodes out := by
  have hold : arcs nodes out' = arcs nodes out := by
    apply List.flatMap_congr
    intro w hw
    rw [hout w hw]
  have happ : arcs (nodes ++ [n]) out' = arcs nodes out' ++ (out' n).map (fun v => (n, v)) := by
    simp [arcs]
  rw [happ, hold, hno, List.map_nil, List.append_nil]

/-- A node leaves, and its arcs with it. -/
theorem arcs_delNode [DecidableEq ι] {n : ι} (hnd : nodes.Nodup)
    (hout : ∀ w ∈ nodes, w ≠ n → out' w = (out w).filter (· ≠ n)) :
    arcs (nodes.erase n) out' = (arcs nodes out).filter fun e => e.1 ≠ n ∧ e.2 ≠ n := by
  rw [hnd.erase_eq_filter]
  clear hnd
  induction nodes with
  | nil => rfl
  | cons a nodes ih =>
    have hrest := ih fun w hw => hout w (List.mem_cons_of_mem a hw)
    rw [arcs_cons, List.filter_append, ← hrest]
    by_cases ha : a = n
    · subst ha
      have hnone : ((out a).map fun v => (a, v)).filter (fun e => decide (e.1 ≠ a ∧ e.2 ≠ a)) = [] := by
        simp [List.filter_eq_nil_iff]
      rw [hnone, List.filter_cons_of_neg (by simp), List.nil_append]
    · rw [List.filter_cons_of_pos (by simpa using ha), arcs_cons, hout a List.mem_cons_self ha]
      simp [List.filter_map, Function.comp_def, ha]

variable [DecidableEq ι] {inn all inn' all' : ι → List ι}

theorem count_map_pair (l : List ι) (a u v : ι) :
    (l.map (fun w => (a, w))).count (u, v) = if a = u then l.count v else 0 := by
  induction l with
  | nil => simp
  | cons w l ih =>
    rw [List.map_cons, List.count_cons, ih]
    by_cases ha : a = u
    · simp [ha, List.count_cons]
    · simp [ha]

theorem count_arcs (hnd : nodes.Nodup) (u v : ι) :
    (arcs nodes out).count (u, v) = if u ∈ nodes then (out u).count v else 0 := by
  induction nodes with
  | nil => simp [arcs]
  | cons a nodes ih =>
    obtain ⟨hnot, hnd⟩ := List.nodup_cons.mp hnd
    rw [arcs_cons, List.count_append, count_map_pair, ih hnd]
    by_cases ha : a = u
    · subst ha
      simp [hnot]
    · have hne : u ≠ a := Ne.symm ha
      simp [ha, hne]

/-- One more edge is one more arc. -/
theorem EdgeAdded.arcs_perm {a b : ι} (h : EdgeAdded nodes a b out inn all out' inn' all')
    (hnd : nodes.Nodup) (ha : a ∈ nodes) : (arcs nodes out').Perm ((a, b) :: arcs nodes out) := by
  rw [List.perm_iff_count]
  intro e
  obtain ⟨u, v⟩ := e
  rw [count_arcs hnd, List.count_cons, count_arcs hnd]
  by_cases hu : u ∈ nodes
  · rw [if_pos hu, if_pos hu, (h.out u hu).count_eq, List.count_append, count_if_singleton, Nat.add_comm]
    by_cases he : u = a ∧ b = v
    · simp [he.1, he.2]
    · have hne : ¬(a = u ∧ b = v) := fun hn => he ⟨hn.1.symm, hn.2⟩
      simp [he, hne]
  · have hne : ¬(a = u ∧ b = v) := by
      intro hn
      rw [hn.1] at ha
      exact hu ha
    simp [hu, hne]

/-- As many edges leave a node as arcs begin at it. -/
theorem length_out (hnd : nodes.Nodup) {u : ι} (hu : u ∈ nodes) :
    (out u).length = ((arcs nodes out).map Prod.fst).count u := by
  induction nodes with
  | nil => cases hu
  | cons a nodes ih =>
    obtain ⟨hnot, hnd⟩ := List.nodup_cons.mp hnd
    have hself : ((out a).map (fun w => (a, w))).map Prod.fst = List.replicate (out a).length a := by
      simp [Function.comp_def]
    rw [arcs_cons, List.map_append, List.count_append, hself, List.count_replicate]
    by_cases ha : a = u
    · subst ha
      have hzero : ((arcs nodes out).map Prod.fst).count a = 0 := by
        apply List.count_eq_zero_of_not_mem
        intro hmem
        obtain ⟨e, he, hea⟩ := List.mem_map.mp hmem
        obtain ⟨x, y⟩ := e
        rw [← hea] at hnot
        exact hnot (mem_arcs.mp he).1
      simp [hzero]
    · have hmem : u ∈ nodes := (List.mem_cons.mp hu).resolve_left (Ne.symm ha)
      simp [ha, ih hnd hmem]

/-- As many edges reach a node as arcs end at it. -/
theorem Adjacency.length_inn (h : Adjacency nodes out inn all) {v : ι} (hv : v ∈ nodes) :
    (inn v).length = ((arcs nodes out).map Prod.snd).count v := by
  have hsum := sum_count h.nodup (inn v) (h.inMem v hv)
  have hmirror : ∀ u ∈ nodes, (inn v).count u = (out u).count v := fun u hu => (h.mirror u hu v hv).symm
  rw [← hsum, List.map_congr_left hmirror, arcs, List.map_flatMap, List.count_flatMap]
  simp [Function.comp_def]

theorem Adjacency.mem_inn (h : Adjacency nodes out inn all) {u v : ι} (hv : v ∈ nodes) :
    u ∈ inn v ↔ (u, v) ∈ arcs nodes out := by
  rw [mem_arcs]
  constructor
  · intro hu
    have hmem := h.inMem v hv u hu
    refine ⟨hmem, ?_⟩
    rw [← List.count_pos_iff, h.mirror u hmem v hv]
    exact List.count_pos_iff.mpr hu
  · intro hu
    rw [← List.count_pos_iff, ← h.mirror u hu.1 v hv]
    exact List.count_pos_iff.mpr hu.2

end Radare.Framework
