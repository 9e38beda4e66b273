import Mathlib.Algebra.BigOperators.Group.List.Basic
import Mathlib.Algebra.BigOperators.Ring.List
import Mathlib.Algebra.Ring.Nat
import Mathlib.Data.List.Nodup
import Radare.Framework.AdjacencyLists

namespace Radare.Framework

variable {ι : Type}

/-- The pairs of a list, the one that stands before the other first. -/
def pairsBefore : List ι → List (ι × ι)
  | [] => []
  | x :: l => l.map (Prod.mk x) ++ pairsBefore l

theorem pairsBefore_cons (x : ι) (l : List ι) : pairsBefore (x :: l) = l.map (Prod.mk x) ++ pairsBefore l := rfl

theorem mem_of_mem_pairsBefore {x y : ι} {l : List ι} (h : (x, y) ∈ pairsBefore l) : x ∈ l ∧ y ∈ l := by
  induction l with
  | nil => cases h
  | cons z l ih =>
    rw [pairsBefore_cons, List.mem_append, List.mem_map] at h
    rcases h with ⟨w, hw, hp⟩ | h
    · obtain ⟨rfl, rfl⟩ := Prod.mk.inj hp
      exact ⟨List.mem_cons_self, List.mem_cons_of_mem _ hw⟩
    · exact ⟨List.mem_cons_of_mem _ (ih h).1, List.mem_cons_of_mem _ (ih h).2⟩

theorem pairsBefore_nodup {l : List ι} (h : l.Nodup) : (pairsBefore l).Nodup := by
  induction l with
  | nil => exact List.nodup_nil
  | cons z l ih =>
    obtain ⟨hz, hl⟩ := List.nodup_cons.mp h
    rw [pairsBefore_cons, List.nodup_append]
    refine ⟨hl.map (fun a b hab => (Prod.mk.inj hab).2), ih hl, ?_⟩
    intro p hp q hq hpq
    obtain ⟨w, -, rfl⟩ := List.mem_map.mp hp
    rw [← hpq] at hq
    exact hz (mem_of_mem_pairsBefore hq).1

/-- With rising positions, to stand before is to have the smaller position. -/
theorem mem_pairsBefore_iff {pos : ι → Int} {l : List ι} (h : l.Pairwise (fun a b => pos a < pos b))
    {x y : ι} (hx : x ∈ l) (hy : y ∈ l) : (x, y) ∈ pairsBefore l ↔ pos x < pos y := by
  induction l with
  | nil => cases hx
  | cons z l ih =>
    obtain ⟨hz, hl⟩ := List.pairwise_cons.mp h
    rw [pairsBefore_cons, List.mem_append, List.mem_map]
    constructor
    · rintro (⟨w, hw, hp⟩ | hm)
      · obtain ⟨rfl, rfl⟩ := Prod.mk.inj hp
        exact hz w hw
      · obtain ⟨hx, hy⟩ := mem_of_mem_pairsBefore hm
        exact (ih hl hx hy).mp hm
    · intro hlt
      rcases List.mem_cons.mp hx with hxz | hx
      · rcases List.mem_cons.mp hy with hyz | hy
        · subst hxz hyz
          omega
        · exact Or.inl ⟨y, hy, by rw [hxz]⟩
      · rcases List.mem_cons.mp hy with hyz | hy
        · have := hz x hx
          subst hyz
          omega
        · exact Or.inr ((ih hl hx hy).mpr hlt)

/-- The cost of an order, where `m x y` is what `x` before `y` costs. -/
def orderCost (m : ι → ι → Nat) (l : List ι) : Nat := ((pairsBefore l).map (fun p => m p.1 p.2)).sum

theorem orderCost_cons (m : ι → ι → Nat) (x : ι) (l : List ι) :
    orderCost m (x :: l) = (l.map (m x)).sum + orderCost m l := by
  rw [orderCost, pairsBefore_cons, List.map_append, List.sum_append, List.map_map]
  rfl

/-- One pass over the neighbours of an order, `u` in hand: two change places where that is cheaper. -/
def passFrom (m : ι → ι → Nat) (u : ι) : List ι → List ι × Bool
  | [] => ([u], false)
  | v :: l =>
    if m v u < m u v then (v :: (passFrom m u l).1, true) else (u :: (passFrom m v l).1, (passFrom m v l).2)

theorem passFrom_cons (m : ι → ι → Nat) (u v : ι) (l : List ι) :
    passFrom m u (v :: l) =
      if m v u < m u v then (v :: (passFrom m u l).1, true)
      else (u :: (passFrom m v l).1, (passFrom m v l).2) := rfl

theorem passFrom_perm (m : ι → ι → Nat) (u : ι) (l : List ι) : (passFrom m u l).1.Perm (u :: l) := by
  induction l generalizing u with
  | nil => exact List.Perm.refl _
  | cons v l ih =>
    rw [passFrom_cons]
    split_ifs
    · exact ((ih u).cons v).trans (List.Perm.swap u v l)
    · exact (ih v).cons u

/-- The pairs left in place cost what they did, so each change shows in the whole. -/
theorem passFrom_cost (m : ι → ι → Nat) (u : ι) (l : List ι) :
    orderCost m (passFrom m u l).1 ≤ orderCost m (u :: l) ∧
      ((passFrom m u l).2 = true → orderCost m (passFrom m u l).1 < orderCost m (u :: l)) := by
  induction l generalizing u with
  | nil => exact ⟨Nat.le_refl _, fun h => absurd h Bool.false_ne_true⟩
  | cons v l ih =>
    have hsum (a b : ι) : (((passFrom m a l).1).map (m b)).sum = m b a + (l.map (m b)).sum := by
      rw [((passFrom_perm m a l).map (m b)).sum_eq, List.map_cons, List.sum_cons]
    rw [passFrom_cons]
    split_ifs with hlt
    · have hcost := (ih u).1
      simp only [orderCost_cons, List.map_cons, List.sum_cons, hsum] at hcost ⊢
      omega
    · obtain ⟨hle, hstrict⟩ := ih v
      simp only [orderCost_cons, List.map_cons, List.sum_cons, hsum] at hle hstrict ⊢
      exact ⟨by omega, fun h => by have := hstrict h; omega⟩

/-- A pass that changes nothing finds no two neighbours that are cheaper the other way round. -/
theorem passFrom_still {m : ι → ι → Nat} {u : ι} {l : List ι} (h : (passFrom m u l).2 = false) :
    (passFrom m u l).1 = u :: l ∧ (u :: l).IsChain (fun a b => m a b ≤ m b a) := by
  induction l generalizing u with
  | nil => exact ⟨rfl, .singleton u⟩
  | cons v l ih =>
    rw [passFrom_cons] at h ⊢
    split_ifs at h ⊢ with hlt
    obtain ⟨hsame, hchain⟩ := ih h
    exact ⟨congrArg (u :: ·) hsame, .cons_cons (Nat.le_of_not_lt hlt) hchain⟩

/-- What products cost in an order is part of the product of the sums. -/
theorem orderCost_mul_le (f g : ι → Nat) (l : List ι) :
    orderCost (fun x y => f y * g x) l ≤ (l.map f).sum * (l.map g).sum := by
  induction l with
  | nil => exact Nat.le_refl 0
  | cons x l ih =>
    have hrow : (l.map fun y => f y * g x).sum = (l.map f).sum * g x := by
      rw [List.sum_map_mul_right]
    rw [orderCost_cons, hrow, List.map_cons, List.map_cons, List.sum_cons, List.sum_cons, Nat.add_mul, Nat.mul_add,
      Nat.mul_add]
    omega

variable [DecidableEq ι]

/-- Two edges that leave nodes of one layer in order, by their ends in the next: first the end of the
edge on the right, then that of the edge on the left. -/
def edgePairs (out : ι → List ι) (upper : List ι) : List (ι × ι) :=
  (pairsBefore upper).flatMap (fun p => (out p.1).flatMap (fun t => (out p.2).map (fun k => (k, t))))

/-- The pairs of edges that cross between two layers. -/
def crossings (out : ι → List ι) (upper lower : List ι) : Nat :=
  (edgePairs out upper).countP (· ∈ pairsBefore lower)

/-- The crossings as the cost of the order of the upper layer, and of the lower one. -/
theorem crossings_upper (out : ι → List ι) (upper lower : List ι) :
    crossings out upper lower = orderCost (fun x y => crossings out [x, y] lower) upper := by
  simp [crossings, edgePairs, List.countP_flatMap, orderCost, pairsBefore, Function.comp_def]

theorem countP_mem_eq_sum {κ : Type} [BEq κ] [LawfulBEq κ] {P : List κ} (hP : P.Nodup) (K : List κ) :
    K.countP (· ∈ P) = (P.map (fun p => K.count p)).sum := by
  classical
  induction K with
  | nil => simp
  | cons a K ih =>
    have hcount : ∀ p ∈ P, (a :: K).count p = K.count p + if p = a then 1 else 0 := by
      intro p _
      rw [List.count_cons]
      by_cases hp : p = a
      · simp [hp]
      · simp [hp, Ne.symm hp]
    rw [List.map_congr_left hcount, List.sum_map_add, ← ih, List.countP_cons]
    by_cases ha : a ∈ P
    · rw [sum_indicator hP ha]
      simp [ha]
    · have hzero : (P.map (fun p => if p = a then 1 else 0)).sum = 0 := by
        apply List.sum_eq_zero
        intro n hn
        obtain ⟨p, hp, rfl⟩ := List.mem_map.mp hn
        refine if_neg ?_
        rintro rfl
        exact ha hp
      simp [ha, hzero]

theorem crossings_pair (out : ι → List ι) (upper : List ι) (x y : ι) :
    crossings out upper [x, y] = (edgePairs out upper).count (x, y) := by
  unfold crossings List.count
  congr 1
  funext p
  simp [pairsBefore, beq_eq_decide]

theorem crossings_lower (out : ι → List ι) (upper : List ι) {lower : List ι} (h : lower.Nodup) :
    crossings out upper lower = orderCost (fun x y => crossings out upper [x, y]) lower := by
  rw [crossings, countP_mem_eq_sum (pairsBefore_nodup h), orderCost]
  simp only [crossings_pair]

/-- Edges out of two nodes alone. -/
theorem crossings_two (out : ι → List ι) (x y : ι) (lower : List ι) :
    crossings out [x, y] lower =
      ((out x).map (fun t => (out y).countP (fun k => (k, t) ∈ pairsBefore lower))).sum := by
  simp [crossings, edgePairs, pairsBefore, List.countP_flatMap, List.countP_map, Function.comp_def]

theorem count_block (a b : List ι) (x y : ι) :
    (a.flatMap (fun t => b.map (fun k => (k, t)))).count (x, y) = b.count x * a.count y := by
  induction a with
  | nil => simp
  | cons t a ih =>
    have hrow : (b.map (fun k => (k, t))).count (x, y) = if t = y then b.count x else 0 := by
      unfold List.count
      rw [List.countP_map]
      by_cases ht : t = y
      · simp [ht, Function.comp_def, beq_eq_decide]
      · simp [ht, Function.comp_def]
    rw [List.flatMap_cons, List.count_append, ih, hrow, List.count_cons]
    by_cases ht : t = y
    · rw [if_pos ht, if_pos (beq_iff_eq.mpr ht), Nat.mul_add, Nat.mul_one, Nat.add_comm]
    · rw [if_neg ht, if_neg (fun he => ht (beq_iff_eq.mp he)), Nat.zero_add, Nat.add_zero]

/-- The edges into two nodes alone, by products of counts. -/
theorem count_edgePairs (out : ι → List ι) (upper : List ι) (x y : ι) :
    (edgePairs out upper).count (x, y) = orderCost (fun s j => (out j).count x * (out s).count y) upper := by
  rw [edgePairs, List.count_flatMap, orderCost]
  congr 1
  apply List.map_congr_left
  intro p _
  exact count_block (out p.1) (out p.2) x y

omit [DecidableEq ι] in
theorem length_edgePairs_pair (out : ι → List ι) (x y : ι) :
    (edgePairs out [x, y]).length = (out x).length * (out y).length := by
  have hpairs : edgePairs out [x, y] = (out x).flatMap fun t => (out y).map fun k => (k, t) := by
    simp [edgePairs, pairsBefore]
  rw [hpairs, List.length_flatMap]
  simp only [List.length_map, List.map_const', List.sum_replicate]
  exact Nat.nsmul_eq_mul _ _

end Radare.Framework
