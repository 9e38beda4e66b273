import Mathlib.Data.List.Perm.Basic
import Mathlib.Data.List.Range
import Mathlib.Tactic.Common

namespace Radare.Framework

inductive RoseTree (α : Type) where
  | node (label : α) (children : List (RoseTree α))

namespace RoseTree

variable {α : Type}

def label : RoseTree α → α
  | .node x _ => x

def children : RoseTree α → List (RoseTree α)
  | .node _ ts => ts

mutual

def subtrees : RoseTree α → List (RoseTree α)
  | .node x ts => .node x ts :: preorder ts

/-- The trees at the nodes of a forest, each node before those below it. -/
def preorder : List (RoseTree α) → List (RoseTree α)
  | [] => []
  | t :: ts => subtrees t ++ preorder ts

end

/-- The trees at the nodes of depth `k`, in the order of their parents. -/
def level : Nat → List (RoseTree α) → List (RoseTree α)
  | 0, ts => ts
  | k + 1, ts => level k (ts.flatMap children)

def size (ts : List (RoseTree α)) : Nat := (preorder ts).length

/-- One level after the other; behind the last one they are empty. -/
def levelOrder (ts : List (RoseTree α)) : List (RoseTree α) := (List.range (size ts)).flatMap fun k => level k ts

def labels (ts : List (RoseTree α)) : List α := (preorder ts).map label

section Traversal

variable (put : List (RoseTree α) → List (RoseTree α) → List (RoseTree α))

/-- The next `n` trees that are taken from a store of pending ones, to which the children of each are put. -/
def visited : Nat → List (RoseTree α) → List (RoseTree α)
  | 0, _ => []
  | _ + 1, [] => []
  | n + 1, t :: rest => t :: visited n (put rest t.children)

/-- On the way there are never more than `m` pending. -/
def Within (m : Nat) : Nat → List (RoseTree α) → Prop
  | 0, _ => True
  | _ + 1, [] => True
  | n + 1, t :: rest => (put rest t.children).length ≤ m ∧ Within m n (put rest t.children)

end Traversal

mutual

/-- At no node of a tree are its children, its later siblings and those of the nodes above it more than `m`, with `w`
others. -/
def WaitsWithin (m w : Nat) : RoseTree α → Prop
  | .node _ ts => ts.length + w ≤ m ∧ WaitsWithinAll m w ts

def WaitsWithinAll (m w : Nat) : List (RoseTree α) → Prop
  | [] => True
  | t :: ts => WaitsWithin m (ts.length + w) t ∧ WaitsWithinAll m w ts

end

/-- At no node are the nodes behind it in its level and the children up to it in that level more than `m`. -/
def LevelsWithin (m : Nat) (ts : List (RoseTree α)) : Prop :=
  ∀ k before t behind, level k ts = before ++ t :: behind →
    behind.length + ((before ++ [t]).flatMap children).length ≤ m

def onStack (rest cs : List (RoseTree α)) : List (RoseTree α) := cs ++ rest

def inQueue (rest cs : List (RoseTree α)) : List (RoseTree α) := rest ++ cs

variable {t : RoseTree α} {ts us rest cur next : List (RoseTree α)} {m n : Nat}

theorem preorder_cons (t : RoseTree α) (ts : List (RoseTree α)) :
    preorder (t :: ts) = t :: (preorder t.children ++ preorder ts) := by
  cases t with
  | node x us => rw [preorder, subtrees, children, List.cons_append]

theorem preorder_append (ts us : List (RoseTree α)) : preorder (ts ++ us) = preorder ts ++ preorder us := by
  induction ts with
  | nil => rfl
  | cons t ts ih => rw [List.cons_append, preorder, preorder, ih, List.append_assoc]

@[simp] theorem size_nil : size ([] : List (RoseTree α)) = 0 := rfl

theorem size_cons (t : RoseTree α) (ts : List (RoseTree α)) : size (t :: ts) = size t.children + size ts + 1 := by
  rw [size, preorder_cons, List.length_cons, List.length_append]
  rfl

theorem size_append (ts us : List (RoseTree α)) : size (ts ++ us) = size ts + size us := by
  rw [size, preorder_append, List.length_append]
  rfl

theorem size_flatMap_children (ts : List (RoseTree α)) : size ts = ts.length + size (ts.flatMap children) := by
  induction ts with
  | nil => rfl
  | cons t ts ih =>
    rw [size_cons, List.flatMap_cons, size_append, List.length_cons]
    omega

theorem level_nil (k : Nat) : level k ([] : List (RoseTree α)) = [] := by
  induction k with
  | zero => rfl
  | succ k ih => rw [level, List.flatMap_nil, ih]

/-- Every node comes once, wherever the children are put. -/
theorem visited_perm {put : List (RoseTree α) → List (RoseTree α) → List (RoseTree α)}
    (hput : ∀ rest cs, (put rest cs).Perm (cs ++ rest)) (hn : size ts ≤ n) : (visited put n ts).Perm (preorder ts) := by
  induction n generalizing ts with
  | zero =>
    rw [visited, List.eq_nil_of_length_eq_zero (Nat.le_zero.mp hn)]
  | succ n ih =>
    cases ts with
    | nil => exact List.Perm.refl _
    | cons t rest =>
      rw [size_cons] at hn
      have hperm : (preorder (put rest t.children)).Perm (preorder (t.children ++ rest)) := by
        have hflat : ∀ us : List (RoseTree α), preorder us = us.flatMap subtrees := fun us => by
          induction us with
          | nil => rfl
          | cons u us ih => rw [preorder, ih, List.flatMap_cons]
        rw [hflat, hflat]
        exact (hput rest t.children).flatMap_right _
      have hsize : size (put rest t.children) ≤ n := by
        rw [size, hperm.length_eq, ← size, size_append]
        omega
      rw [visited, preorder_cons, ← preorder_append]
      exact ((ih hsize).trans hperm).cons t

theorem visited_onStack (hn : size ts ≤ n) : visited onStack n ts = preorder ts := by
  induction n generalizing ts with
  | zero => rw [visited, List.eq_nil_of_length_eq_zero (Nat.le_zero.mp hn)]
  | succ n ih =>
    cases ts with
    | nil => rfl
    | cons t rest =>
      rw [size_cons] at hn
      rw [visited, ih (by rw [onStack, size_append]; omega), onStack, preorder_append, preorder_cons]

/-- The pending trees of one level are taken before those that they put behind them. -/
theorem visited_inQueue_append (n : Nat) (cur next : List (RoseTree α)) :
    visited inQueue (n + cur.length) (cur ++ next) = cur ++ visited inQueue n (next ++ cur.flatMap children) := by
  induction cur generalizing next with
  | nil => simp
  | cons t cur ih =>
    have hstep := ih (next ++ t.children)
    rw [List.cons_append, List.length_cons, ← Nat.add_assoc, visited, inQueue, List.append_assoc, hstep, List.flatMap_cons,
      List.append_assoc, List.cons_append]

theorem visited_inQueue_levels (hn : size ts ≤ n) (hm : size ts ≤ m) :
    visited inQueue n ts = (List.range m).flatMap fun k => level k ts := by
  induction n using Nat.strong_induction_on generalizing ts m with
  | _ n ih =>
    cases ts with
    | nil =>
      have hnil : visited inQueue n ([] : List (RoseTree α)) = [] := by cases n <;> rfl
      simp [hnil, level_nil]
    | cons t rest =>
      have hsize := size_flatMap_children (t :: rest)
      obtain ⟨k, rfl⟩ : ∃ k, n = k + (t :: rest).length := ⟨n - (t :: rest).length, by omega⟩
      obtain ⟨m, rfl⟩ : ∃ j, m = j + 1 := ⟨m - 1, by rw [size_cons] at hm; omega⟩
      rw [List.length_cons] at hsize
      have hvisited := visited_inQueue_append k (t :: rest) []
      rw [List.append_nil, List.nil_append] at hvisited
      have hrest := @ih k (by rw [List.length_cons]; omega) ((t :: rest).flatMap children) m
        (by rw [List.length_cons] at hn; omega) (by omega)
      rw [hvisited, hrest, List.range_succ_eq_map, List.flatMap_cons (x := 0), List.flatMap_map]
      rfl

theorem visited_inQueue (hn : size ts ≤ n) : visited inQueue n ts = levelOrder ts := visited_inQueue_levels hn (Nat.le_refl _)

theorem within_nil {put : List (RoseTree α) → List (RoseTree α) → List (RoseTree α)} (n : Nat) : Within put m n [] := by
  cases n <;> trivial

/-- A forest is taken from a stack before what lies below it. -/
theorem within_onStack_append (n k : Nat) (ts rest : List (RoseTree α)) (hn : size ts ≤ n) :
    Within onStack m (k + size ts) (ts ++ rest) ↔ (WaitsWithinAll m rest.length ts ∧ Within onStack m k rest) := by
  induction n generalizing k ts rest with
  | zero =>
    have hts : ts = [] := List.eq_nil_of_length_eq_zero (by rw [size_flatMap_children] at hn; omega)
    subst hts
    simp [WaitsWithinAll]
  | succ n ih =>
    cases ts with
    | nil => simp [WaitsWithinAll]
    | cons t ts =>
      rw [size_cons] at hn
      have hin := ih (k + size ts) t.children (ts ++ rest) (by omega)
      have hbehind := ih k ts rest (by omega)
      have hsum : k + size (t :: ts) = k + size ts + size t.children + 1 := by
        rw [size_cons]
        omega
      cases t with
      | node x us =>
        rw [hsum, List.cons_append, Within, onStack, hin, hbehind, WaitsWithinAll, WaitsWithin, List.length_append,
          List.length_append]
        simp only [children, and_assoc]

theorem within_onStack_iff (ts : List (RoseTree α)) (hn : size ts ≤ n) :
    Within onStack m n ts ↔ WaitsWithinAll m 0 ts := by
  obtain ⟨k, rfl⟩ : ∃ k, n = k + size ts := ⟨n - size ts, by omega⟩
  have hiff := within_onStack_append (m := m) (size ts) k ts [] (Nat.le_refl _)
  rw [List.append_nil, List.length_nil] at hiff
  rw [hiff, and_iff_left (within_nil k)]

/-- A level is taken from a queue before what it puts behind it. -/
theorem within_inQueue_append (n : Nat) (cur next : List (RoseTree α)) :
    Within inQueue m (n + cur.length) (cur ++ next) ↔
      ((∀ before t behind, cur = before ++ t :: behind →
        behind.length + (next.length + ((before ++ [t]).flatMap children).length) ≤ m) ∧
      Within inQueue m n (next ++ cur.flatMap children)) := by
  induction cur generalizing next with
  | nil => simp
  | cons u cur ih =>
    rw [List.cons_append, List.length_cons, ← Nat.add_assoc, Within, inQueue, List.append_assoc, ih (next ++ u.children),
      List.flatMap_cons, List.append_assoc, ← and_assoc]
    refine and_congr_left' ?_
    constructor
    · rintro ⟨hfirst, hrest⟩ before t behind heq
      cases before with
      | nil =>
        obtain ⟨rfl, rfl⟩ := List.cons.inj heq
        simpa using hfirst
      | cons v before =>
        obtain ⟨rfl, rfl⟩ := List.cons.inj heq
        have hbound := hrest before t behind rfl
        simp only [List.length_append, List.cons_append, List.flatMap_cons] at hbound ⊢
        omega
    · intro hall
      refine ⟨by simpa using hall [] u cur rfl, fun before t behind heq => ?_⟩
      have hbound := hall (u :: before) t behind (by rw [heq, List.cons_append])
      simp only [List.length_append, List.cons_append, List.flatMap_cons] at hbound ⊢
      omega

theorem levelsWithin_children :
    LevelsWithin m ts ↔ ((∀ before t behind, ts = before ++ t :: behind →
      behind.length + ((before ++ [t]).flatMap children).length ≤ m) ∧ LevelsWithin m (ts.flatMap children)) := by
  constructor
  · exact fun h => ⟨h 0, fun k => h (k + 1)⟩
  · rintro ⟨hzero, hsucc⟩ k
    cases k with
    | zero => exact hzero
    | succ k => exact hsucc k

theorem within_inQueue_iff (ts : List (RoseTree α)) (hn : size ts ≤ n) :
    Within inQueue m n ts ↔ LevelsWithin m ts := by
  induction n using Nat.strong_induction_on generalizing ts with
  | _ n ih =>
    cases ts with
    | nil => exact iff_of_true (within_nil n) fun k before t behind heq => by simp [level_nil] at heq
    | cons t rest =>
      have hsize := size_flatMap_children (t :: rest)
      rw [List.length_cons] at hsize
      obtain ⟨k, rfl⟩ : ∃ k, n = k + (t :: rest).length := ⟨n - (t :: rest).length, by rw [List.length_cons]; omega⟩
      have hlevel := within_inQueue_append (m := m) k (t :: rest) []
      rw [List.length_cons] at hn
      simp only [List.append_nil, List.nil_append, List.length_nil, Nat.zero_add] at hlevel
      rw [hlevel, ih k (by rw [List.length_cons]; omega) _ (by omega), ← levelsWithin_children]

/-- Induction on a forest: below its first node, and behind that. -/
theorem forest_induction {P : List (RoseTree α) → Prop} (nil : P []) (cons : ∀ x us ts, P us → P ts → P (.node x us :: ts))
    (ts : List (RoseTree α)) : P ts := by
  obtain ⟨n, hn⟩ : ∃ n, size ts ≤ n := ⟨_, Nat.le_refl _⟩
  induction n generalizing ts with
  | zero =>
    rw [List.eq_nil_of_length_eq_zero (l := ts) (by rw [size_flatMap_children] at hn; omega)]
    exact nil
  | succ n ih =>
    cases ts with
    | nil => exact nil
    | cons t ts =>
      cases t with
      | node x us =>
        rw [size_cons, children] at hn
        exact cons x us ts (ih us (by omega)) (ih ts (by omega))

@[simp] theorem labels_nil : labels ([] : List (RoseTree α)) = [] := rfl

@[simp] theorem labels_cons (x : α) (us ts : List (RoseTree α)) : labels (.node x us :: ts) = x :: (labels us ++ labels ts) := by
  rw [labels, preorder_cons, List.map_cons, List.map_append]
  rfl

theorem labels_append (ts us : List (RoseTree α)) : labels (ts ++ us) = labels ts ++ labels us := by
  rw [labels, preorder_append, List.map_append]
  rfl

theorem level_append (k : Nat) (ts us : List (RoseTree α)) : level k (ts ++ us) = level k ts ++ level k us := by
  induction k generalizing ts us with
  | zero => rfl
  | succ k ih => rw [level, level, level, List.flatMap_append, ih]

theorem level_succ_cons (k : Nat) (x : α) (us ts : List (RoseTree α)) :
    level (k + 1) (.node x us :: ts) = level k us ++ level (k + 1) ts := by
  rw [level, List.flatMap_cons, level_append]
  rfl

/-- The nodes from a level on are less by what lies above. -/
theorem size_level (k : Nat) (ts : List (RoseTree α)) (hne : level k ts ≠ []) : size (level k ts) + k ≤ size ts := by
  induction k generalizing ts with
  | zero => exact Nat.le_refl _
  | succ k ih =>
    have hsub := ih (ts.flatMap children) hne
    have hts : ts ≠ [] := by
      rintro rfl
      exact hne (level_nil _)
    have hpos := List.length_pos_iff.mpr hts
    have hsize := size_flatMap_children ts
    rw [level]
    omega

theorem length_le_size (ts : List (RoseTree α)) : ts.length ≤ size ts := by
  rw [size_flatMap_children]
  exact Nat.le_add_right _ _

theorem waitsWithinAll_of_size {w : Nat} (h : size ts + w ≤ m) : WaitsWithinAll m w ts := by
  induction ts using forest_induction generalizing w with
  | nil => trivial
  | cons x us ts ihu iht =>
    rw [size_cons, children] at h
    have hus := length_le_size us
    have hts := length_le_size ts
    exact ⟨⟨by omega, ihu (by omega)⟩, iht (by omega)⟩

theorem levelsWithin_of_size (h : size ts ≤ m) : LevelsWithin m ts := by
  intro k before t behind heq
  have hlevel := size_level k ts (by rw [heq]; simp)
  have hsplit : before ++ t :: behind = (before ++ [t]) ++ behind := by simp
  rw [heq, hsplit, size_append, size_flatMap_children (before ++ [t])] at hlevel
  have hbehind := length_le_size behind
  have hbelow := length_le_size ((before ++ [t]).flatMap children)
  omega

theorem level_subset (k : Nat) (ts : List (RoseTree α)) : level k ts ⊆ preorder ts := by
  induction ts using forest_induction generalizing k with
  | nil =>
    rw [level_nil]
    exact List.nil_subset _
  | cons x us ts ihu iht =>
    intro t ht
    rw [preorder_cons, List.mem_cons, List.mem_append]
    cases k with
    | zero => exact (List.mem_cons.mp ht).imp id fun hts => .inr (iht 0 hts)
    | succ k =>
      rw [level_succ_cons] at ht
      exact .inr ((List.mem_append.mp ht).imp (fun hu => ihu k hu) fun hts => iht (k + 1) hts)

section Insert

variable [DecidableEq α] {p c x : α} {k : Nat}

mutual

/-- A new node `c`, the last child of `p`. -/
def insert (p c : α) : RoseTree α → RoseTree α
  | .node x ts => .node x (if x = p then insertAll p c ts ++ [.node c []] else insertAll p c ts)

def insertAll (p c : α) : List (RoseTree α) → List (RoseTree α)
  | [] => []
  | t :: ts => insert p c t :: insertAll p c ts

end

theorem label_insert (t : RoseTree α) : (insert p c t).label = t.label := by
  cases t with
  | node x ts => rfl

theorem map_label_insertAll (ts : List (RoseTree α)) : (insertAll p c ts).map label = ts.map label := by
  induction ts with
  | nil => rfl
  | cons t ts ih => rw [insertAll, List.map_cons, List.map_cons, label_insert, ih]

theorem insertAll_of_not_mem (h : p ∉ labels ts) : insertAll p c ts = ts := by
  induction ts using forest_induction with
  | nil => rfl
  | cons x us ts ihu iht =>
    rw [labels_cons, List.mem_cons, List.mem_append, not_or, not_or] at h
    rw [insertAll, insert, if_neg (Ne.symm h.1), ihu h.2.1, iht h.2.2]

theorem labels_insertAll (hp : p ∈ labels ts) (hnodup : (labels ts).Nodup) :
    (labels (insertAll p c ts)).Perm (c :: labels ts) := by
  induction ts using forest_induction with
  | nil => cases hp
  | cons x us ts ihu iht =>
    rw [labels_cons] at hp hnodup
    rw [insertAll, insert]
    obtain ⟨hx, hrest⟩ := List.nodup_cons.mp hnodup
    obtain ⟨hus, hts, hdisj⟩ := List.nodup_append.mp hrest
    rw [List.mem_append, not_or] at hx
    by_cases hxp : x = p
    · subst hxp
      rw [if_pos rfl, insertAll_of_not_mem hx.1, insertAll_of_not_mem hx.2, labels_cons, labels_cons, labels_append]
      refine (List.Perm.cons x ?_).trans (List.Perm.swap c x _)
      rw [List.append_assoc]
      exact List.perm_middle
    · rw [if_neg hxp, labels_cons, labels_cons]
      refine List.Perm.trans (List.Perm.cons x ?_) (List.Perm.swap c x _)
      rcases List.mem_append.mp ((List.mem_cons.mp hp).resolve_left (Ne.symm hxp)) with hmem | hmem
      · rw [show insertAll p c ts = ts from insertAll_of_not_mem fun h => hdisj p hmem p h rfl]
        exact (ihu hmem hus).append_right _
      · rw [show insertAll p c us = us from insertAll_of_not_mem fun h => hdisj p h p hmem rfl]
        exact ((iht hmem hts).append_left _).trans List.perm_middle

/-- The new node is one level below its parent. -/
theorem mem_level_insertAll (h : p ∈ (level k ts).map label) : c ∈ (level (k + 1) (insertAll p c ts)).map label := by
  induction ts using forest_induction generalizing k with
  | nil => simp [level_nil] at h
  | cons y us ts ihu iht =>
    rw [insertAll, insert, level_succ_cons, List.map_append, List.mem_append]
    cases k with
    | zero =>
      rw [level, List.map_cons, List.mem_cons] at h
      rcases h with rfl | h
      · refine Or.inl ?_
        simp [label, level]
      · exact Or.inr (iht (k := 0) h)
    | succ k =>
      rw [level_succ_cons, List.map_append, List.mem_append] at h
      refine h.imp (fun hu => ?_) iht
      split
      · rw [level_append, List.map_append]
        exact List.mem_append_left _ (ihu hu)
      · exact ihu hu

end Insert

end RoseTree

end Radare.Framework
