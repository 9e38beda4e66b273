import Mathlib.Data.List.Rotate
import Mathlib.Data.Nat.ModEq

namespace Radare.Framework

variable {α : Type}

/-- The `n` cells from index `i` on, going round at the end. -/
def arc (xs : List α) (i n : Nat) : List α := (xs.rotate i).take n

@[simp] theorem arc_zero (xs : List α) (i : Nat) : arc xs i 0 = [] := List.take_zero

theorem length_arc (xs : List α) (i : Nat) {n : Nat} (hn : n ≤ xs.length) :
    (arc xs i n).length = n := by
  simp [arc, hn]

@[simp] theorem arc_mod (xs : List α) (i n : Nat) : arc xs (i % xs.length) n = arc xs i n := by
  rw [arc, arc, List.rotate_mod]

theorem getElem?_arc (xs : List α) (i : Nat) {k n : Nat} (hk : k < n) (hn : n ≤ xs.length) :
    (arc xs i n)[k]? = xs[(k + i) % xs.length]? := by
  rw [arc, List.getElem?_take_of_lt hk, List.getElem?_rotate (by omega)]

/-- The first cell of an arc is the one at its index, the rest the arc one further. -/
theorem arc_succ (xs : List α) (i : Nat) {n : Nat} (hn : n < xs.length) {x : α}
    (hx : xs[i % xs.length]? = some x) : arc xs i (n + 1) = x :: arc xs (i + 1) n := by
  apply List.ext_getElem?
  intro k
  rcases k with _ | k
  · rw [getElem?_arc xs i (by omega) hn, Nat.zero_add, hx, List.getElem?_cons_zero]
  · rw [List.getElem?_cons_succ]
    by_cases hk : k < n
    · rw [getElem?_arc xs i (by omega) hn, getElem?_arc xs (i + 1) hk (by omega)]
      congr 2
      omega
    · rw [List.getElem?_eq_none, List.getElem?_eq_none]
      · rw [length_arc xs (i + 1) (by omega)]
        omega
      · rw [length_arc xs i (by omega)]
        omega

theorem arc_concat (xs : List α) (i : Nat) {n : Nat} (hn : n < xs.length) {x : α}
    (hx : xs[(n + i) % xs.length]? = some x) : arc xs i (n + 1) = arc xs i n ++ [x] := by
  rw [arc, List.take_add_one, List.getElem?_rotate hn, hx]
  simp [arc]

/-- Two offsets below the length lead to different cells. -/
theorem ring_offset_inj {i j k len : Nat} (hj : j < len) (hk : k < len)
    (h : (j + i) % len = (k + i) % len) : j = k := by
  have hmod : j % len = k % len := Nat.ModEq.add_right_cancel' i h
  rwa [Nat.mod_eq_of_lt hj, Nat.mod_eq_of_lt hk] at hmod

/-- A cell behind the arc is written without changing it. -/
theorem arc_set (xs : List α) (i : Nat) {n : Nat} (hn : n < xs.length) (a : α) :
    arc (xs.set ((n + i) % xs.length) a) i (n + 1) = arc xs i n ++ [a] := by
  have hlen : (xs.set ((n + i) % xs.length) a).length = xs.length := List.length_set
  have hpos : 0 < xs.length := by omega
  have hsame : arc (xs.set ((n + i) % xs.length) a) i n = arc xs i n := by
    apply List.ext_getElem?
    intro k
    by_cases hk : k < n
    · rw [getElem?_arc _ i hk (by omega), getElem?_arc _ i hk (by omega), hlen,
        List.getElem?_set_ne]
      intro heq
      have := ring_offset_inj hn (by omega) heq
      omega
    · rw [List.getElem?_eq_none, List.getElem?_eq_none]
      · rw [length_arc xs i (by omega)]
        omega
      · rw [length_arc _ i (by omega)]
        omega
  rw [arc_concat _ i (by omega) (x := a), hsame]
  rw [hlen, List.getElem?_set_self (Nat.mod_lt _ hpos)]

inductive FifoCall (α : Type) where
  | put (a : α)
  | take
  | empty

inductive FifoAnswer (α : Type) where
  | stored (b : Bool)
  | element (a : α)
  | truth (b : Bool)
  deriving DecidableEq

/-- A first-in first-out queue; taking from an empty one gives `null`. -/
def fifoStep (null : α) (xs : List α) : FifoCall α → List α × FifoAnswer α
  | .put a => (xs ++ [a], .stored true)
  | .take => (xs.tail, .element (xs.headD null))
  | .empty => (xs, .truth xs.isEmpty)

theorem fifoStep_length (null : α) (xs : List α) (c : FifoCall α) :
    (fifoStep null xs c).1.length ≤ xs.length + 1 := by
  cases c with
  | put a => simp [fifoStep]
  | take =>
    rw [fifoStep, List.length_tail]
    omega
  | empty => exact Nat.le_succ _

def fifo (null : α) (xs : List α) : List (FifoCall α) → List α × List (FifoAnswer α)
  | [] => (xs, [])
  | c :: cs =>
    let r := fifoStep null xs c
    let t := fifo null r.1 cs
    (t.1, r.2 :: t.2)

end Radare.Framework
