import Radare.Framework.MachineInt
import Radare.Framework.Ring

namespace Radare

open Framework

/-- `capacity`, `front` and `size` are `unsigned int`, `rear` is an `int`. -/
structure RQueue (α : Type) where
  elems : List α
  capacity : Nat
  front : Nat
  rear : Int
  size : Nat

section
variable {α : Type}

/-- An access outside the array is undefined. -/
def readCell (elems : List α) (i : Int) : Option α := if i < 0 then none else elems[i.toNat]?

def writeCell (elems : List α) (i : Int) (el : α) : Option (List α) :=
  if 0 ≤ i ∧ i.toNat < elems.length then some (elems.set i.toNat el) else none

/-- `(i + 1) % capacity`, computed unsigned. -/
def nextIndex (i : Int) (capacity : Nat) : Nat := ((i + 1) % 4294967296).toNat % capacity

variable (null : α) (alloc : Nat → Bool)

/-- `alloc` says whether an array of so many pointers can be had. -/
def rQueueNew (n : Int) : Option (RQueue α) :=
  if n ≤ 0 then none
  else if alloc n.toNat then
    some
      { elems := List.replicate n.toNat null
        capacity := n.toNat
        front := 0
        rear := -1
        size := 0 }
  else none

def isFull (q : RQueue α) : Bool := q.size = q.capacity

/-- The copying loop of `increase_capacity` with `left` elements to go. -/
def copyElems (q : RQueue α) : Nat → Int → Int → List α → Option (Int × List α)
  | 0, i, _, newelems => some (i, newelems)
  | left + 1, i, tmpFront, newelems => do
    let i := i + 1
    let el ← readCell q.elems tmpFront
    let newelems ← writeCell newelems i el
    copyElems q left i (nextIndex tmpFront q.capacity) newelems

def increaseCapacity (q : RQueue α) : Option (Bool × RQueue α) :=
  let newCapacity := q.capacity * 2 % 4294967296
  if alloc newCapacity then do
    let (i, newelems) ← copyElems q q.size (-1) q.front (List.replicate newCapacity null)
    some (true,
      { elems := newelems
        capacity := newCapacity
        front := 0
        rear := i
        size := q.size })
  else some (false, q)

def storeRear (q : RQueue α) (el : α) : Option (Bool × RQueue α) := do
  let rear := wrapInt (nextIndex q.rear q.capacity)
  let elems ← writeCell q.elems rear el
  some (true, { q with rear := rear, elems := elems, size := (q.size + 1) % 4294967296 })

def rQueueEnqueue (q : RQueue α) (el : α) : Option (Bool × RQueue α) :=
  if isFull q then do
    let (res, q) ← increaseCapacity null alloc q
    if res then storeRear q el else some (false, q)
  else storeRear q el

def rQueueIsEmpty (q : RQueue α) : Bool := q.size = 0

def rQueueDequeue (q : RQueue α) : Option (α × RQueue α) :=
  if rQueueIsEmpty q then some (null, q)
  else do
    let res ← readCell q.elems q.front
    some (res, { q with front := nextIndex q.front q.capacity, size := q.size - 1 })

def queueStep (q : RQueue α) : FifoCall α → Option (RQueue α × FifoAnswer α)
  | .put el => do
    let (res, q) ← rQueueEnqueue null alloc q el
    some (q, .stored res)
  | .take => do
    let (el, q) ← rQueueDequeue null q
    some (q, .element el)
  | .empty => some (q, .truth (rQueueIsEmpty q))

def queueRun (q : RQueue α) : List (FifoCall α) → Option (RQueue α × List (FifoAnswer α))
  | [] => some (q, [])
  | c :: cs => do
    let (q, answer) ← queueStep null alloc q c
    let (q, answers) ← queueRun q cs
    some (q, answer :: answers)

end

section
variable {α : Type}

/-- The queue holds the elements `xs`, the oldest one at `front`. -/
structure RQueue.Holds (q : RQueue α) (xs : List α) : Prop where
  cells : q.elems.length = q.capacity
  front : q.front < q.capacity
  size : q.size = xs.length
  fits : q.size ≤ q.capacity
  rear_ge : 0 ≤ q.rear + 1
  rear_lt : q.rear < q.capacity
  rear : (q.rear + 1).toNat % q.capacity = (q.size + q.front) % q.capacity
  contents : arc q.elems q.front q.size = xs

theorem nextIndex_eq (i : Int) (capacity : Nat) (h0 : 0 ≤ i + 1) (h31 : i < 4294967295) :
    nextIndex i capacity = (i + 1).toNat % capacity := by
  rw [nextIndex, Int.emod_eq_of_lt h0 (by omega)]

theorem readCell_nat (elems : List α) (i : Nat) : readCell elems i = elems[i]? := by
  simp [readCell]

theorem writeCell_nat (elems : List α) {i : Nat} (h : i < elems.length) (el : α) :
    writeCell elems i el = some (elems.set i el) := by
  simp [writeCell, h]

/-- The loop lines the elements up at the start of the new array. -/
theorem copyElems_spec (null : α) {q : RQueue α} (hcells : q.elems.length = q.capacity)
    (hpos : 0 < q.capacity) (hsmall : q.capacity < 2147483648) (hfits : q.size ≤ q.capacity) (m : Nat)
    (hm : q.size ≤ m) (left j : Nat) (hj : j + left = q.size) :
    copyElems q left ((j : Int) - 1) (((j + q.front) % q.capacity : Nat) : Int)
        (arc q.elems q.front j ++ List.replicate (m - j) null) =
      some ((q.size : Int) - 1, arc q.elems q.front q.size ++ List.replicate (m - q.size) null) := by
  induction left generalizing j with
  | zero =>
    have hjs : j = q.size := by omega
    rw [hjs, copyElems]
  | succ left ih =>
    have hlt : j < q.elems.length := by omega
    have hidx : (j + q.front) % q.capacity < q.elems.length := by
      rw [hcells]
      exact Nat.mod_lt _ hpos
    obtain ⟨el, hel⟩ : ∃ el, q.elems[(j + q.front) % q.capacity]? = some el :=
      ⟨_, List.getElem?_eq_getElem hidx⟩
    have hi : (j : Int) - 1 + 1 = (j : Nat) := by omega
    have hnext : nextIndex (((j + q.front) % q.capacity : Nat) : Int) q.capacity =
        (j + 1 + q.front) % q.capacity := by
      rw [nextIndex_eq _ _ (by omega) (by omega)]
      have hto : (((j + q.front) % q.capacity : Nat) + 1 : Int).toNat = (j + q.front) % q.capacity + 1 := by
        omega
      rw [hto, Nat.mod_add_mod]
      congr 1
      omega
    have hwin : (arc q.elems q.front j).length = j := length_arc _ _ (by omega)
    have hset : (arc q.elems q.front j ++ List.replicate (m - j) null).set j el =
        arc q.elems q.front (j + 1) ++ List.replicate (m - (j + 1)) null := by
      have hrep : m - j = (m - (j + 1)) + 1 := by omega
      rw [arc_concat q.elems q.front hlt (by rw [hcells]; exact hel), hrep, List.replicate_succ,
        List.set_append_right _ _ (by omega), hwin, Nat.sub_self, List.set_cons_zero, List.append_assoc]
      simp
    have hwrite := writeCell_nat (arc q.elems q.front j ++ List.replicate (m - j) null)
      (show j < _ by simp [hwin]; omega) el
    simp only [copyElems, hi, readCell_nat, hel, Option.bind_eq_bind, Option.bind_some, hwrite, hset, hnext]
    have hback : ((j + 1 : Nat) : Int) - 1 = (j : Nat) := by omega
    rw [← hback]
    exact ih (j + 1) (by omega)

variable {null : α} {alloc : Nat → Bool}

theorem increaseCapacity_spec (null : α) {q : RQueue α} {xs : List α} (h : q.Holds xs)
    (hsmall : q.capacity < 2147483648) (halloc : ∀ n, alloc n = true) :
    ∃ q' : RQueue α, increaseCapacity null alloc q = some (true, q') ∧ q'.Holds xs ∧
      q'.capacity = 2 * q.capacity ∧ q'.front = 0 ∧ q'.size = q.size ∧ q'.rear = (q.size : Int) - 1 := by
  have hpos : 0 < q.capacity := by
    have := h.front
    omega
  have hnew : q.capacity * 2 % 4294967296 = 2 * q.capacity := by omega
  have hfits := h.fits
  have hcopy := copyElems_spec null h.cells hpos hsmall h.fits (2 * q.capacity) (by omega) q.size 0
    (by omega)
  rw [Nat.zero_add, Nat.mod_eq_of_lt h.front, arc_zero, List.nil_append, Nat.sub_zero, h.contents] at hcopy
  have hinit : ((0 : Nat) : Int) - 1 = -1 := by omega
  rw [hinit] at hcopy
  have hlen := h.size
  refine ⟨⟨xs ++ List.replicate (2 * q.capacity - q.size) null, 2 * q.capacity, 0, (q.size : Int) - 1, q.size⟩,
    ?_, ?_, by simp⟩
  · simp only [increaseCapacity, hnew, halloc, if_true, hcopy, Option.bind_eq_bind, Option.bind_some]
  · apply RQueue.Holds.mk
    · simp
      omega
    · simp
      omega
    · exact h.size
    · simp
      omega
    · simp
    · simp
      omega
    · simp
    · simp [arc, hlen]

/-- The new element is stored behind the arc, which there must be room for. -/
theorem storeRear_spec {q : RQueue α} {xs : List α} (h : q.Holds xs) (hroom : q.size < q.capacity)
    (hidx : (q.size + q.front) % q.capacity < 2147483648) (hrear : q.rear < 2147483648)
    (hsize : q.size < 2147483648) (el : α) :
    ∃ q' : RQueue α, storeRear q el = some (true, q') ∧ q'.Holds (xs ++ [el]) ∧ q'.capacity = q.capacity := by
  obtain ⟨k, hk⟩ : ∃ k, (q.size + q.front) % q.capacity = k := ⟨_, rfl⟩
  have hlt : k < q.elems.length := by
    rw [← hk, h.cells]
    exact Nat.mod_lt _ (by omega)
  have hnext : wrapInt (nextIndex q.rear q.capacity) = (k : Int) := by
    rw [nextIndex_eq _ _ h.rear_ge (by omega), h.rear, hk, wrapInt_of_range (by omega) (by omega)]
  have hsucc : (q.size + 1) % 4294967296 = q.size + 1 := by omega
  have hset := arc_set q.elems q.front (n := q.size) (by rw [h.cells]; exact hroom) el
  rw [h.cells, hk, h.contents] at hset
  refine ⟨⟨q.elems.set k el, q.capacity, q.front, k, q.size + 1⟩, ?_, ?_, rfl⟩
  · simp only [storeRear, hnext, writeCell_nat _ hlt, hsucc, Option.bind_eq_bind, Option.bind_some]
  · rw [h.cells] at hlt
    apply RQueue.Holds.mk
    · simpa using h.cells
    · exact h.front
    · simp [h.size]
    · exact hroom
    · simp only []
      omega
    · simp only []
      omega
    · have hto : ((k : Int) + 1).toNat = k + 1 := by omega
      have hsum : q.size + 1 + q.front = q.size + q.front + 1 := by omega
      show ((k : Int) + 1).toNat % q.capacity = (q.size + 1 + q.front) % q.capacity
      rw [hto, ← hk, Nat.mod_add_mod, hsum]
    · exact hset

theorem enqueue_full {q : RQueue α} (hf : isFull q = true) {el : α} {r : Bool × RQueue α}
    (hgrow : increaseCapacity null alloc q = some r) :
    rQueueEnqueue null alloc q el = if r.1 then storeRear r.2 el else some (false, r.2) := by
  rw [rQueueEnqueue, if_pos hf, hgrow, Option.bind_eq_bind, Option.bind_some]

theorem enqueue_spec (null : α) {q : RQueue α} {xs : List α} (h : q.Holds xs) (hcap : q.capacity ≤ 2147483648)
    (hsmall : q.size < 2147483648) (halloc : ∀ n, alloc n = true) (el : α) :
    ∃ q' : RQueue α, rQueueEnqueue null alloc q el = some (true, q') ∧ q'.Holds (xs ++ [el]) ∧
      q'.capacity = if q.size = q.capacity then 2 * q.capacity else q.capacity := by
  have hfits := h.fits
  have hfront := h.front
  by_cases hfull : q.size = q.capacity
  · obtain ⟨q', hgrow, h', hcap', hfront', hsize', hrear'⟩ :=
      increaseCapacity_spec null h (by omega) halloc
    have hidx : (q'.size + q'.front) % q'.capacity = q.size := by
      rw [hsize', hfront', hcap', Nat.add_zero, Nat.mod_eq_of_lt (by omega)]
    obtain ⟨q'', hstore, h'', hcap''⟩ := storeRear_spec h' (by omega) (by omega) (by omega) (by omega) el
    have hf : isFull q = true := by simp [isFull, hfull]
    have hcall : rQueueEnqueue null alloc q el = some (true, q'') := by
      rw [enqueue_full hf hgrow, if_pos rfl, hstore]
    exact ⟨q'', hcall, h'', by rw [hcap'', hcap', if_pos hfull]⟩
  · have hidx : (q.size + q.front) % q.capacity < q.capacity := Nat.mod_lt _ (by omega)
    obtain ⟨q', hstore, h', hcap'⟩ := storeRear_spec h (by omega) (by omega)
      (by have := h.rear_lt; omega) (by omega) el
    have hf : isFull q = false := by simp [isFull, hfull]
    have hcall : rQueueEnqueue null alloc q el = some (true, q') := by
      rw [rQueueEnqueue, if_neg (by simp [hf]), hstore]
    exact ⟨q', hcall, h', by rw [hcap', if_neg hfull]⟩

/-- The array of the size that would hold 2^32 elements has none. -/
theorem enqueue_overflow (null : α) {q : RQueue α} {xs : List α} (h : q.Holds xs) (hcap : q.capacity = 2147483648)
    (hfull : q.size = 2147483648) (halloc : ∀ n, alloc n = true) (el : α) : rQueueEnqueue null alloc q el = none := by
  have hf : isFull q = true := by simp [isFull, hfull, hcap]
  have hlt : q.front < q.elems.length := by
    rw [h.cells]
    exact h.front
  have hcopy : copyElems q q.size (-1) q.front [] = none := by
    rw [hfull, copyElems, readCell_nat, List.getElem?_eq_getElem hlt]
    rfl
  have hgrow : increaseCapacity null alloc q = none := by
    have hnew : q.capacity * 2 % 4294967296 = 0 := by omega
    simp only [increaseCapacity, hnew, halloc, if_true, List.replicate_zero, hcopy, Option.bind_eq_bind, Option.bind_none]
  rw [rQueueEnqueue, if_pos hf, hgrow]
  rfl

theorem dequeue_spec (null : α) {q : RQueue α} {xs : List α} (h : q.Holds xs) (hcap : q.capacity ≤ 2147483648) :
    ∃ q' : RQueue α, rQueueDequeue null q = some (xs.headD null, q') ∧ q'.Holds xs.tail ∧ q'.capacity = q.capacity := by
  have hsize := h.size
  have hfits := h.fits
  have hfront := h.front
  cases xs with
  | nil =>
    have hzero : q.size = 0 := by simpa using hsize
    exact ⟨q, by simp [rQueueDequeue, rQueueIsEmpty, hzero], h, rfl⟩
  | cons x xs =>
    rw [List.length_cons] at hsize
    have hlt : q.front < q.elems.length := by
      rw [h.cells]
      exact h.front
    have hmod : q.front % q.elems.length = q.front := Nat.mod_eq_of_lt hlt
    obtain ⟨el, hel⟩ : ∃ el, q.elems[q.front]? = some el := ⟨_, List.getElem?_eq_getElem hlt⟩
    have hwin := arc_succ q.elems q.front (n := xs.length) (by rw [h.cells]; omega)
      (by rw [hmod]; exact hel)
    rw [← hsize, h.contents] at hwin
    obtain ⟨hx, hxs⟩ := List.cons.inj hwin
    have hnext : nextIndex q.front q.capacity = (q.front + 1) % q.capacity := by
      rw [nextIndex_eq _ _ (by omega) (by omega)]
      congr 1
    have hne : q.size ≠ 0 := by omega
    refine ⟨⟨q.elems, q.capacity, (q.front + 1) % q.capacity, q.rear, xs.length⟩, ?_, ?_, rfl⟩
    · simp [rQueueDequeue, rQueueIsEmpty, hsize, readCell_nat, hel, hnext, hx]
    · apply RQueue.Holds.mk
      · exact h.cells
      · exact Nat.mod_lt _ (by omega)
      · simp
      · show xs.length ≤ q.capacity
        omega
      · exact h.rear_ge
      · exact h.rear_lt
      · have hrear := h.rear
        simp only [Nat.add_mod_mod]
        rw [hrear, hsize]
        congr 1
        omega
      · have hback := arc_mod q.elems (q.front + 1) xs.length
        rw [h.cells] at hback
        rw [List.tail_cons, hback, ← hxs]

theorem queueStep_spec (null : α) {q : RQueue α} {xs : List α} (h : q.Holds xs) (hsmall : q.capacity < 2147483648)
    (halloc : ∀ n, alloc n = true) (c : FifoCall α) :
    ∃ q' : RQueue α, queueStep null alloc q c = some (q', (fifoStep null xs c).2) ∧
      q'.Holds (fifoStep null xs c).1 := by
  cases c with
  | put el =>
    obtain ⟨q', hcall, h', -⟩ := enqueue_spec null h (Nat.le_of_lt hsmall) (Nat.lt_of_le_of_lt h.fits hsmall) halloc el
    exact ⟨q', by rw [queueStep, hcall]; simp [fifoStep], h'⟩
  | take =>
    obtain ⟨q', hcall, h', -⟩ := dequeue_spec null h (Nat.le_of_lt hsmall)
    exact ⟨q', by rw [queueStep, hcall]; simp [fifoStep], h'⟩
  | empty =>
    have hempty : rQueueIsEmpty q = xs.isEmpty := by
      rw [rQueueIsEmpty, h.size]
      cases xs <;> simp
    exact ⟨q, by rw [queueStep, hempty]; simp [fifoStep], h⟩

variable (null alloc)

/-- The capacity stays an `int` in every state of the run. -/
def CapacityBelow (q : RQueue α) : List (FifoCall α) → Prop
  | [] => q.capacity < 2147483648
  | c :: cs => q.capacity < 2147483648 ∧
    ∀ q' answer, queueStep null alloc q c = some (q', answer) → CapacityBelow q' cs

variable {null alloc}

theorem queueRun_spec (halloc : ∀ n, alloc n = true) {q : RQueue α} {xs : List α} (h : q.Holds xs)
    (calls : List (FifoCall α)) (hcap : CapacityBelow null alloc q calls) :
    ∃ q' : RQueue α, queueRun null alloc q calls = some (q', (fifo null xs calls).2) ∧
      q'.Holds (fifo null xs calls).1 := by
  induction calls generalizing q xs with
  | nil => exact ⟨q, by simp [queueRun, fifo], h⟩
  | cons c cs ih =>
    obtain ⟨q1, hstep, h1⟩ := queueStep_spec null h hcap.1 halloc c
    obtain ⟨q2, hrun, h2⟩ := ih h1 (hcap.2 _ _ hstep)
    exact ⟨q2, by simp [queueRun, fifo, hstep, hrun], h2⟩

theorem queueStep_capacity (null : α) {q : RQueue α} {xs : List α} (h : q.Holds xs) (hcap : q.capacity < 2147483648)
    (halloc : ∀ n, alloc n = true) (c : FifoCall α) {q' : RQueue α} {answer : FifoAnswer α}
    (hstep : queueStep null alloc q c = some (q', answer)) :
    q'.capacity ≤ max q.capacity (2 * xs.length) := by
  have hsize := h.size
  cases c with
  | put el =>
    obtain ⟨q1, hcall, -, hcap1⟩ := enqueue_spec null h (Nat.le_of_lt hcap) (Nat.lt_of_le_of_lt h.fits hcap) halloc el
    simp only [queueStep, hcall, Option.bind_eq_bind, Option.bind_some, Option.some.injEq, Prod.mk.injEq] at hstep
    rw [← hstep.1, hcap1]
    split_ifs <;> omega
  | take =>
    obtain ⟨q1, hcall, -, hcap1⟩ := dequeue_spec null h (Nat.le_of_lt hcap)
    simp only [queueStep, hcall, Option.bind_eq_bind, Option.bind_some, Option.some.injEq, Prod.mk.injEq] at hstep
    rw [← hstep.1, hcap1]
    exact Nat.le_max_left _ _
  | empty =>
    simp only [queueStep, Option.some.injEq, Prod.mk.injEq] at hstep
    rw [← hstep.1]
    exact Nat.le_max_left _ _

/-- Only a queue of more than 2^30 elements can outgrow an `int`. -/
theorem capacityBelow_of_calls (halloc : ∀ n, alloc n = true) {q : RQueue α} {xs : List α} (h : q.Holds xs)
    (hcap : q.capacity < 2147483648) (calls : List (FifoCall α))
    (hfew : 2 * (xs.length + calls.length) < 2147483648) : CapacityBelow null alloc q calls := by
  induction calls generalizing q xs with
  | nil => exact hcap
  | cons c cs ih =>
    refine ⟨hcap, ?_⟩
    intro q' answer hstep
    have hgrow := queueStep_capacity null h hcap halloc c hstep
    obtain ⟨q1, hstep1, h1⟩ := queueStep_spec null h hcap halloc c
    rw [hstep1, Option.some.injEq, Prod.mk.injEq] at hstep
    rw [hstep.1] at h1
    have hlength := fifoStep_length null xs c
    rw [List.length_cons] at hfew
    apply ih h1
    · omega
    · omega

theorem rQueueNew_holds {n : Int} {q : RQueue α} (hq : rQueueNew null alloc n = some q) : q.Holds [] := by
  rw [rQueueNew] at hq
  split at hq
  · cases hq
  · split at hq
    · cases hq
      constructor <;> simp
      omega
    · cases hq

end

section
variable {α : Type} (null : α) (alloc : Nat → Bool)

/-- The queue is the first-in first-out one: it answers every call as that one does, with no index
outside its array, and afterwards holds the same elements. -/
theorem rQueue_fifo (halloc : ∀ n, alloc n = true) (n : Int) (h1 : 1 ≤ n)
    (calls : List (FifoCall α)) :
    ∃ q, rQueueNew null alloc n = some q ∧
      (CapacityBelow null alloc q calls →
        ∃ q' : RQueue α, queueRun null alloc q calls = some (q', (fifo null [] calls).2) ∧
          q'.Holds (fifo null [] calls).1) := by
  obtain ⟨q, hq⟩ : ∃ q, rQueueNew null alloc n = some q := by
    rw [rQueueNew, if_neg (by omega), if_pos (halloc _)]
    exact ⟨_, rfl⟩
  exact ⟨q, hq, queueRun_spec halloc (rQueueNew_holds hq) calls⟩

theorem rQueue_fifo_two :
    ∃ q, rQueueNew 0 (fun _ => true) 2 = some q ∧
      CapacityBelow 0 (fun _ => true) q [.put 1, .put 2, .take, .put 3, .put 4, .take, .empty] ∧
        ∃ q' : RQueue Nat,
          queueRun 0 (fun _ => true) q [.put 1, .put 2, .take, .put 3, .put 4, .take, .empty] =
            some (q', (fifo 0 [] [.put 1, .put 2, .take, .put 3, .put 4, .take, .empty]).2) ∧
          q'.Holds (fifo 0 [] [.put 1, .put 2, .take, .put 3, .put 4, .take, .empty]).1 := by
  obtain ⟨q, hq, hrun⟩ := rQueue_fifo 0 (fun _ => true) (fun _ => rfl) 2 (by decide)
    [.put 1, .put 2, .take, .put 3, .put 4, .take, .empty]
  have hcapacity : q.capacity = 2 := by
    cases hq
    rfl
  have hbelow := @capacityBelow_of_calls _ 0 (fun _ => true) (fun _ => rfl) _ _ (rQueueNew_holds hq) (by omega)
    [.put 1, .put 2, .take, .put 3, .put 4, .take, .empty] (by decide)
  exact ⟨q, hq, hbelow, hrun hbelow⟩

end

end Radare
