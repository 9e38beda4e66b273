import Mathlib.Data.List.Nodup
import Mathlib.Data.List.Perm.Subperm
import Mathlib.Data.List.Range
import Mathlib.Logic.Function.Basic

namespace Radare.Framework

/-- A node of a doubly linked list; a null pointer is `none`. -/
@[ext] structure Node (α : Type) where
  data : Option α
  n : Option Nat
  p : Option Nat
  deriving DecidableEq

/-- The nodes by address. -/
abbrev Cells (α : Type) := Nat → Option (Node α)

variable {α : Type} {c c' : Cells α} {p q : Option Nat} {xs ys : List (Nat × α)}

def setNext (c : Cells α) (a : Nat) (v : Option Nat) : Cells α :=
  Function.update c a ((c a).map (fun x => { x with n := v }))

def setPrev (c : Cells α) (a : Nat) (v : Option Nat) : Cells α :=
  Function.update c a ((c a).map (fun x => { x with p := v }))

def setData (c : Cells α) (a : Nat) (v : Option α) : Cells α :=
  Function.update c a ((c a).map (fun x => { x with data := v }))

/-- An assignment to a field of the node at `a`; there must be one. -/
def storeNext (c : Cells α) (a : Nat) (v : Option Nat) : Option (Cells α) :=
  if (c a).isSome then some (setNext c a v) else none

def storePrev (c : Cells α) (a : Nat) (v : Option Nat) : Option (Cells α) :=
  if (c a).isSome then some (setPrev c a v) else none

def storeData (c : Cells α) (a : Nat) (v : Option α) : Option (Cells α) :=
  if (c a).isSome then some (setData c a v) else none

/-- `if (x) x->n = v`. -/
def storeNextIf (c : Cells α) (a : Option Nat) (v : Option Nat) : Option (Cells α) :=
  match a with
  | none => some c
  | some a => storeNext c a v

def storePrevIf (c : Cells α) (a : Option Nat) (v : Option Nat) : Option (Cells α) :=
  match a with
  | none => some c
  | some a => storePrev c a v

/-- The addresses met on the way along `n`, until a null pointer. -/
def walkNext (c : Cells α) : Nat → Option Nat → Option (List Nat)
  | _, none => some []
  | 0, some _ => none
  | fuel + 1, some a => do
    let x ← c a
    let rest ← walkNext c fuel x.n
    some (a :: rest)

/-- The addresses met on the way along `p`. -/
def walkPrev (c : Cells α) : Nat → Option Nat → Option (List Nat)
  | _, none => some []
  | 0, some _ => none
  | fuel + 1, some a => do
    let x ← c a
    let rest ← walkPrev c fuel x.p
    some (a :: rest)

/-- Addresses and contents together stand for a chain of nodes. -/
def addrs (xs : List (Nat × α)) : List Nat := xs.map Prod.fst

/-- The pointer a chain starts at, when it ends at `q`. -/
def firstPtr : List (Nat × α) → Option Nat → Option Nat
  | [], q => q
  | x :: _, _ => some x.1

/-- The pointer to the last node, or `p` when there is none. -/
def lastPtr : List (Nat × α) → Option Nat → Option Nat
  | [], p => p
  | x :: xs, _ => lastPtr xs (some x.1)

/-- A chain of nodes linked both ways, with `p` before it and `q` after it. -/
def Linked (c : Cells α) : Option Nat → List (Nat × α) → Option Nat → Prop
  | _, [], _ => True
  | p, x :: xs, q => c x.1 = some ⟨some x.2, firstPtr xs q, p⟩ ∧ Linked c (some x.1) xs q

@[simp] theorem addrs_nil : addrs ([] : List (Nat × α)) = [] := rfl

@[simp] theorem addrs_cons (x : Nat × α) (xs : List (Nat × α)) : addrs (x :: xs) = x.1 :: addrs xs :=
  rfl

@[simp] theorem addrs_append (xs ys : List (Nat × α)) : addrs (xs ++ ys) = addrs xs ++ addrs ys :=
  List.map_append

@[simp] theorem firstPtr_nil (q : Option Nat) : firstPtr ([] : List (Nat × α)) q = q := rfl

@[simp] theorem firstPtr_cons (x : Nat × α) (xs : List (Nat × α)) (q : Option Nat) :
    firstPtr (x :: xs) q = some x.1 := rfl

@[simp] theorem firstPtr_append (xs ys : List (Nat × α)) (q : Option Nat) :
    firstPtr (xs ++ ys) q = firstPtr xs (firstPtr ys q) := by
  cases xs <;> rfl

@[simp] theorem lastPtr_nil (p : Option Nat) : lastPtr ([] : List (Nat × α)) p = p := rfl

@[simp] theorem lastPtr_cons (x : Nat × α) (xs : List (Nat × α)) (p : Option Nat) :
    lastPtr (x :: xs) p = lastPtr xs (some x.1) := rfl

@[simp] theorem lastPtr_append (xs ys : List (Nat × α)) (p : Option Nat) :
    lastPtr (xs ++ ys) p = lastPtr ys (lastPtr xs p) := by
  induction xs generalizing p with
  | nil => rfl
  | cons x xs ih => exact ih (some x.1)

@[simp] theorem linked_nil : Linked c p [] q := trivial

@[simp] theorem linked_cons {x : Nat × α} : Linked c p (x :: xs) q ↔
    c x.1 = some ⟨some x.2, firstPtr xs q, p⟩ ∧ Linked c (some x.1) xs q := Iff.rfl

@[simp] theorem linked_append : Linked c p (xs ++ ys) q ↔
    Linked c p xs (firstPtr ys q) ∧ Linked c (lastPtr xs p) ys q := by
  induction xs generalizing p with
  | nil => simp
  | cons x xs ih => simp [ih, and_assoc]

/-- A chain only looks at its own nodes. -/
theorem Linked.congr (h : Linked c p xs q) (hc : ∀ a ∈ addrs xs, c' a = c a) : Linked c' p xs q := by
  induction xs generalizing p with
  | nil => trivial
  | cons x xs ih =>
    refine ⟨?_, ih h.2 (fun a ha => hc a (List.mem_cons_of_mem _ ha))⟩
    rw [hc x.1 (List.mem_cons_self), h.1]

theorem Linked.isSome (h : Linked c p xs q) {a : Nat} (ha : a ∈ addrs xs) : (c a).isSome := by
  induction xs generalizing p with
  | nil => cases ha
  | cons x xs ih =>
    rcases List.mem_cons.mp ha with rfl | hin
    · rw [h.1]
      rfl
    · exact ih h.2 hin

@[simp] theorem setNext_other {a b : Nat} {v : Option Nat} (h : b ≠ a) : setNext c a v b = c b :=
  Function.update_of_ne h _ _

@[simp] theorem setPrev_other {a b : Nat} {v : Option Nat} (h : b ≠ a) : setPrev c a v b = c b :=
  Function.update_of_ne h _ _

@[simp] theorem setData_other {a b : Nat} {v : Option α} (h : b ≠ a) : setData c a v b = c b :=
  Function.update_of_ne h _ _

@[simp] theorem setNext_same {a : Nat} {v : Option Nat} :
    setNext c a v a = (c a).map (fun x => { x with n := v }) := Function.update_self _ _ _

@[simp] theorem setPrev_same {a : Nat} {v : Option Nat} :
    setPrev c a v a = (c a).map (fun x => { x with p := v }) := Function.update_self _ _ _

@[simp] theorem setData_same {a : Nat} {v : Option α} :
    setData c a v a = (c a).map (fun x => { x with data := v }) := Function.update_self _ _ _

/-- What `storeNextIf` leaves. -/
def setNextIf (c : Cells α) (a : Option Nat) (v : Option Nat) : Cells α :=
  match a with
  | none => c
  | some a => setNext c a v

def setPrevIf (c : Cells α) (a : Option Nat) (v : Option Nat) : Cells α :=
  match a with
  | none => c
  | some a => setPrev c a v

theorem lastPtr_mem {a : Nat} (h : lastPtr xs none = some a) : a ∈ addrs xs := by
  rcases List.eq_nil_or_concat xs with rfl | ⟨l, x, rfl⟩
  · cases h
  · rw [List.concat_eq_append, lastPtr_append] at h
    obtain rfl : x.1 = a := Option.some.inj h
    simp

theorem firstPtr_mem {a : Nat} (h : firstPtr xs none = some a) : a ∈ addrs xs := by
  cases xs with
  | nil => cases h
  | cons x xs =>
    obtain rfl : x.1 = a := Option.some.inj h
    simp

/-- Writing the last node's `n` moves the end of the chain. -/
theorem Linked.setLast (h : Linked c p xs q) (hnd : (addrs xs).Nodup) (v : Option Nat) :
    Linked (setNextIf c (lastPtr xs none) v) p xs v := by
  rcases List.eq_nil_or_concat xs with rfl | ⟨l, x, rfl⟩
  · trivial
  · rw [List.concat_eq_append] at h hnd ⊢
    simp only [linked_append, linked_cons, lastPtr_append, lastPtr_cons, lastPtr_nil, firstPtr_cons,
      firstPtr_nil, linked_nil, and_true] at h ⊢
    rw [addrs_append, List.nodup_append] at hnd
    refine ⟨h.1.congr ?_, ?_⟩
    · intro a ha
      exact setNext_other (hnd.2.2 a ha x.1 (by simp))
    · show setNext c x.1 v x.1 = _
      rw [setNext_same, h.2]
      rfl

/-- Writing the first node's `p` moves the start of the chain. -/
theorem Linked.setFirst (h : Linked c p xs q) (hnd : (addrs xs).Nodup) (v : Option Nat) :
    Linked (setPrevIf c (firstPtr xs none) v) v xs q := by
  cases xs with
  | nil => trivial
  | cons x xs =>
    rw [addrs_cons, List.nodup_cons] at hnd
    refine ⟨?_, h.2.congr ?_⟩
    · show setPrev c x.1 v x.1 = _
      rw [setPrev_same, h.1]
      rfl
    · intro a ha
      exact setPrev_other (fun he => hnd.1 (he ▸ ha))

theorem setNextIf_other {a : Option Nat} {b : Nat} {v : Option Nat} (h : a ≠ some b) :
    setNextIf c a v b = c b := by
  cases a with
  | none => rfl
  | some a => exact setNext_other (fun he => h (congrArg some he.symm))

theorem setPrevIf_other {a : Option Nat} {b : Nat} {v : Option Nat} (h : a ≠ some b) :
    setPrevIf c a v b = c b := by
  cases a with
  | none => rfl
  | some a => exact setPrev_other (fun he => h (congrArg some he.symm))

theorem setNext_isSome {a b : Nat} {v : Option Nat} : (setNext c a v b).isSome = (c b).isSome := by
  by_cases hb : b = a
  · rw [hb, setNext_same, Option.isSome_map]
  · rw [setNext_other hb]

theorem setPrev_isSome {a b : Nat} {v : Option Nat} : (setPrev c a v b).isSome = (c b).isSome := by
  by_cases hb : b = a
  · rw [hb, setPrev_same, Option.isSome_map]
  · rw [setPrev_other hb]

theorem setNextIf_isSome {a : Option Nat} {b : Nat} {v : Option Nat} :
    (setNextIf c a v b).isSome = (c b).isSome := by
  cases a with
  | none => rfl
  | some a => exact setNext_isSome

theorem setNextIf_setPrev {a : Option Nat} {b : Nat} {v w : Option Nat} :
    setNextIf (setPrev c b w) a v = setPrev (setNextIf c a v) b w := by
  cases a with
  | none => rfl
  | some a =>
    funext i
    show setNext (setPrev c b w) a v i = setPrev (setNext c a v) b w i
    by_cases ha : i = a <;> by_cases hb : i = b
    · subst ha hb
      simp [Option.map_map, Function.comp_def]
    · subst ha
      rw [setNext_same, setPrev_other hb, setPrev_other hb, setNext_same]
    · subst hb
      rw [setNext_other ha, setPrev_same, setPrev_same, setNext_other ha]
    · rw [setNext_other ha, setPrev_other hb, setPrev_other hb, setNext_other ha]

theorem setNextIf_congr {a : Option Nat} {b : Nat} {v : Option Nat} (h : c b = c' b) :
    setNextIf c a v b = setNextIf c' a v b := by
  by_cases hab : a = some b
  · rw [hab]
    show setNext c b v b = setNext c' b v b
    rw [setNext_same, setNext_same, h]
  · rw [setNextIf_other hab, setNextIf_other hab, h]

theorem setPrevIf_congr {a : Option Nat} {b : Nat} {v : Option Nat} (h : c b = c' b) :
    setPrevIf c a v b = setPrevIf c' a v b := by
  by_cases hab : a = some b
  · rw [hab]
    show setPrev c b v b = setPrev c' b v b
    rw [setPrev_same, setPrev_same, h]
  · rw [setPrevIf_other hab, setPrevIf_other hab, h]

/-- New contents for one node. -/
theorem Linked.setData {x : Nat × α} (h : Linked c p (xs ++ x :: ys) q)
    (hnd : (addrs (xs ++ x :: ys)).Nodup) (d : α) :
    Linked (Framework.setData c x.1 (some d)) p (xs ++ (x.1, d) :: ys) q := by
  simp only [linked_append, linked_cons, firstPtr_cons] at h ⊢
  rw [addrs_append, addrs_cons, List.nodup_append, List.nodup_cons] at hnd
  refine ⟨h.1.congr ?_, ?_, h.2.2.congr ?_⟩
  · intro a ha
    exact setData_other (hnd.2.2 a ha x.1 (by simp))
  · rw [setData_same, h.2.1]
    rfl
  · intro a ha
    exact setData_other (fun he => hnd.2.1.1 (he ▸ ha))

/-- A node put between two parts of a chain. -/
theorem Linked.insert {x : Nat × α} (h : Linked c p (xs ++ ys) q) (hx : (addrs xs).Nodup)
    (hy : (addrs ys).Nodup) (hnew : c' x.1 = some ⟨some x.2, firstPtr ys q, lastPtr xs p⟩)
    (hl : ∀ b ∈ addrs xs, c' b = setNextIf c (lastPtr xs none) (some x.1) b)
    (hr : ∀ b ∈ addrs ys, c' b = setPrevIf c (firstPtr ys none) (some x.1) b) :
    Linked c' p (xs ++ x :: ys) q := by
  rw [linked_append] at h ⊢
  exact ⟨(h.1.setLast hx _).congr hl, hnew, (h.2.setFirst hy _).congr hr⟩

/-- A node taken out of a chain. -/
theorem Linked.remove {x : Nat × α} (h : Linked c p (xs ++ x :: ys) q) (hx : (addrs xs).Nodup)
    (hy : (addrs ys).Nodup)
    (hl : ∀ b ∈ addrs xs, c' b = setNextIf c (lastPtr xs none) (firstPtr ys q) b)
    (hr : ∀ b ∈ addrs ys, c' b = setPrevIf c (firstPtr ys none) (lastPtr xs p) b) :
    Linked c' p (xs ++ ys) q := by
  rw [linked_append, linked_cons] at h
  rw [linked_append]
  exact ⟨(h.1.setLast hx _).congr hl, (h.2.2.setFirst hy _).congr hr⟩

theorem firstPtr_congr (h : addrs xs = addrs ys) (q : Option Nat) : firstPtr xs q = firstPtr ys q := by
  cases xs with
  | nil =>
    cases ys with
    | nil => rfl
    | cons y ys => cases h
  | cons x xs =>
    cases ys with
    | nil => cases h
    | cons y ys => exact congrArg some (List.cons.inj h).1

theorem lastPtr_congr (h : addrs xs = addrs ys) (p : Option Nat) : lastPtr xs p = lastPtr ys p := by
  induction xs generalizing ys p with
  | nil =>
    cases ys with
    | nil => rfl
    | cons y ys => cases h
  | cons x xs ih =>
    cases ys with
    | nil => cases h
    | cons y ys =>
      have hxy := List.cons.inj h
      rw [lastPtr_cons, lastPtr_cons, hxy.1]
      exact ih hxy.2 _

theorem lastPtr_reverse (xs : List (Nat × α)) (q : Option Nat) : lastPtr xs.reverse q = firstPtr xs q := by
  cases xs with
  | nil => rfl
  | cons x xs => rw [List.reverse_cons, lastPtr_append]; rfl

theorem firstPtr_reverse (xs : List (Nat × α)) (q : Option Nat) : firstPtr xs.reverse q = lastPtr xs q := by
  rw [← lastPtr_reverse, List.reverse_reverse]

/-- Swapping both links of every node turns the chain around. -/
theorem Linked.swapped (h : Linked c p xs q)
    (hc : ∀ a ∈ addrs xs, c' a = (c a).map (fun x => ⟨x.data, x.p, x.n⟩)) :
    Linked c' q xs.reverse p := by
  induction xs generalizing p with
  | nil => trivial
  | cons x xs ih =>
    have htail := ih h.2 (fun a ha => hc a (List.mem_cons_of_mem _ ha))
    rw [List.reverse_cons, linked_append]
    refine ⟨htail, ?_, trivial⟩
    rw [hc x.1 List.mem_cons_self, h.1, lastPtr_reverse]
    rfl

theorem storeNext_eq {a : Nat} {v : Option Nat} (h : (c a).isSome) :
    storeNext c a v = some (setNext c a v) := if_pos h

theorem storePrev_eq {a : Nat} {v : Option Nat} (h : (c a).isSome) :
    storePrev c a v = some (setPrev c a v) := if_pos h

theorem storeData_eq {a : Nat} {v : Option α} (h : (c a).isSome) :
    storeData c a v = some (setData c a v) := if_pos h

theorem storeNextIf_eq {a v : Option Nat} (h : ∀ b, a = some b → (c b).isSome) :
    storeNextIf c a v = some (setNextIf c a v) := by
  cases a with
  | none => rfl
  | some a => exact storeNext_eq (h a rfl)

theorem storePrevIf_eq {a v : Option Nat} (h : ∀ b, a = some b → (c b).isSome) :
    storePrevIf c a v = some (setPrevIf c a v) := by
  cases a with
  | none => rfl
  | some a => exact storePrev_eq (h a rfl)

theorem Linked.walkNext (h : Linked c p xs none) {fuel : Nat} (hf : xs.length ≤ fuel) :
    walkNext c fuel (firstPtr xs none) = some (addrs xs) := by
  induction xs generalizing p fuel with
  | nil => cases fuel <;> rfl
  | cons x xs ih =>
    cases fuel with
    | zero => cases hf
    | succ fuel =>
      rw [firstPtr_cons, Framework.walkNext, h.1]
      show (Framework.walkNext c fuel (firstPtr xs none)).bind _ = _
      rw [ih h.2 (Nat.le_of_succ_le_succ hf)]
      rfl

theorem Linked.walkPrev (h : Linked c none xs q) {fuel : Nat} (hf : xs.length ≤ fuel) :
    walkPrev c fuel (lastPtr xs none) = some (addrs xs).reverse := by
  induction xs using List.reverseRecOn generalizing q fuel with
  | nil => cases fuel <;> rfl
  | append_singleton xs x ih =>
    rw [linked_append] at h
    rw [List.length_append] at hf
    cases fuel with
    | zero => cases hf
    | succ fuel =>
      rw [lastPtr_append, lastPtr_cons, lastPtr_nil, Framework.walkPrev, h.2.1]
      show (Framework.walkPrev c fuel (lastPtr xs none)).bind _ = _
      rw [ih h.1 (Nat.le_of_succ_le_succ hf)]
      simp

/-- Distinct addresses below a bound are at most that many. -/
theorem length_le_of_addrs_lt {bound : Nat} (hnd : (addrs xs).Nodup) (hlt : ∀ a ∈ addrs xs, a < bound) :
    xs.length ≤ bound := by
  have hsub : addrs xs ⊆ List.range bound := fun a ha => List.mem_range.mpr (hlt a ha)
  have hle := (hnd.subperm hsub).length_le
  rwa [addrs, List.length_map, List.length_range] at hle

end Radare.Framework
