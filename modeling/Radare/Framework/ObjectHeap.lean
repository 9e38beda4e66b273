import Mathlib.Logic.Function.Basic
import Mathlib.Tactic.Common

namespace Radare.Framework

/-- Objects under references that are handed out once; a reference without an object is not yet
allocated or freed. -/
structure ObjectHeap (β : Type) where
  object : Nat → Option β
  next : Nat
  fresh : ∀ i, next ≤ i → object i = none

namespace ObjectHeap

variable {β : Type}

def empty : ObjectHeap β where
  object _ := none
  next := 0
  fresh := by simp

/-- The new object has the reference `h.next`. -/
def alloc (h : ObjectHeap β) (b : β) : ObjectHeap β where
  object := Function.update h.object h.next (some b)
  next := h.next + 1
  fresh := by
    intro i hi
    rw [Function.update_of_ne (by omega)]
    exact h.fresh i (by omega)

/-- Freeing what is not an object is undefined. -/
def free (h : ObjectHeap β) (i : Nat) : Option (ObjectHeap β) :=
  if (h.object i).isSome then
    some
      { object := Function.update h.object i none
        next := h.next
        fresh := by
          intro j hj
          by_cases hij : j = i
          · rw [hij, Function.update_self]
          · rw [Function.update_of_ne hij]
            exact h.fresh j hj }
  else none

def store (h : ObjectHeap β) (i : Nat) (b : β) : Option (ObjectHeap β) :=
  if hi : (h.object i).isSome then
    some
      { object := Function.update h.object i (some b)
        next := h.next
        fresh := by
          intro j hj
          rw [Function.update_of_ne]
          · exact h.fresh j hj
          · intro hij
            rw [← hij, h.fresh j hj] at hi
            simp at hi }
  else none

def freeAll (h : ObjectHeap β) : List Nat → Option (ObjectHeap β)
  | [] => some h
  | i :: is => (h.free i).bind (fun h => h.freeAll is)

/-- The first of the listed objects with a property. -/
def find (h : ObjectHeap β) (p : β → Bool) : List Nat → Option (Option Nat)
  | [] => some none
  | i :: is => (h.object i).bind (fun b => if p b then some (some i) else h.find p is)

theorem lt_next (h : ObjectHeap β) {i : Nat} (hi : (h.object i).isSome) : i < h.next := by
  by_contra hn
  rw [h.fresh i (by omega)] at hi
  simp at hi

theorem free_eq_some {h h' : ObjectHeap β} {i : Nat} (hf : h.free i = some h') :
    (h.object i).isSome ∧ h'.object = Function.update h.object i none ∧ h'.next = h.next := by
  rw [free] at hf
  split at hf
  · cases hf
    exact ⟨‹_›, rfl, rfl⟩
  · cases hf

theorem exists_free {h : ObjectHeap β} {i : Nat} (hi : (h.object i).isSome) :
    ∃ h' : ObjectHeap β, h.free i = some h' := by
  rw [free, if_pos hi]
  exact ⟨_, rfl⟩

theorem store_eq_some {h h' : ObjectHeap β} {i : Nat} {b : β} (hs : h.store i b = some h') :
    (h.object i).isSome ∧ h'.object = Function.update h.object i (some b) ∧ h'.next = h.next := by
  rw [store] at hs
  split at hs
  · cases hs
    exact ⟨‹_›, rfl, rfl⟩
  · cases hs

theorem exists_store {h : ObjectHeap β} {i : Nat} (hi : (h.object i).isSome) (b : β) :
    ∃ h' : ObjectHeap β, h.store i b = some h' := by
  rw [store, dif_pos hi]
  exact ⟨_, rfl⟩

/-- Different objects are freed one after the other, the others stay. -/
theorem freeAll_spec (is : List Nat) (h : ObjectHeap β) (hnd : is.Nodup)
    (hlive : ∀ i ∈ is, (h.object i).isSome) :
    ∃ h' : ObjectHeap β, h.freeAll is = some h' ∧ h'.next = h.next ∧
      ∀ j, h'.object j = if j ∈ is then none else h.object j := by
  induction is generalizing h with
  | nil => exact ⟨h, rfl, rfl, by simp⟩
  | cons i is ih =>
    obtain ⟨hi, hnd⟩ := List.nodup_cons.mp hnd
    obtain ⟨h1, hf⟩ := exists_free (hlive i (by simp))
    obtain ⟨-, hobj, hnext⟩ := free_eq_some hf
    have hlive1 : ∀ j ∈ is, (h1.object j).isSome := by
      intro j hj
      have hji : j ≠ i := fun he => hi (he ▸ hj)
      rw [hobj, Function.update_of_ne hji]
      exact hlive j (by simp [hj])
    obtain ⟨h2, hall, hnext2, hobj2⟩ := ih h1 hnd hlive1
    refine ⟨h2, ?_, ?_, ?_⟩
    · rw [freeAll, hf]
      exact hall
    · rw [hnext2, hnext]
    · intro j
      rw [hobj2, hobj]
      by_cases hji : j = i
      · simp [hji]
      · simp [hji]

/-- Among live objects the search answers, with one that has the property. -/
theorem find_spec (h : ObjectHeap β) (p : β → Bool) (is : List Nat)
    (hlive : ∀ i ∈ is, (h.object i).isSome) :
    (h.find p is = some none ∧ ∀ i ∈ is, ∀ b, h.object i = some b → p b = false) ∨
      ∃ i ∈ is, ∃ b, h.find p is = some (some i) ∧ h.object i = some b ∧ p b = true := by
  induction is with
  | nil => exact Or.inl ⟨rfl, by simp⟩
  | cons i is ih =>
    obtain ⟨b, hb⟩ := Option.isSome_iff_exists.mp (hlive i (by simp))
    by_cases hp : p b = true
    · exact Or.inr ⟨i, by simp, b, by simp [find, hb, hp], hb, hp⟩
    · have hfind : h.find p (i :: is) = h.find p is := by simp [find, hb, hp]
      rw [hfind]
      rcases ih (fun j hj => hlive j (by simp [hj])) with ⟨hn, hall⟩ | ⟨j, hj, c, hc⟩
      · refine Or.inl ⟨hn, ?_⟩
        intro j hj c hc
        rcases List.mem_cons.mp hj with rfl | hj
        · rw [hb] at hc
          cases hc
          simpa using hp
        · exact hall j hj c hc
      · exact Or.inr ⟨j, by simp [hj], c, hc⟩

end ObjectHeap

end Radare.Framework
