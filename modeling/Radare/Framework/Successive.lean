import Mathlib.Data.List.Basic

namespace Radare.Framework

/-- A finder answers, for the place where a window begins, with a match of least start in the window, whenever
there is a match in it. The window ends at `hi`. -/
structure Leftmost (isMatch : Nat → Nat → Prop) (hi : Nat) (find : Nat → Option (Nat × Nat)) : Prop where
  found : ∀ {lo m}, find lo = some m → isMatch m.1 m.2 ∧ lo ≤ m.1 ∧ m.1 ≤ m.2 ∧ m.2 ≤ hi
  least : ∀ {lo m so eo}, find lo = some m → isMatch so eo → lo ≤ so → so ≤ eo → eo ≤ hi → m.1 ≤ so
  complete : ∀ {lo so eo}, isMatch so eo → lo ≤ so → so ≤ eo → eo ≤ hi → find lo ≠ none

variable {isMatch : Nat → Nat → Prop} {hi lo fuel : Nat} {find : Nat → Option (Nat × Nat)} {m : Nat × Nat}
  {ms : List (Nat × Nat)}

/-- The matches that are found one after another, each in the window from the end of the one before. -/
def successive (find : Nat → Option (Nat × Nat)) : Nat → Nat → Option (List (Nat × Nat))
  | 0, _ => none
  | fuel + 1, lo =>
    match find lo with
    | none => some []
    | some m => (successive find fuel m.2).map (m :: ·)

/-- The places where the windows begin. -/
inductive Starts (find : Nat → Option (Nat × Nat)) : Nat → Nat → Prop where
  | first (lo : Nat) : Starts find lo lo
  | next {lo hi : Nat} {m : Nat × Nat} (h : find lo = some m) (hs : Starts find m.2 hi) : Starts find lo hi

/-- Every match that is found from here on has a length. -/
def Advances (find : Nat → Option (Nat × Nat)) (lo : Nat) : Prop :=
  ∀ p m, Starts find lo p → find p = some m → m.1 ≠ m.2

/-- Matches in increasing order, none of which overlaps another, inside the buffer. -/
def Separate (hi : Nat) (ms : List (Nat × Nat)) : Prop :=
  ms.Pairwise (fun a b => a.1 < b.1 ∧ a.2 ≤ b.1) ∧ ∀ m ∈ ms, m.1 ≤ m.2 ∧ m.2 ≤ hi

theorem successive_none (find : Nat → Option (Nat × Nat)) (h : find lo = none) : successive find (fuel + 1) lo = some [] := by rw [successive, h]

theorem successive_some (find : Nat → Option (Nat × Nat)) (h : find lo = some m) :
    successive find (fuel + 1) lo = (successive find fuel m.2).map (m :: ·) := by rw [successive, h]

theorem Advances.next (h : Advances find lo) (hm : find lo = some m) : Advances find m.2 :=
  fun p m' hs hm' => h p m' (Starts.next hm hs) hm'

theorem Advances.here (h : Advances find lo) (hm : find lo = some m) : m.1 ≠ m.2 := h lo m (Starts.first lo) hm

/-- A match that ends where its window begins is found for ever. -/
theorem successive_stuck (find : Nat → Option (Nat × Nat)) (h : find lo = some m) (hm : m.2 = lo) (fuel : Nat) : successive find fuel lo = none := by
  induction fuel with
  | zero => rfl
  | succ fuel ih => rw [successive_some find h, hm, ih, Option.map_none]

/-- All that is found lies in the window. -/
theorem Leftmost.bounds (hf : Leftmost isMatch hi find) (h : successive find fuel lo = some ms) :
    ∀ m ∈ ms, lo ≤ m.1 ∧ m.1 ≤ m.2 ∧ m.2 ≤ hi := by
  induction fuel generalizing lo ms with
  | zero => cases h
  | succ fuel ih =>
    cases hm : find lo with
    | none =>
      rw [successive_none find hm] at h
      cases h
      exact fun m hm => absurd hm List.not_mem_nil
    | some m =>
      rw [successive_some find hm] at h
      obtain ⟨rest, hrest, rfl⟩ := Option.map_eq_some_iff.mp h
      have hbounds := (hf.found hm).2
      refine List.forall_mem_cons.mpr ⟨hbounds, fun m' hm' => ?_⟩
      have hlater := ih hrest m' hm'
      omega

theorem Leftmost.ends (hf : Leftmost isMatch hi find) (h : Advances find lo) : ∃ fuel ms, successive find fuel lo = some ms := by
  generalize hd : hi - lo = d
  induction d using Nat.strongRecOn generalizing lo with
  | _ d ih =>
    cases hm : find lo with
    | none => exact ⟨1, [], successive_none find hm⟩
    | some m =>
      have hbounds := (hf.found hm).2
      have hne := h.here hm
      obtain ⟨fuel, ms, hms⟩ := ih (hi - m.2) (by omega) (h.next hm) rfl
      refine ⟨fuel + 1, m :: ms, ?_⟩
      rw [successive_some find hm, hms, Option.map_some]

theorem Leftmost.separate (hf : Leftmost isMatch hi find) (h : Advances find lo) (hms : successive find fuel lo = some ms) :
    Separate hi ms := by
  refine ⟨?_, fun m hm => (hf.bounds hms m hm).2⟩
  induction fuel generalizing lo ms with
  | zero => cases hms
  | succ fuel ih =>
    cases hm : find lo with
    | none =>
      rw [successive_none find hm] at hms
      cases hms
      exact List.Pairwise.nil
    | some m =>
      rw [successive_some find hm] at hms
      obtain ⟨rest, hrest, rfl⟩ := Option.map_eq_some_iff.mp hms
      have hne := h.here hm
      have hbounds := (hf.found hm).2
      refine List.pairwise_cons.mpr ⟨fun m' hm' => ?_, ih (h.next hm) hrest⟩
      have hlater := (hf.bounds hrest m' hm').1
      omega

/-- Behind an empty match another one begins at the same place. -/
theorem Leftmost.advances (hf : Leftmost isMatch hi find) (hms : successive find fuel lo = some ms)
    (hsep : ms.Pairwise (fun a b => a.1 < b.1 ∧ a.2 ≤ b.1)) : Advances find lo := by
  intro p m hs hm hempty
  induction hs generalizing fuel ms with
  | first lo =>
    obtain ⟨hmatch, hle, _, hhi⟩ := hf.found hm
    obtain ⟨m', hm'⟩ := Option.ne_none_iff_exists'.mp (@Leftmost.complete _ _ _ hf m.2 _ _ hmatch (by omega) (by omega) hhi)
    have hleast := hf.least hm' hmatch (by omega) (by omega) hhi
    cases fuel with
    | zero => cases hms
    | succ fuel =>
      rw [successive_some find hm] at hms
      obtain ⟨rest, hrest, rfl⟩ := Option.map_eq_some_iff.mp hms
      cases fuel with
      | zero => cases hrest
      | succ fuel =>
        rw [successive_some find hm'] at hrest
        obtain ⟨rest, _, rfl⟩ := Option.map_eq_some_iff.mp hrest
        have hlt := ((List.pairwise_cons.mp hsep).1 m' List.mem_cons_self).1
        omega
  | next hfirst _ ih =>
    cases fuel with
    | zero => cases hms
    | succ fuel =>
      rw [successive_some find hfirst] at hms
      obtain ⟨rest, hrest, rfl⟩ := Option.map_eq_some_iff.mp hms
      exact ih hrest (List.pairwise_cons.mp hsep).2 hm

/-- The search ends and finds separate matches exactly when it finds no empty one. -/
theorem Leftmost.ends_iff (hf : Leftmost isMatch hi find) :
    (∃ fuel ms, successive find fuel lo = some ms ∧ Separate hi ms) ↔ Advances find lo := by
  constructor
  · intro h
    obtain ⟨fuel, ms, hms, hsep⟩ := h
    exact hf.advances hms hsep.1
  · intro h
    obtain ⟨fuel, ms, hms⟩ := hf.ends h
    exact ⟨fuel, ms, hms, hf.separate h hms⟩

end Radare.Framework
