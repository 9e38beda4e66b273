import Radare.Framework.MachineInt
import Mathlib.Logic.Function.Basic

namespace Radare.Framework.Brainfuck

def byte (c : Char) : Ut8 := BitVec.ofNat 8 c.toNat

/-- The distance to the first `down` that is not paired with an `up` read before it. -/
def partner (up down : Ut8) : Nat → List Ut8 → Option Nat
  | _, [] => none
  | level, b :: bs =>
    if b = up then (partner up down (level + 1) bs).map (· + 1)
    else if b = down then
      if level = 0 then some 0 else (partner up down (level - 1) bs).map (· + 1)
    else (partner up down level bs).map (· + 1)

/-- The `]` that belongs to the `[` at `i`. -/
def closingOf (p : List Ut8) (i : Nat) : Option Nat :=
  (partner (byte '[') (byte ']') 0 (p.drop (i + 1))).map (i + 1 + ·)

/-- The `[` that belongs to the `]` at `j`. -/
def openingOf (p : List Ut8) (j : Nat) : Option Nat :=
  (partner (byte ']') (byte '[') 0 (p.take j).reverse).map (j - 1 - ·)

/-- The number of open brackets after the text, if no bracket is closed that was not opened. -/
def levelFrom : Nat → List Ut8 → Option Nat
  | level, [] => some level
  | level, b :: bs =>
    if b = byte '[' then levelFrom (level + 1) bs
    else if b = byte ']' then
      if level = 0 then none else levelFrom (level - 1) bs
    else levelFrom level bs

def WellBracketed (p : List Ut8) : Prop := levelFrom 0 p = some 0

structure State where
  pc : Nat
  tape : Int → Ut8
  head : Int
  read : Nat
  out : List Ut8

def State.init : State where
  pc := 0
  tape _ := 0
  head := 0
  read := 0
  out := []

def State.cell (s : State) : Ut8 := s.tape s.head

def State.next (s : State) : State := { s with pc := s.pc + 1 }

def State.setCell (s : State) (b : Ut8) : State :=
  { s with tape := Function.update s.tape s.head b }

/-- One command; behind the program there is none. A `]` that goes back goes behind its `[`, whose
test the same cell would pass. Bytes that are no commands are passed over. -/
def step (input : Nat → Ut8) (p : List Ut8) (s : State) : Option State :=
  match p[s.pc]? with
  | none => none
  | some b =>
    if b = byte '>' then some { s.next with head := s.head + 1 }
    else if b = byte '<' then some { s.next with head := s.head - 1 }
    else if b = byte '+' then some (s.setCell (s.cell + 1)).next
    else if b = byte '-' then some (s.setCell (s.cell - 1)).next
    else if b = byte '.' then some { s.next with out := s.out ++ [s.cell] }
    else if b = byte ',' then some { (s.setCell (input s.read)).next with read := s.read + 1 }
    else if b = byte '[' then
      if s.cell = 0 then (closingOf p s.pc).map (fun j => { s with pc := j + 1 }) else some s.next
    else if b = byte ']' then
      if s.cell = 0 then some s.next else (openingOf p s.pc).map (fun i => { s with pc := i + 1 })
    else some s.next

def steps (input : Nat → Ut8) (p : List Ut8) : Nat → State → Option State
  | 0, s => some s
  | n + 1, s => (steps input p n s).bind (step input p)

theorem levelFrom_append (level : Nat) (bs cs : List Ut8) :
    levelFrom level (bs ++ cs) = (levelFrom level bs).bind (fun l => levelFrom l cs) := by
  induction bs generalizing level with
  | nil => rfl
  | cons b bs ih =>
    rw [List.cons_append, levelFrom, levelFrom]
    split
    · exact ih (level + 1)
    · split
      · split
        · rfl
        · exact ih (level - 1)
      · exact ih level

theorem byte_brackets : byte ']' ≠ byte '[' := by decide

/-- A text that comes down below the level it starts at holds the bracket that does it. -/
theorem partner_of_level (k : Nat) {l : Nat} {bs : List Ut8} (h : levelFrom (k + 1 + l) bs = some 0) :
    ∃ n, partner (byte '[') (byte ']') l bs = some n := by
  induction bs generalizing l with
  | nil => simp [levelFrom] at h
  | cons b bs ih =>
    rw [levelFrom] at h
    rw [partner]
    by_cases hopen : b = byte '['
    · rw [if_pos hopen] at h ⊢
      obtain ⟨n, hn⟩ := ih (l := l + 1) h
      exact ⟨n + 1, by rw [hn, Option.map_some]⟩
    · rw [if_neg hopen] at h ⊢
      by_cases hclose : b = byte ']'
      · rw [if_pos hclose, if_neg (by omega)] at h
        rw [if_pos hclose]
        by_cases hl : l = 0
        · exact ⟨0, if_pos hl⟩
        · have hlevel : k + 1 + l - 1 = k + 1 + (l - 1) := by omega
          rw [hlevel] at h
          obtain ⟨n, hn⟩ := ih h
          exact ⟨n + 1, by rw [if_neg hl, hn, Option.map_some]⟩
      · rw [if_neg hclose] at h ⊢
        obtain ⟨n, hn⟩ := ih h
        exact ⟨n + 1, by rw [hn, Option.map_some]⟩

/-- Read backwards, a text that leaves more than `l` brackets open holds the last of them. -/
theorem partner_reverse_of_level {l d : Nat} {bs : List Ut8} (h : levelFrom 0 bs = some d)
    (hl : l < d) : ∃ n, partner (byte ']') (byte '[') l bs.reverse = some n := by
  induction bs using List.reverseRecOn generalizing l d with
  | nil =>
    simp only [levelFrom, Option.some.injEq] at h
    omega
  | append_singleton bs b ih =>
    rw [levelFrom_append] at h
    obtain ⟨e, he, hb⟩ := Option.bind_eq_some_iff.mp h
    rw [levelFrom] at hb
    rw [List.reverse_append, List.reverse_singleton, List.singleton_append, partner]
    by_cases hclose : b = byte ']'
    · have hopen : b ≠ byte '[' := by
        rw [hclose]
        exact byte_brackets
      rw [if_neg hopen, if_pos hclose] at hb
      split at hb
      · cases hb
      · rw [levelFrom, Option.some.injEq] at hb
        obtain ⟨n, hn⟩ := ih (l := l + 1) he (by omega)
        exact ⟨n + 1, by rw [if_pos hclose, hn, Option.map_some]⟩
    · rw [if_neg hclose]
      by_cases hopen : b = byte '['
      · rw [if_pos hopen, levelFrom, Option.some.injEq] at hb
        rw [if_pos hopen]
        by_cases hzero : l = 0
        · exact ⟨0, if_pos hzero⟩
        · obtain ⟨n, hn⟩ := ih (l := l - 1) he (by omega)
          exact ⟨n + 1, by rw [if_neg hzero, hn, Option.map_some]⟩
      · rw [if_neg hopen, if_neg hclose, levelFrom, Option.some.injEq] at hb
        rw [if_neg hopen]
        obtain ⟨n, hn⟩ := ih (l := l) he (by omega)
        exact ⟨n + 1, by rw [hn, Option.map_some]⟩

/-- The bracket found is the one looked for. -/
theorem partner_spec {up down : Ut8} {l n : Nat} {bs : List Ut8} (h : partner up down l bs = some n) :
    bs[n]? = some down := by
  induction bs generalizing l n with
  | nil => cases h
  | cons b bs ih =>
    rw [partner] at h
    have hnext : ∀ k, (partner up down k bs).map (· + 1) = some n → (b :: bs)[n]? = some down := by
      intro k hk
      obtain ⟨m, hm, hmn⟩ := Option.map_eq_some_iff.mp hk
      rw [← hmn, List.getElem?_cons_succ]
      exact ih hm
    split at h
    · exact hnext _ h
    · split at h
      · split at h
        · cases h
          simpa using ‹b = down›
        · exact hnext _ h
      · exact hnext _ h

theorem splitAt_pc {p : List Ut8} {i : Nat} {b : Ut8} (h : p[i]? = some b) :
    p = p.take i ++ b :: p.drop (i + 1) := by
  obtain ⟨hi, hb⟩ := List.getElem?_eq_some_iff.mp h
  rw [← hb, List.getElem_cons_drop, List.take_append_drop]

/-- Every bracket of a well-bracketed program has its partner. -/
theorem WellBracketed.closing {p : List Ut8} (h : WellBracketed p) {i : Nat}
    (hi : p[i]? = some (byte '[')) : ∃ j, closingOf p i = some j := by
  have hsplit := splitAt_pc hi
  rw [WellBracketed, hsplit, levelFrom_append] at h
  obtain ⟨d, -, hd⟩ := Option.bind_eq_some_iff.mp h
  rw [levelFrom, if_pos rfl] at hd
  obtain ⟨n, hn⟩ := partner_of_level d (l := 0) hd
  exact ⟨i + 1 + n, by rw [closingOf, hn, Option.map_some]⟩

theorem WellBracketed.opening {p : List Ut8} (h : WellBracketed p) {j : Nat}
    (hj : p[j]? = some (byte ']')) : ∃ i, openingOf p j = some i ∧ i < j ∧ p[i]? = some (byte '[') := by
  have hsplit := splitAt_pc hj
  rw [WellBracketed, hsplit, levelFrom_append] at h
  obtain ⟨d, hd, hrest⟩ := Option.bind_eq_some_iff.mp h
  rw [levelFrom, if_neg byte_brackets, if_pos rfl] at hrest
  split at hrest
  · cases hrest
  · obtain ⟨n, hn⟩ := partner_reverse_of_level hd (show 0 < d by omega)
    have hlen : j < p.length := (List.getElem?_eq_some_iff.mp hj).1
    have hat := partner_spec hn
    have hnlt : n < (p.take j).reverse.length := (List.getElem?_eq_some_iff.mp hat).1
    rw [List.length_reverse, List.length_take, Nat.min_eq_left (by omega)] at hnlt
    rw [List.getElem?_reverse (by simp; omega), List.length_take, Nat.min_eq_left (by omega),
      List.getElem?_take_of_lt (by omega)] at hat
    exact ⟨j - 1 - n, by rw [openingOf, hn, Option.map_some], by omega, hat⟩

end Radare.Framework.Brainfuck
