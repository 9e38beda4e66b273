import Mathlib.Init
import Mathlib.Order.WellFounded
import Mathlib.Order.Basic

namespace Radare.Framework

section Fuel

variable {S A : Type} {f : Nat → S → Option A} {s t u : S} {a b : A}

/-- A program with fuel comes from `s` to `t`: with a fixed amount more of fuel it answers in `s` what it answers in `t`. -/
def Leads (f : Nat → S → Option A) (s t : S) : Prop := ∃ j, ∀ n, f (n + j) s = f n t

/-- From some amount of fuel on the program answers `a`. -/
def EndsIn (f : Nat → S → Option A) (s : S) (a : A) : Prop := ∃ j, ∀ n, f (n + j) s = some a

theorem Leads.trans (h : Leads f s t) (h' : Leads f t u) : Leads f s u := by
  obtain ⟨j, hj⟩ := h
  obtain ⟨k, hk⟩ := h'
  refine ⟨k + j, fun n => ?_⟩
  rw [← Nat.add_assoc, hj, hk]

theorem Leads.ends (h : Leads f s t) (h' : EndsIn f t a) : EndsIn f s a := by
  obtain ⟨j, hj⟩ := h
  obtain ⟨k, hk⟩ := h'
  refine ⟨k + j, fun n => ?_⟩
  rw [← Nat.add_assoc, hj, hk]

theorem Leads.of_step (h : ∀ n, f (n + 1) s = f n t) : Leads f s t := ⟨1, h⟩

theorem EndsIn.of_step (h : ∀ n, f (n + 1) s = some a) : EndsIn f s a := ⟨1, h⟩

/-- A program that runs `g` in `t` and then goes on with its answer. -/
theorem EndsIn.bind {B : Type} {g : Nat → S → Option B} {h : B → Nat → Option A} {c : B} (hg : EndsIn g t c)
    (hh : ∃ j, ∀ n, h c (n + j) = some a) (hf : ∀ n, f (n + 1) s = (g n t).bind fun b => h b n) : EndsIn f s a := by
  obtain ⟨j, hj⟩ := hg
  obtain ⟨k, hk⟩ := hh
  refine ⟨j + k + 1, fun n => ?_⟩
  have hfirst : g (n + (j + k)) t = some c := by
    rw [Nat.add_comm j, ← Nat.add_assoc]
    exact hj (n + k)
  have hthen : h c (n + (j + k)) = some a := by
    rw [← Nat.add_assoc]
    exact hk (n + j)
  rw [← Nat.add_assoc, hf, hfirst, Option.bind_some, hthen]

/-- A program that answers under `g` what another one answers. -/
theorem EndsIn.map {T B : Type} {f' : Nat → T → Option B} {g : A → B} {r : T} (h : EndsIn f s a)
    (hf : ∀ n, (f n s).map g = f' n r) : EndsIn f' r (g a) := by
  obtain ⟨j, hj⟩ := h
  refine ⟨j, fun n => ?_⟩
  rw [← hf, hj, Option.map_some]

theorem EndsIn.det (h : EndsIn f s a) (h' : EndsIn f s b) : a = b := by
  obtain ⟨j, hj⟩ := h
  obtain ⟨k, hk⟩ := h'
  have hboth := hk j
  rw [Nat.add_comm, hj k] at hboth
  exact Option.some.inj hboth

end Fuel

/-- A round of a loop goes on with a new state, or it ends the loop. -/
inductive Round (S A : Type) where
  | next (s : S)
  | done (a : A)

section Loop

variable {S A : Type} (body : S → Option (Round S A))

/-- At most `n` rounds of a loop. A round that answers `none` has gone wrong, and the loop with it. -/
def loop : Nat → S → Option (Round S A)
  | 0, s => some (.next s)
  | n + 1, s =>
    match body s with
    | none => none
    | some (.next s') => loop n s'
    | some (.done a) => some (.done a)

variable {body}

theorem loop_next {s s' : S} (h : body s = some (.next s')) (n : Nat) : loop body (n + 1) s = loop body n s' := by
  rw [loop, h]

theorem loop_done {s : S} {a : A} (h : body s = some (.done a)) (n : Nat) :
    loop body (n + 1) s = some (.done a) := by
  rw [loop, h]

/-- A loop that ends has not gone wrong before, and it ends with one result. -/
theorem loop_of_done {n : Nat} {s : S} {a : A} (h : loop body n s = some (.done a)) (m : Nat) :
    (∃ s', loop body m s = some (.next s')) ∨ loop body m s = some (.done a) := by
  induction m generalizing n s with
  | zero => exact Or.inl ⟨s, rfl⟩
  | succ m ih =>
    cases n with
    | zero => exact absurd h (by simp [loop])
    | succ n =>
      cases hbody : body s with
      | none => exact absurd h (by simp [loop, hbody])
      | some r =>
        cases r with
        | next s' =>
          rw [loop_next hbody] at h ⊢
          exact ih h
        | done b =>
          rw [loop_done hbody] at h ⊢
          exact Or.inr h

theorem loop_done_unique {n m : Nat} {s : S} {a b : A} (hn : loop body n s = some (.done a))
    (hm : loop body m s = some (.done b)) : b = a := by
  rcases loop_of_done hn m with ⟨s', hs'⟩ | ha
  · exact absurd (hm.symm.trans hs') (by simp)
  · simpa using hm.symm.trans ha

/-- A body that keeps an invariant, goes down along a well-founded relation and ends only in good results
makes a loop that ends, in a good result. -/
theorem loop_ends {Inv : S → Prop} {Post : A → Prop} {r : S → S → Prop} (hwf : WellFounded r)
    (hbody : ∀ s, Inv s → (∃ s', body s = some (.next s') ∧ Inv s' ∧ r s' s) ∨ ∃ a, body s = some (.done a) ∧ Post a)
    (s : S) (hs : Inv s) : ∃ n a, loop body n s = some (.done a) ∧ Post a := by
  induction s using hwf.induction with
  | _ s ih =>
    rcases hbody s hs with ⟨s', hnext, hs', hr⟩ | ⟨a, hdone, ha⟩
    · obtain ⟨n, a, hn, ha⟩ := ih s' hr hs'
      exact ⟨n + 1, a, (loop_next hnext n).trans hn, ha⟩
    · exact ⟨1, a, loop_done hdone 0, ha⟩

end Loop

section Clear

variable {good stop : Nat → Prop} {i m n : Nat}

/-- The `n` places from `i` on are good up to the first stop, and that one too. -/
def Clear (good stop : Nat → Prop) (i n : Nat) : Prop := ∀ j < n, (∀ k < j, ¬stop (i + k)) → good (i + j)

theorem clear_zero : Clear good stop i 0 := fun j hj => absurd hj (Nat.not_lt_zero j)

/-- The places behind `m` others. -/
theorem clear_add : Clear good stop i (m + n) ↔
    Clear good stop i m ∧ ((∀ k < m, ¬stop (i + k)) → Clear good stop (i + m) n) := by
  constructor
  · refine fun h => ⟨fun j hj hgo => h j (by omega) hgo, fun hgo j hj hgo' => ?_⟩
    have hgood := h (m + j) (by omega)
    rw [← Nat.add_assoc] at hgood
    refine hgood (fun k hk => ?_)
    by_cases hkm : k < m
    · exact hgo k hkm
    · have hnot := hgo' (k - m) (by omega)
      rw [show i + m + (k - m) = i + k by omega] at hnot
      exact hnot
  · rintro ⟨hfirst, hrest⟩ j hj hgo
    by_cases hjm : j < m
    · exact hfirst j hjm hgo
    · have hgood := hrest (fun k hk => hgo k (by omega)) (j - m) (by omega)
      rw [show i + m + (j - m) = i + j by omega] at hgood
      refine hgood (fun k hk => ?_)
      rw [Nat.add_assoc]
      exact hgo (m + k) (by omega)

theorem clear_one : Clear good stop i 1 ↔ good i := by
  constructor
  · intro h
    exact h 0 Nat.one_pos (fun k hk => absurd hk (Nat.not_lt_zero k))
  · intro h j hj _
    rw [Nat.lt_one_iff.mp hj]
    exact h

theorem clear_succ : Clear good stop i (n + 1) ↔ good i ∧ (¬stop i → Clear good stop (i + 1) n) := by
  have hone : (∀ k < 1, ¬stop (i + k)) ↔ ¬stop i := by simp
  rw [Nat.add_comm n 1, clear_add, clear_one, hone]

theorem stops_succ : (∃ k < n + 1, stop (i + k)) ↔ stop i ∨ ∃ k < n, stop (i + 1 + k) := by
  constructor
  · rintro ⟨k, hk, hstop⟩
    cases k with
    | zero => exact .inl hstop
    | succ k =>
      rw [show i + (k + 1) = i + 1 + k by omega] at hstop
      exact .inr ⟨k, by omega, hstop⟩
  · rintro (hstop | ⟨k, hk, hstop⟩)
    · exact ⟨0, by omega, hstop⟩
    · rw [show i + 1 + k = i + (k + 1) by omega] at hstop
      exact ⟨k + 1, by omega, hstop⟩

/-- The places of `m` blocks, one block a place. -/
theorem clear_blocks {len : Nat} :
    Clear (fun b => Clear good stop (b * len) len) (fun b => ∃ k < len, stop (b * len + k)) i m ↔
      Clear good stop (i * len) (m * len) := by
  induction m generalizing i with
  | zero =>
    rw [Nat.zero_mul]
    exact iff_of_true clear_zero clear_zero
  | succ m ih =>
    have hnone : (¬∃ k < len, stop (i * len + k)) ↔ ∀ k < len, ¬stop (i * len + k) := by simp
    rw [clear_succ, ih, hnone, Nat.add_one_mul m, Nat.add_comm (m * len) len, clear_add, Nat.add_one_mul i]

end Clear

section ForLoop

variable {ε S : Type} {turn : Nat → S → Except ε (S × Bool)} {Inv : Nat → S → Prop} {good stop : Nat → Prop} {top : Nat}

/-- `n` turns of a loop from `i` on. A turn that answers `true` leaves the loop, and one that fails ends all. -/
def forLoop (turn : Nat → S → Except ε (S × Bool)) : Nat → Nat → S → Except ε (S × Bool)
  | 0, _, s => .ok (s, false)
  | n + 1, i, s => do
    let r ← turn i s
    if r.2 then .ok r else forLoop turn n (i + 1) r.1

/-- What a turn does below `top`: it fails where the place is not good, and leaves the loop where there is a stop. -/
structure Guarded (turn : Nat → S → Except ε (S × Bool)) (Inv : Nat → S → Prop) (good stop : Nat → Prop)
    (top : Nat) : Prop where
  runs : ∀ {i s}, i < top → Inv i s → good i →
    ∃ r, turn i s = .ok r ∧ (r.2 = true ↔ stop i) ∧ (¬stop i → Inv (i + 1) r.1)
  fails : ∀ {i s}, i < top → Inv i s → ¬good i → ∃ e, turn i s = .error e

theorem Guarded.forLoop_runs (h : Guarded turn Inv good stop top) {n i : Nat} (hn : i + n ≤ top) {s : S} (hinv : Inv i s)
    (hclear : Clear good stop i n) :
    ∃ r, forLoop turn n i s = .ok r ∧ (r.2 = true ↔ ∃ k < n, stop (i + k)) ∧
      ((¬∃ k < n, stop (i + k)) → Inv (i + n) r.1) := by
  induction n generalizing i s with
  | zero => exact ⟨(s, false), rfl, by simp, fun _ => hinv⟩
  | succ n ih =>
    obtain ⟨hgood, hrest⟩ := clear_succ.mp hclear
    obtain ⟨r, hturn, hstop, hnext⟩ := h.runs (by omega) hinv hgood
    rw [forLoop, hturn, stops_succ]
    show ∃ r', (if r.2 = true then _ else _) = _ ∧ _
    by_cases hr : r.2 = true
    · rw [if_pos hr]
      have hat := hstop.mp hr
      exact ⟨r, rfl, iff_of_true hr (.inl hat), fun hno => absurd (.inl hat) hno⟩
    · rw [if_neg hr]
      have hno : ¬stop i := fun hat => hr (hstop.mpr hat)
      obtain ⟨r', hrun, hstop', hinv'⟩ := ih (by omega) (hnext hno) (hrest hno)
      refine ⟨r', hrun, hstop'.trans (or_iff_right hno).symm, fun hnone => ?_⟩
      rw [show i + (n + 1) = i + 1 + n by omega]
      exact hinv' (fun hat => hnone (.inr hat))

theorem Guarded.forLoop_fails (h : Guarded turn Inv good stop top) {n i : Nat} (hn : i + n ≤ top) {s : S} (hinv : Inv i s)
    (hclear : ¬Clear good stop i n) : ∃ e, forLoop turn n i s = .error e := by
  induction n generalizing i s with
  | zero => exact absurd clear_zero hclear
  | succ n ih =>
    rw [clear_succ, not_and_or] at hclear
    by_cases hgood : good i
    · obtain ⟨r, hturn, hstop, hnext⟩ := h.runs (by omega) hinv hgood
      obtain ⟨hno, hrest⟩ := Classical.not_imp.mp (hclear.resolve_left (not_not_intro hgood))
      have hr : ¬r.2 = true := fun hr => hno (hstop.mp hr)
      obtain ⟨e, hrun⟩ := ih (by omega) (hnext hno) hrest
      refine ⟨e, ?_⟩
      rw [forLoop, hturn]
      show (if r.2 = true then _ else _) = _
      rw [if_neg hr, hrun]
    · obtain ⟨e, hturn⟩ := h.fails (by omega) hinv hgood
      refine ⟨e, ?_⟩
      rw [forLoop, hturn]
      rfl

theorem Guarded.forLoop_iff (h : Guarded turn Inv good stop top) {n i : Nat} (hn : i + n ≤ top) {s : S} (hinv : Inv i s) :
    (∃ r, forLoop turn n i s = .ok r) ↔ Clear good stop i n := by
  constructor
  · rintro ⟨r, hrun⟩
    by_contra hclear
    obtain ⟨e, hfail⟩ := h.forLoop_fails hn hinv hclear
    rw [hrun] at hfail
    cases hfail
  · intro hclear
    obtain ⟨r, hrun, -⟩ := h.forLoop_runs hn hinv hclear
    exact ⟨r, hrun⟩

end ForLoop

end Radare.Framework
