import Mathlib.Data.List.Basic
import Mathlib.Tactic.Common

namespace Radare.Framework

variable {α : Type}

def window (l : List α) (off n : Nat) : List α := (l.drop off).take n

def overwrite (l : List α) (off : Nat) (bs : List α) : List α := l.take off ++ bs ++ l.drop (off + bs.length)

variable {l bs : List α} {off : Nat}

theorem length_overwrite (h : off + bs.length ≤ l.length) : (overwrite l off bs).length = l.length := by
  simp only [overwrite, List.length_append, List.length_take, List.length_drop]
  omega

theorem length_window {n : Nat} (h : off + n ≤ l.length) : (window l off n).length = n := by
  simp only [window, List.length_take, List.length_drop]
  omega

theorem getElem?_window (l : List α) (off n i : Nat) : (window l off n)[i]? = if i < n then l[off + i]? else none := by
  rw [window, List.getElem?_take]
  split_ifs with hi
  · rw [List.getElem?_drop]
  · rfl

/-- What stands in a list after a part of it was overwritten. -/
theorem getElem?_overwrite (h : off + bs.length ≤ l.length) (i : Nat) :
    (overwrite l off bs)[i]? = if off ≤ i ∧ i < off + bs.length then bs[i - off]? else l[i]? := by
  have htake : (l.take off).length = off := List.length_take_of_le (by omega)
  rw [overwrite, List.append_assoc]
  by_cases hlow : i < off
  · rw [List.getElem?_append_left (by omega), List.getElem?_take_of_lt hlow, if_neg (by omega)]
  · rw [List.getElem?_append_right (by omega), htake]
    by_cases hin : i < off + bs.length
    · rw [List.getElem?_append_left (by omega), if_pos ⟨by omega, hin⟩]
    · rw [List.getElem?_append_right (by omega), List.getElem?_drop, if_neg (by omega),
        show off + bs.length + (i - off - bs.length) = i by omega]

theorem window_overwrite_same (h : off + bs.length ≤ l.length) : window (overwrite l off bs) off bs.length = bs := by
  apply List.ext_getElem?
  intro i
  rw [getElem?_window]
  by_cases hi : i < bs.length
  · rw [if_pos hi, getElem?_overwrite h, if_pos (by omega), Nat.add_sub_cancel_left]
  · rw [if_neg hi, List.getElem?_eq_none (by omega)]

theorem window_overwrite_apart (h : off + bs.length ≤ l.length) {a n : Nat}
    (hapart : a + n ≤ off ∨ off + bs.length ≤ a) : window (overwrite l off bs) a n = window l a n := by
  apply List.ext_getElem?
  intro i
  rw [getElem?_window, getElem?_window]
  by_cases hi : i < n
  · rw [if_pos hi, if_pos hi, getElem?_overwrite h, if_neg (by omega)]
  · rw [if_neg hi, if_neg hi]

/-- What is written behind a front of that length. -/
theorem overwrite_append (front l : List α) {n : Nat} (hfront : front.length = off) (hbs : bs.length = n) :
    overwrite (front ++ l) off bs = front ++ (bs ++ l.drop n) := by
  subst hfront hbs
  simp [overwrite, List.drop_append]

theorem overwrite_head (x y : α) (l : List α) : overwrite (x :: l) 0 [y] = y :: l := rfl

theorem window_append (front bs l : List α) (hfront : front.length = off) :
    window (front ++ (bs ++ l)) off bs.length = bs := by
  subst hfront
  simp [window]

theorem take_append_front (front bs l : List α) {n : Nat} (hn : front.length + bs.length = n) :
    (front ++ (bs ++ l)).take n = front ++ bs := by
  rw [← List.append_assoc]
  exact List.take_left' (by rw [List.length_append, hn])

end Radare.Framework

namespace Radare.Framework

variable {p : Nat → Prop} {i n hit s k : Nat} {runs : List (Nat × Nat)}

/-- The `k` indices from `s` on are a longest stretch below `n` on which `p` holds. -/
structure MaximalRun (p : Nat → Prop) (n s k : Nat) : Prop where
  pos : 0 < k
  inside : s + k ≤ n
  all : ∀ j, s ≤ j → j < s + k → p j
  before : s = 0 ∨ ¬p (s - 1)
  behind : s + k = n ∨ ¬p (s + k)

/-- After the indices below `i`: `runs` are the runs that have ended, and the last `hit` indices are on one
that has not. -/
structure RunsTo (p : Nat → Prop) (i hit : Nat) (runs : List (Nat × Nat)) : Prop where
  le : hit ≤ i
  all : ∀ j, i - hit ≤ j → j < i → p j
  before : i - hit = 0 ∨ ¬p (i - hit - 1)
  sorted : runs.Pairwise (fun r r' => r.1 < r'.1)
  ended : ∀ r, r ∈ runs ↔ MaximalRun p i r.1 r.2 ∧ r.1 + r.2 < i
  covered : ∀ j, j < i → p j → (∃ r ∈ runs, r.1 ≤ j ∧ j < r.1 + r.2) ∨ i - hit ≤ j

theorem RunsTo.start (p : Nat → Prop) : RunsTo p 0 0 [] := by
  refine ⟨Nat.le_refl 0, ?_, Or.inl rfl, List.Pairwise.nil, ?_, ?_⟩
  · intro j _ hj
    omega
  · intro r
    simp
  · intro j hj
    omega

/-- The stretch that reaches the index `i` is the open one. -/
theorem RunsTo.open_eq (h : RunsTo p i hit runs) (hlt : s < i) (hall : ∀ j, s ≤ j → j < i → p j)
    (hbefore : s = 0 ∨ ¬p (s - 1)) : s = i - hit := by
  rcases Nat.lt_trichotomy s (i - hit) with hs | hs | hs
  · have hp := hall (i - hit - 1) (by omega) (by omega)
    rcases h.before with hzero | hnot
    · omega
    · exact absurd hp hnot
  · exact hs
  · have hp := h.all (s - 1) (by omega) (by omega)
    rcases hbefore with hzero | hnot
    · omega
    · exact absurd hp hnot

/-- A run that has ended began before the open one. -/
theorem RunsTo.lt_open (h : RunsTo p i hit runs) {r : Nat × Nat} (hr : r ∈ runs) : r.1 < i - hit := by
  obtain ⟨hrun, hend⟩ := (h.ended r).mp hr
  by_contra hge
  rcases hrun.behind with hlast | hnot
  · omega
  · exact hnot (h.all _ (by omega) hend)

theorem RunsTo.sorted_snoc (h : RunsTo p i hit runs) :
    (runs ++ [(i - hit, hit)]).Pairwise (fun r r' => r.1 < r'.1) := by
  rw [List.pairwise_append]
  refine ⟨h.sorted, List.pairwise_singleton _ _, ?_⟩
  intro r hr r' hr'
  rw [List.mem_singleton.mp hr']
  exact h.lt_open hr

theorem MaximalRun.succ (hend : s + k < i) : MaximalRun p (i + 1) s k ↔ MaximalRun p i s k := by
  constructor
  · intro h
    exact ⟨h.pos, Nat.le_of_lt hend, h.all, h.before, Or.inr (h.behind.resolve_left (by omega))⟩
  · intro h
    exact ⟨h.pos, by omega, h.all, h.before, Or.inr (h.behind.resolve_left (by omega))⟩

/-- The runs that end at the index `i` itself are the open one, if it is not empty. -/
theorem RunsTo.last_iff (h : RunsTo p i hit runs) :
    (0 < k ∧ s + k = i ∧ (∀ j, s ≤ j → j < s + k → p j) ∧ (s = 0 ∨ ¬p (s - 1))) ↔
      0 < hit ∧ s = i - hit ∧ k = hit := by
  have hle := h.le
  constructor
  · rintro ⟨hpos, hend, hall, hbefore⟩
    have hs : s = i - hit := h.open_eq (by omega) (fun j hj hji => hall j hj (by omega)) hbefore
    omega
  · rintro ⟨hpos, rfl, rfl⟩
    exact ⟨hpos, by omega, fun j hj hji => h.all j hj (by omega), h.before⟩

theorem RunsTo.extend (h : RunsTo p i hit runs) (hp : p i) : RunsTo p (i + 1) (hit + 1) runs := by
  have hle := h.le
  have hstart : i + 1 - (hit + 1) = i - hit := by omega
  refine ⟨by omega, ?_, ?_, h.sorted, ?_, ?_⟩
  · intro j hj hji
    by_cases hjlast : j = i
    · rwa [hjlast]
    · exact h.all j (by omega) (by omega)
  · rw [hstart]
    exact h.before
  · intro r
    rw [h.ended]
    constructor
    · rintro ⟨hrun, hend⟩
      exact ⟨(MaximalRun.succ hend).mpr hrun, by omega⟩
    · rintro ⟨hrun, hend⟩
      have hne : r.1 + r.2 ≠ i := by
        intro heq
        exact hrun.behind.elim (fun hlast => by omega) (fun hnot => hnot (heq ▸ hp))
      exact ⟨(MaximalRun.succ (by omega)).mp hrun, by omega⟩
  · intro j hj hpj
    rw [hstart]
    by_cases hjlast : j = i
    · exact Or.inr (by omega)
    · exact h.covered j (by omega) hpj

/-- The list with the open run behind it, if there is one. -/
def closeRun (i hit : Nat) (runs : List (Nat × Nat)) : List (Nat × Nat) :=
  if hit > 0 then runs ++ [(i - hit, hit)] else runs

theorem mem_closeRun {r : Nat × Nat} : r ∈ closeRun i hit runs ↔ r ∈ runs ∨ (0 < hit ∧ r.1 = i - hit ∧ r.2 = hit) := by
  unfold closeRun
  split_ifs with hpos
  · simp [Prod.ext_iff, hpos]
  · simp [show ¬0 < hit from hpos]

theorem RunsTo.sorted_closeRun (h : RunsTo p i hit runs) :
    (closeRun i hit runs).Pairwise (fun r r' => r.1 < r'.1) := by
  unfold closeRun
  split_ifs
  · exact h.sorted_snoc
  · exact h.sorted

/-- Every index at which `p` holds lies on one of the runs. -/
theorem RunsTo.covered_closeRun (h : RunsTo p i hit runs) {j : Nat} (hj : j < i) (hp : p j) :
    ∃ r ∈ closeRun i hit runs, r.1 ≤ j ∧ j < r.1 + r.2 := by
  rcases h.covered j hj hp with ⟨r, hr, hin⟩ | hopen
  · exact ⟨r, mem_closeRun.mpr (Or.inl hr), hin⟩
  · exact ⟨(i - hit, hit), mem_closeRun.mpr (Or.inr ⟨by omega, rfl, rfl⟩), hopen, by
      have hle := h.le
      show j < i - hit + hit
      omega⟩

theorem RunsTo.miss (h : RunsTo p i hit runs) (hp : ¬p i) : RunsTo p (i + 1) 0 (closeRun i hit runs) := by
  refine ⟨Nat.zero_le _, ?_, Or.inr (by simpa using hp), h.sorted_closeRun, ?_, ?_⟩
  · intro j hj hji
    omega
  · intro r
    rw [mem_closeRun, h.ended, ← h.last_iff]
    constructor
    · rintro (⟨hrun, hend⟩ | ⟨hpos, hend, hall, hbefore⟩)
      · exact ⟨(MaximalRun.succ hend).mpr hrun, by omega⟩
      · exact ⟨⟨hpos, by omega, hall, hbefore, Or.inr (hend ▸ hp)⟩, by omega⟩
    · rintro ⟨hrun, hend⟩
      by_cases hlast : r.1 + r.2 = i
      · exact Or.inr ⟨hrun.pos, hlast, hrun.all, hrun.before⟩
      · exact Or.inl ⟨(MaximalRun.succ (by omega)).mp hrun, by omega⟩
  · intro j hj hpj
    have hne : j ≠ i := fun he => hp (he ▸ hpj)
    exact Or.inl (h.covered_closeRun (by omega) hpj)

/-- At the end the open run is a maximal one too. -/
theorem RunsTo.mem_closeRun_iff (h : RunsTo p n hit runs) (r : Nat × Nat) :
    r ∈ closeRun n hit runs ↔ MaximalRun p n r.1 r.2 := by
  rw [mem_closeRun, h.ended, ← h.last_iff]
  constructor
  · rintro (⟨hrun, -⟩ | ⟨hpos, hend, hall, hbefore⟩)
    · exact hrun
    · exact ⟨hpos, Nat.le_of_eq hend, hall, hbefore, Or.inl hend⟩
  · intro hrun
    rcases Nat.lt_or_eq_of_le hrun.inside with hlt | heq
    · exact Or.inl ⟨hrun, hlt⟩
    · exact Or.inr ⟨hrun.pos, heq, hrun.all, hrun.before⟩

/-- Windows of `b` written over `a`, one for each run. -/
def patchRuns {α : Type} (b a : List α) (runs : List (Nat × Nat)) : List α :=
  runs.foldl (fun l r => overwrite l r.1 (window b r.1 r.2)) a

theorem getElem?_patchRuns {α : Type} {a b : List α} (hruns : ∀ r ∈ runs, r.1 + r.2 ≤ a.length ∧ r.1 + r.2 ≤ b.length)
    (j : Nat) : (patchRuns b a runs)[j]? = if ∃ r ∈ runs, r.1 ≤ j ∧ j < r.1 + r.2 then b[j]? else a[j]? := by
  induction runs generalizing a with
  | nil => simp [patchRuns]
  | cons r rs ih =>
    obtain ⟨ha, hb⟩ := hruns r List.mem_cons_self
    have hlen : (window b r.1 r.2).length = r.2 := length_window hb
    have hin : r.1 + (window b r.1 r.2).length ≤ a.length := by rwa [hlen]
    have hrest : patchRuns b a (r :: rs) = patchRuns b (overwrite a r.1 (window b r.1 r.2)) rs := rfl
    rw [hrest, ih (by
      intro r' hr'
      rw [length_overwrite hin]
      exact hruns r' (List.mem_cons_of_mem r hr')), getElem?_overwrite hin, hlen]
    by_cases hlater : ∃ r' ∈ rs, r'.1 ≤ j ∧ j < r'.1 + r'.2
    · rw [if_pos hlater, if_pos]
      obtain ⟨r', hr', hj⟩ := hlater
      exact ⟨r', List.mem_cons_of_mem r hr', hj⟩
    · rw [if_neg hlater]
      by_cases hj : r.1 ≤ j ∧ j < r.1 + r.2
      · rw [if_pos hj, if_pos ⟨r, List.mem_cons_self, hj⟩, getElem?_window, if_pos (by omega)]
        congr 1
        omega
      · rw [if_neg hj, if_neg]
        rintro ⟨r', hr', hj'⟩
        rcases List.mem_cons.mp hr' with rfl | hr'
        · exact hj hj'
        · exact hlater ⟨r', hr', hj'⟩

end Radare.Framework
