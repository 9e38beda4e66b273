import Mathlib.Data.List.Induction
import Radare.Framework.Occurrences

namespace Radare.Framework

variable {α : Type} {next : Nat → α → Nat} {agree : Nat → α → Prop} {m k : Nat} {c : α} {text w v : List α}

/-- How much of a pattern of length `m` is taken as read, letter after letter; nothing again after a whole one. -/
def takenFrom (next : Nat → α → Nat) (m k : Nat) (text : List α) : Nat :=
  text.foldl (fun k c => if next k c = m then 0 else next k c) k

/-- The letters agree with the places of the pattern from `k` on. -/
def Along (agree : Nat → α → Prop) (k : Nat) (w : List α) : Prop := ∀ q c, w[q]? = some c → agree (k + q) c

/-- The last `k` letters agree with the first `k` places. -/
def EndsAlong (agree : Nat → α → Prop) (k : Nat) (text : List α) : Prop :=
  k ≤ text.length ∧ Along agree 0 (text.drop (text.length - k))

/-- What is taken as read after one more letter has been read. -/
def KeepsAlong (next : Nat → α → Nat) (agree : Nat → α → Prop) (m : Nat) : Prop :=
  ∀ k < m, ∀ w : List α, w.length = k → Along agree 0 w → ∀ c, EndsAlong agree (next k c) (w ++ [c])

theorem along_nil (k : Nat) : Along agree k ([] : List α) := fun _ _ h => by cases h

theorem along_append : Along agree k (w ++ v) ↔ Along agree k w ∧ Along agree (k + w.length) v := by
  constructor
  · intro h
    refine ⟨fun q c hq => h q c ?_, fun q c hq => ?_⟩
    · rw [List.getElem?_append_left (List.getElem?_eq_some_iff.mp hq).1]
      exact hq
    · have hfar := h (w.length + q) c (by rw [List.getElem?_append_right (Nat.le_add_right _ _), Nat.add_sub_cancel_left]; exact hq)
      rwa [← Nat.add_assoc] at hfar
  · intro h q c hq
    rcases Nat.lt_or_ge q w.length with hlt | hge
    · rw [List.getElem?_append_left hlt] at hq
      exact h.1 q c hq
    · rw [List.getElem?_append_right hge] at hq
      have hfar := h.2 (q - w.length) c hq
      rwa [show k + w.length + (q - w.length) = k + q by omega] at hfar

theorem along_singleton : Along agree k [c] ↔ agree k c := by
  constructor
  · intro h
    exact h 0 c rfl
  · intro h q d hq
    obtain ⟨hlt, rfl⟩ := List.getElem?_eq_some_iff.mp hq
    obtain rfl : q = 0 := Nat.lt_one_iff.mp hlt
    exact h

theorem endsAlong_drop (agree : Nat → α → Prop) (text : List α) (hk : k ≤ text.length) :
    EndsAlong agree (text.length - k) text ↔ Along agree 0 (text.drop k) := by
  unfold EndsAlong
  rw [show text.length - (text.length - k) = k by omega]
  exact and_iff_right (Nat.sub_le _ _)

theorem takenFrom_append (k : Nat) : takenFrom next m k (w ++ v) = takenFrom next m (takenFrom next m k w) v := List.foldl_append

theorem takenFrom_singleton : takenFrom next m k [c] = if next k c = m then 0 else next k c := rfl

/-- What is complete is reported. -/
theorem mem_matchRun {n : Nat} (h : next (takenFrom next m k w) c = m) :
    n + w.length + 1 - m ∈ matchRun next m k n (w ++ [c]) := by
  induction w generalizing k n with
  | nil =>
    rw [List.nil_append, matchRun, if_pos (show next k c = m from h)]
    exact List.mem_cons_self
  | cons d w ih =>
    rw [List.cons_append, matchRun, List.length_cons, show n + (w.length + 1) + 1 = n + 1 + w.length + 1 by omega]
    have hd : takenFrom next m k (d :: w) = takenFrom next m (if next k d = m then 0 else next k d) w := rfl
    rw [hd] at h
    by_cases hhit : next k d = m
    · rw [if_pos hhit] at h ⊢
      exact List.mem_cons_of_mem _ (ih h)
    · rw [if_neg hhit] at h ⊢
      exact ih h

theorem takenFrom_lt (hm : 0 < m) (hle : ∀ k < m, ∀ c, next k c ≤ m) (text : List α) : takenFrom next m 0 text < m := by
  induction text using List.reverseRecOn with
  | nil => exact hm
  | append_singleton text c ih =>
    have hbound := hle _ ih c
    rw [takenFrom_append, takenFrom_singleton]
    split
    · exact hm
    · omega

theorem takenFrom_le (hle : ∀ k c, next k c ≤ k + 1) (text : List α) : takenFrom next m 0 text ≤ text.length := by
  induction text using List.reverseRecOn with
  | nil => exact Nat.le_refl 0
  | append_singleton text c ih =>
    have hbound := hle (takenFrom next m 0 text) c
    rw [takenFrom_append, takenFrom_singleton, List.length_append, List.length_singleton]
    split <;> omega

/-- Along the pattern the machine goes on. -/
theorem takenFrom_along (hown : ∀ k < m, ∀ c, agree k c → next k c = k + 1) (hw : Along agree k w) (hlen : k + w.length < m) :
    takenFrom next m k w = k + w.length := by
  induction w generalizing k with
  | nil => rfl
  | cons c w ih =>
    rw [List.length_cons] at hlen ⊢
    obtain ⟨hc, hrest⟩ := along_append.mp (show Along agree k ([c] ++ w) from hw)
    have hstep := hown k (by omega) c (along_singleton.mp hc)
    have hone : takenFrom next m k (c :: w) = takenFrom next m (k + 1) w := by
      show takenFrom next m (if next k c = m then 0 else next k c) w = _
      rw [hstep, if_neg (by omega)]
    rw [hone, ih (k := k + 1) hrest (by omega)]
    omega

theorem endsAlong_snoc (hkeeps : KeepsAlong next agree m) (hk : k < m) (h : EndsAlong agree k text) (c : α) :
    EndsAlong agree (next k c) (text ++ [c]) := by
  obtain ⟨hlen, halong⟩ := h
  have hsuffix : (text.drop (text.length - k)).length = k := by
    rw [List.length_drop]
    omega
  obtain ⟨hle, hdrop⟩ := hkeeps k hk _ hsuffix halong c
  rw [List.length_append, hsuffix, List.length_singleton] at hle hdrop
  refine ⟨by rw [List.length_append, List.length_singleton]; omega, ?_⟩
  have hsplit : text ++ [c] = text.take (text.length - k) ++ (text.drop (text.length - k) ++ [c]) := by
    rw [← List.append_assoc, List.take_append_drop]
  have htake : (text.take (text.length - k)).length = text.length - k := List.length_take_of_le (Nat.sub_le _ _)
  rw [hsplit, List.drop_append, List.length_append, List.length_append, htake, hsuffix, List.length_singleton,
    List.drop_eq_nil_of_le (by rw [htake]; omega), List.nil_append]
  rwa [show text.length - k + (k + 1) - next k c - (text.length - k) = k + 1 - next k c by omega]

/-- What is taken as read has been read, where every step keeps it so. -/
theorem taken_read (hm : 0 < m) (hkeeps : KeepsAlong next agree m) (hle : ∀ k < m, ∀ c, next k c ≤ m) (text : List α) :
    EndsAlong agree (takenFrom next m 0 text) text := by
  induction text using List.reverseRecOn with
  | nil => exact ⟨Nat.zero_le _, along_nil 0⟩
  | append_singleton text c ih =>
    have hnext := endsAlong_snoc hkeeps (takenFrom_lt hm hle text) ih c
    rw [takenFrom_append, takenFrom_singleton]
    split
    · refine ⟨Nat.zero_le _, ?_⟩
      rw [Nat.sub_zero, List.drop_length]
      exact along_nil 0
    · exact hnext

theorem exists_along (hfill : ∀ k < m, ∃ c, agree k c) (d : Nat) (h : k + d ≤ m) : ∃ w, w.length = d ∧ Along agree k w := by
  induction d generalizing k with
  | zero => exact ⟨[], rfl, along_nil k⟩
  | succ d ih =>
    obtain ⟨c, hc⟩ := hfill k (by omega)
    obtain ⟨w, hlen, hw⟩ := ih (k := k + 1) (by omega)
    exact ⟨c :: w, by rw [List.length_cons, hlen], along_append.mpr ⟨along_singleton.mpr hc, hw⟩⟩

/-- Where all that is found is there, every step keeps what is taken as read: a wrong step is followed by the rest
of the pattern, and found. -/
theorem keeps_of_real (hown : ∀ k < m, ∀ c, agree k c → next k c = k + 1) (hle : ∀ k < m, ∀ c, next k c ≤ k + 1)
    (hfill : ∀ k < m, ∃ c, agree k c)
    (hreal : ∀ text c, text.length < 2 * m → next (takenFrom next m 0 text) c = m → EndsAlong agree m (text ++ [c])) :
    KeepsAlong next agree m := by
  intro k hk w hw halong c
  have hbound := hle k hk c
  have htaken : takenFrom next m 0 w = k := by
    rw [takenFrom_along hown halong (by omega), hw, Nat.zero_add]
  by_cases hend : next k c = m
  · rw [hend]
    exact hreal w c (by omega) (by rw [htaken]; exact hend)
  · obtain ⟨v, hv, hvalong⟩ := exists_along hfill (k := next k c) (m - next k c - 1) (by omega)
    obtain ⟨d, hd⟩ := hfill (m - 1) (by omega)
    have hbefore : takenFrom next m 0 (w ++ [c] ++ v) = m - 1 := by
      rw [takenFrom_append, takenFrom_append, htaken, takenFrom_singleton, if_neg hend,
        takenFrom_along hown hvalong (by omega), hv]
      omega
    have hlast : next (m - 1) d = m := by
      rw [hown (m - 1) (by omega) d hd]
      omega
    obtain ⟨_, hfound⟩ := hreal (w ++ [c] ++ v) d (by simp only [List.length_append, List.length_singleton]; omega)
      (by rw [hbefore]; exact hlast)
    refine ⟨by rw [List.length_append, List.length_singleton]; omega, ?_⟩
    simp only [List.append_assoc, List.length_append, List.length_singleton] at hfound
    rw [← List.append_assoc, List.drop_append_of_le_length (by simp; omega)] at hfound
    have hpart := (along_append.mp hfound).1
    rwa [show w.length + (1 + (v.length + 1)) - m = (w ++ [c]).length - next k c by
      rw [List.length_append, List.length_singleton]; omega] at hpart

/-- Letters that agree with the places from `j` on agree with the first places too, whatever they are. -/
theorem along_shift_iff (hfill : ∀ k < m, ∃ c, agree k c) {j : Nat} (hk : k ≤ m) :
    (∀ w, w.length = k → Along agree 0 w → Along agree 0 (w.drop j ++ [c])) ↔
      (∀ i, i + j < k → ∀ d, agree (i + j) d → agree i d) ∧ agree (k - j) c := by
  constructor
  · intro h
    obtain ⟨w, hlen, hw⟩ := exists_along hfill (k := 0) k (by omega)
    refine ⟨fun i hi d hd => ?_, ?_⟩
    · have hset : Along agree 0 (w.set (i + j) d) := by
        intro q e hq
        rw [Nat.zero_add]
        by_cases hqi : i + j = q
        · subst hqi
          rw [List.getElem?_set_self (by omega)] at hq
          rw [← Option.some.inj hq]
          exact hd
        · rw [List.getElem?_set_ne hqi] at hq
          have hold := hw q e hq
          rwa [Nat.zero_add] at hold
      have hshift := (along_append.mp (h _ (by rw [List.length_set, hlen]) hset)).1 i d (by
        rw [List.getElem?_drop, Nat.add_comm j i, List.getElem?_set_self (by omega)])
      rwa [Nat.zero_add] at hshift
    · have hlast := along_singleton.mp (along_append.mp (h w hlen hw)).2
      rwa [Nat.zero_add, List.length_drop, hlen] at hlast
  · intro h w hlen hw
    refine along_append.mpr ⟨fun q d hq => ?_, along_singleton.mpr ?_⟩
    · rw [List.getElem?_drop] at hq
      have hbound := (List.getElem?_eq_some_iff.mp hq).1
      have hold := hw (j + q) d hq
      rw [Nat.zero_add, Nat.add_comm] at hold
      rw [Nat.zero_add]
      exact h.1 q (by omega) d hold
    · rw [Nat.zero_add, List.length_drop, hlen]
      exact h.2

end Radare.Framework
