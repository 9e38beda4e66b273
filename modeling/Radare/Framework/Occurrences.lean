import Mathlib.Data.List.Basic
import Mathlib.Data.List.Infix

namespace Radare.Framework

variable {α : Type}

/-- A machine that keeps how much of the pattern is read; it reports where a whole one began. -/
def matchRun (next : Nat → α → Nat) (m : Nat) : Nat → Nat → List α → List Nat
  | _, _, [] => []
  | k, n, c :: rest =>
    if next k c = m then (n + 1 - m) :: matchRun next m 0 (n + 1) rest else matchRun next m (next k c) (n + 1) rest

/-- What follows a border of a prefix of the pattern follows the prefix. -/
def BordersAgree (p : List α) : Prop :=
  ∀ k < p.length, ∀ i < k, 0 < i → p.take i = (p.take k).drop (k - i) → p[i]? = p[k]?

section Along

variable {p : List α} {next : Nat → α → Nat}

theorem matchRun_short {m : Nat} (hnext : ∀ k c, next k c ≤ k + 1) {k n : Nat} {buf : List α}
    (h : k + buf.length < m) : matchRun next m k n buf = [] := by
  induction buf generalizing k n with
  | nil => rfl
  | cons c rest ih =>
    have hle := hnext k c
    rw [List.length_cons] at h
    rw [matchRun, if_neg (by omega)]
    exact ih (by omega)

theorem prefix_drop_cons {k : Nat} {x : α} {xs : List α} (h : x :: xs <+: p.drop k) :
    p[k]? = some x ∧ xs <+: p.drop (k + 1) := by
  obtain ⟨t, ht⟩ := h
  rw [List.cons_append] at ht
  constructor
  · rw [← Nat.add_zero k, ← List.getElem?_drop, ← ht]
    rfl
  · rw [← List.drop_drop, ← ht]
    exact List.prefix_append xs t

/-- The machine goes on along the pattern. -/
theorem matchRun_along {m : Nat} (hown : ∀ k c, p[k]? = some c → next k c = k + 1)
    {k n : Nat} {xs : List α} (hxs : xs <+: p.drop k) (hlen : k + xs.length < m) (rest : List α) :
    matchRun next m k n (xs ++ rest) = matchRun next m (k + xs.length) (n + xs.length) rest := by
  induction xs generalizing k n with
  | nil => rfl
  | cons x xs ih =>
    obtain ⟨hget, htail⟩ := prefix_drop_cons hxs
    rw [List.length_cons] at hlen ⊢
    rw [List.cons_append, matchRun, hown k x hget, if_neg (by omega), ih htail (by omega),
      show k + 1 + xs.length = k + (xs.length + 1) by omega, show n + 1 + xs.length = n + (xs.length + 1) by omega]

/-- The rest of the pattern is read, and reported. -/
theorem matchRun_complete (hown : ∀ k c, p[k]? = some c → next k c = k + 1) {k : Nat} (hk : k < p.length) (n : Nat)
    (rest : List α) : matchRun next p.length k n (p.drop k ++ rest) =
      (n + (p.length - k) - p.length) :: matchRun next p.length 0 (n + (p.length - k)) rest := by
  obtain ⟨d, hd⟩ : ∃ d, p.length = k + d + 1 := ⟨p.length - k - 1, by omega⟩
  induction d generalizing k n with
  | zero =>
    have hget := hown k p[k] (List.getElem?_eq_getElem hk)
    rw [List.drop_eq_getElem_cons hk, List.drop_eq_nil_of_le (by omega), List.cons_append, matchRun, hget,
      if_pos (by omega), show p.length - k = 1 by omega]
    rfl
  | succ d ih =>
    have hget := hown k p[k] (List.getElem?_eq_getElem hk)
    have hrest := ih (k := k + 1) (by omega) (n + 1) (by omega)
    rw [List.drop_eq_getElem_cons hk, List.cons_append, matchRun, hget, if_neg (by omega), hrest,
      show n + 1 + (p.length - (k + 1)) = n + (p.length - k) by omega]

/-- Two machines that agree while the pattern is not complete. -/
theorem matchRun_congr {next' : Nat → α → Nat} {m : Nat} (h : ∀ k < m, ∀ c, next k c = next' k c)
    (hnext : ∀ k c, next k c ≤ k + 1) {k : Nat} (hk : k < m) (n : Nat) (buf : List α) :
    matchRun next m k n buf = matchRun next' m k n buf := by
  induction buf generalizing k n with
  | nil => rfl
  | cons c rest ih =>
    have hle := hnext k c
    rw [matchRun, matchRun, ← h k hk c]
    by_cases hhit : next k c = m
    · rw [if_pos hhit, if_pos hhit, ih (by omega)]
    · rw [if_neg hhit, if_neg hhit, ih (by omega)]

/-- Up to two bytes there are no borders that matter. -/
theorem bordersAgree_short (h : p.length ≤ 2) : BordersAgree p := by
  intro k hk i hi hpos
  omega

/-- An occurrence that begins inside a prefix of the pattern begins with a border of it. -/
theorem border_of_prefix {k i : Nat} (hk : k < p.length) (hi : i < k) {c : α} {rest : List α}
    (h : p <+: (p.take k).drop (k - i) ++ c :: rest) : p.take i = (p.take k).drop (k - i) ∧ p[i]? = some c := by
  have hlen : ((p.take k).drop (k - i)).length = i := by
    rw [List.length_drop, List.length_take]
    omega
  obtain ⟨t, ht⟩ := h
  constructor
  · have htake := congrArg (List.take i) ht
    rw [List.take_append_of_le_length (by omega), List.take_left' hlen] at htake
    exact htake
  · have hget := congrArg (fun l => l[i]?) ht
    simp only [List.getElem?_append_left (show i < p.length by omega),
      List.getElem?_append_right (show ((p.take k).drop (k - i)).length ≤ i by omega), hlen, Nat.sub_self] at hget
    exact hget

/-- No occurrence begins where the machine does not look again. -/
theorem restart_dead (hp : BordersAgree p) {k : Nat} (hk : k < p.length) {c : α} (hc : p[k]? ≠ some c) (rest : List α)
    {q : Nat} (hq : q < k) : ¬p <+: (p.take k ++ c :: rest).drop q := by
  intro hocc
  have hlen : (p.take k).length = k := List.length_take_of_le (by omega)
  rw [List.drop_append_of_le_length (by omega)] at hocc
  by_cases hzero : q = 0
  · obtain ⟨t, ht⟩ := hocc
    have hget := congrArg (fun l => l[k]?) ht
    rw [hzero, List.drop_zero] at hget
    simp only [List.getElem?_append_left hk, List.getElem?_append_right (show (p.take k).length ≤ k by omega), hlen,
      Nat.sub_self] at hget
    exact hc hget
  · have hback : q = k - (k - q) := by omega
    rw [hback] at hocc
    obtain ⟨hborder, hget⟩ := border_of_prefix hk (by omega) hocc
    exact hc (((hp k hk (k - q) (by omega) (by omega) hborder).symm).trans hget)

end Along

variable [DecidableEq α]

/-- The places of the occurrences found from the left, each looked for behind the one before it. -/
def leftmost (p : List α) : Nat → Nat → List α → List Nat
  | _, _, [] => []
  | n, skip + 1, _ :: rest => leftmost p (n + 1) skip rest
  | n, 0, c :: rest =>
    if p <+: c :: rest then n :: leftmost p (n + 1) (p.length - 1) rest else leftmost p (n + 1) 0 rest

/-- A machine that begins again where the pattern does not go on. -/
def restartNext (p : List α) (k : Nat) (c : α) : Nat :=
  if p[k]? = some c then k + 1 else if p[0]? = some c then 1 else 0

instance (p : List α) : Decidable (BordersAgree p) :=
  inferInstanceAs (Decidable (∀ k < p.length, ∀ i < k, 0 < i → p.take i = (p.take k).drop (k - i) → p[i]? = p[k]?))

section Leftmost

variable (p : List α)

theorem leftmost_skip_cons (n skip : Nat) (c : α) (rest : List α) :
    leftmost p n (skip + 1) (c :: rest) = leftmost p (n + 1) skip rest := rfl

theorem leftmost_cons (n : Nat) (c : α) (rest : List α) :
    leftmost p n 0 (c :: rest) =
      if p <+: c :: rest then n :: leftmost p (n + 1) (p.length - 1) rest else leftmost p (n + 1) 0 rest := rfl

theorem leftmost_skip (n skip : Nat) (buf : List α) :
    leftmost p n skip buf = leftmost p (n + skip) 0 (buf.drop skip) := by
  induction skip generalizing n buf with
  | zero => rfl
  | succ skip ih =>
    cases buf with
    | nil => rfl
    | cons c rest => rw [leftmost_skip_cons, ih, List.drop_succ_cons, show n + 1 + skip = n + (skip + 1) by omega]

/-- Places where no occurrence begins. -/
theorem leftmost_dead (n : Nat) (buf : List α) {d : Nat} (hd : d ≤ buf.length)
    (h : ∀ q < d, ¬p <+: buf.drop q) : leftmost p n 0 buf = leftmost p (n + d) 0 (buf.drop d) := by
  induction d generalizing n buf with
  | zero => rfl
  | succ d ih =>
    cases buf with
    | nil => simp at hd
    | cons c rest =>
      have hhere : ¬p <+: c :: rest := h 0 (Nat.succ_pos d)
      rw [leftmost_cons, if_neg hhere, ih (n + 1) rest (by simpa using hd) (fun q hq => h (q + 1) (by omega)),
        List.drop_succ_cons, show n + 1 + d = n + (d + 1) by omega]

theorem leftmost_hit (hp : p ≠ []) (n : Nat) (rest : List α) :
    leftmost p n 0 (p ++ rest) = n :: leftmost p (n + p.length) 0 rest := by
  cases p with
  | nil => exact absurd rfl hp
  | cons c p =>
    have hprefix : c :: p <+: c :: (p ++ rest) := List.prefix_append (c :: p) rest
    rw [List.cons_append, leftmost_cons, if_pos hprefix, leftmost_skip, List.length_cons, Nat.add_sub_cancel,
      List.drop_left, show n + 1 + p.length = n + (p.length + 1) by omega]

/-- Only occurrences are found. -/
theorem mem_leftmost {n skip q : Nat} {buf : List α} (h : q ∈ leftmost p n skip buf) :
    n ≤ q ∧ p <+: buf.drop (q - n) := by
  induction buf generalizing n skip with
  | nil => cases h
  | cons c rest ih =>
    have hlater : ∀ skip', q ∈ leftmost p (n + 1) skip' rest → n ≤ q ∧ p <+: (c :: rest).drop (q - n) := by
      intro skip' hq
      obtain ⟨hle, hocc⟩ := ih hq
      refine ⟨by omega, ?_⟩
      rw [show q - n = q - (n + 1) + 1 by omega, List.drop_succ_cons]
      exact hocc
    cases skip with
    | succ skip => exact hlater skip h
    | zero =>
      rw [leftmost_cons] at h
      split_ifs at h with hhere
      · rcases List.mem_cons.mp h with heq | hq
        · rw [heq, Nat.sub_self]
          exact ⟨Nat.le_refl n, hhere⟩
        · exact hlater _ hq
      · exact hlater 0 h

theorem leftmost_pairwise (n skip : Nat) (buf : List α) : (leftmost p n skip buf).Pairwise (· < ·) := by
  induction buf generalizing n skip with
  | nil => exact List.Pairwise.nil
  | cons c rest ih =>
    cases skip with
    | succ skip => exact ih (n + 1) skip
    | zero =>
      rw [leftmost_cons]
      split_ifs with hhere
      · refine List.pairwise_cons.mpr ⟨fun q hq => ?_, ih (n + 1) _⟩
        have hle := (mem_leftmost p hq).1
        omega
      · exact ih (n + 1) 0

/-- Where the pattern occurs, something is found. -/
theorem leftmost_ne_nil (hp : p ≠ []) (n : Nat) {buf : List α} {q : Nat} (h : p <+: buf.drop q) :
    leftmost p n 0 buf ≠ [] := by
  intro hnil
  induction buf generalizing n q with
  | nil =>
    rw [List.drop_nil, List.prefix_nil] at h
    exact hp h
  | cons c rest ih =>
    rw [leftmost_cons] at hnil
    split_ifs at hnil with hhere
    cases q with
    | zero => exact hhere h
    | succ q => exact ih (n + 1) h hnil

/-- A text shorter than the pattern. -/
theorem leftmost_short (n : Nat) {buf : List α} (h : buf.length < p.length) : leftmost p n 0 buf = [] := by
  rw [List.eq_nil_iff_forall_not_mem]
  intro q hq
  have hlen := (mem_leftmost p hq).2.length_le
  rw [List.length_drop] at hlen
  omega

end Leftmost

section Restart

variable {p : List α}

/-- The machine that begins again finds the leftmost occurrences. -/
theorem matchRun_restart (hp : BordersAgree p) {k : Nat} (hk : k < p.length) (n : Nat) (rest : List α) :
    matchRun (restartNext p) p.length k (n + k) rest = leftmost p n 0 (p.take k ++ rest) := by
  have hne : p ≠ [] := List.ne_nil_of_length_pos (by omega)
  have hlen : (p.take k).length = k := List.length_take_of_le (by omega)
  induction rest generalizing k n with
  | nil =>
    rw [matchRun, List.append_nil, leftmost_short p n (by omega)]
  | cons c rest ih =>
    by_cases hgo : p[k]? = some c
    · have htake : p.take k ++ c :: rest = p.take (k + 1) ++ rest := by
        rw [List.take_add_one, hgo]
        simp
      rw [matchRun, restartNext, if_pos hgo, htake]
      by_cases hend : k + 1 = p.length
      · have hrest := ih (k := 0) (by omega) (n + p.length) (List.length_take_of_le (by omega))
        rw [if_pos hend, hend, List.take_length, leftmost_hit p hne, show n + k + 1 - p.length = n by omega]
        rw [Nat.add_zero, List.take_zero, List.nil_append] at hrest
        rw [← hrest, show n + k + 1 = n + p.length by omega]
      · rw [if_neg hend]
        exact ih (k := k + 1) (by omega) n (List.length_take_of_le (by omega))
    · have hdead : ∀ q < k, ¬p <+: (p.take k ++ c :: rest).drop q := fun q hq => restart_dead hp hk hgo rest hq
      have hskip := leftmost_dead p n (p.take k ++ c :: rest) (d := k) (by simp; omega) hdead
      rw [List.drop_left' hlen] at hskip
      rw [hskip, matchRun, restartNext, if_neg hgo]
      by_cases hfirst : p[0]? = some c
      · -- the byte begins the pattern again
        have hlong : 1 < p.length := by
          by_contra hshort
          have hzero : k = 0 := by omega
          rw [hzero] at hgo
          exact hgo hfirst
        have hone := ih (k := 1) hlong (n + k) (List.length_take_of_le (by omega))
        have htake : p.take 1 ++ rest = c :: rest := by
          rw [List.take_add_one, hfirst]
          simp
        rw [htake] at hone
        rw [if_pos hfirst, if_neg (by omega)]
        exact hone
      · have hnot : ¬p <+: c :: rest := by
          intro hocc
          obtain ⟨t, ht⟩ := hocc
          have hget := congrArg (fun l => l[0]?) ht
          simp only [List.getElem?_append_left (show 0 < p.length by omega)] at hget
          exact hfirst hget
        have hzero := ih (k := 0) (by omega) (n + k + 1) (List.length_take_of_le (by omega))
        rw [Nat.add_zero, List.take_zero, List.nil_append] at hzero
        rw [if_neg hfirst, if_neg (by omega), leftmost, if_neg hnot]
        exact hzero

/-- Where the borders do not agree, the machine misses an occurrence. -/
theorem matchRun_misses {next : Nat → α → Nat} (hown : ∀ k c, p[k]? = some c → next k c = k + 1)
    (hnext : ∀ k c, next k c ≤ k + 1) (hback : ∀ k < p.length, ∀ c, p[k]? ≠ some c → next k c ≤ 1) (hp : ¬BordersAgree p) :
    ∃ buf, matchRun next p.length 0 0 buf = [] ∧ leftmost p 0 0 buf ≠ [] := by
  unfold BordersAgree at hp
  push Not at hp
  obtain ⟨k, hk, i, hi, hpos, hborder, hne⟩ := hp
  have hlen : (p.take k).length = k := List.length_take_of_le (by omega)
  have hdrop : p.drop i = p[i] :: p.drop (i + 1) := List.drop_eq_getElem_cons (by omega)
  refine ⟨p.take k ++ p.drop i, ?_, ?_⟩
  · have hc : p[k]? ≠ some p[i] := by
      rw [← List.getElem?_eq_getElem (show i < p.length by omega)]
      exact hne.symm
    have hstep := hback k hk p[i] hc
    have hown0 : p.take k <+: p.drop 0 := by
      rw [List.drop_zero]
      exact List.take_prefix k p
    have halong := matchRun_along (n := 0) hown hown0 (show 0 + (p.take k).length < p.length by omega) (p.drop i)
    rw [hlen, Nat.zero_add] at halong
    rw [halong, hdrop, matchRun, if_neg (by omega)]
    apply matchRun_short hnext
    rw [List.length_drop]
    omega
  · apply leftmost_ne_nil p (List.ne_nil_of_length_pos (by omega)) 0 (q := k - i)
    rw [List.drop_append_of_le_length (by omega), ← hborder, List.take_append_drop]

end Restart

end Radare.Framework
