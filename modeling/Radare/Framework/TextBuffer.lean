import Mathlib.Data.List.Basic

namespace Radare.Framework.TextBuffer

variable {α : Type} {before gone after : List α} {c d : α}

/-- A store inside the buffer. -/
def storeAt (mem : List α) (i : Nat) (c : α) : Option (List α) := if i < mem.length then some (mem.set i c) else none

/-- `mem[i]` with an `int` for `i`. -/
def intAt (mem : List α) (i : Nat) : Option α := if i ≤ 2147483647 then mem[i]? else none

/-- `memmove`, with both ranges inside the buffer. -/
def memmove (mem : List α) (dst src n : Nat) : Option (List α) :=
  if dst + n ≤ mem.length ∧ src + n ≤ mem.length then
    some (mem.take dst ++ (mem.drop src).take n ++ mem.drop (dst + n))
  else none

/-- `memcpy` of `cs` to the place `i`, inside the buffer. -/
def copyAt (mem : List α) (i : Nat) (cs : List α) : Option (List α) :=
  if i + cs.length ≤ mem.length then some (mem.take i ++ cs ++ mem.drop (i + cs.length)) else none

/-- A copy behind what the buffer begins with. -/
theorem copyAt_prefix {mem s : List α} (cs : List α) (hs : s <+: mem) (h : s.length + cs.length ≤ mem.length) :
    ∃ mem', copyAt mem s.length cs = some mem' ∧ mem'.length = mem.length ∧ s ++ cs <+: mem' := by
  refine ⟨_, if_pos h, ?_, ?_⟩
  · simp only [List.length_append, List.length_take, List.length_drop]
    omega
  · rw [← List.prefix_iff_eq_take.mp hs]
    exact List.prefix_append _ _

section Terminated

variable [DecidableEq α] {stop : α}

/-- `strlen`; without a terminator it reads behind the buffer. -/
def strlenAt (stop : α) (mem : List α) (i : Nat) : Option Nat :=
  if stop ∈ mem.drop i then some ((mem.drop i).takeWhile (· ≠ stop)).length else none

/-- The text at the place `i`. -/
def textAt (stop : α) (mem : List α) (i : Nat) : List α := (mem.drop i).takeWhile (· ≠ stop)

theorem takeWhile_stop {s : List α} (h : stop ∉ s) (rest : List α) : (s ++ stop :: rest).takeWhile (· ≠ stop) = s := by
  have hs : ∀ c ∈ s, decide (c ≠ stop) = true := fun c hc => decide_eq_true (fun heq => h (heq ▸ hc))
  rw [List.takeWhile_append_of_pos hs, List.takeWhile_cons_of_neg (by simp), List.append_nil]

theorem strlenAt_eq {s : List α} (h : stop ∉ s) (before rest : List α) :
    strlenAt stop (before ++ (s ++ stop :: rest)) before.length = some s.length := by
  rw [strlenAt, List.drop_left, if_pos (by simp), takeWhile_stop h]

theorem strlenAt_start {s : List α} (h : stop ∉ s) (rest : List α) : strlenAt stop (s ++ stop :: rest) 0 = some s.length :=
  strlenAt_eq h [] rest

theorem textAt_eq {s : List α} (h : stop ∉ s) (before rest : List α) :
    textAt stop (before ++ (s ++ stop :: rest)) before.length = s := by
  rw [textAt, List.drop_left, takeWhile_stop h]

end Terminated

theorem intAt_of_le {i : Nat} (mem : List α) (h : i ≤ 2147483647) : intAt mem i = mem[i]? := if_pos h

theorem intAt_of_lt {i : Nat} (mem : List α) (h : 2147483647 < i) : intAt mem i = none := if_neg (Nat.not_le.mpr h)

theorem intAt_some {mem : List α} {i : Nat} (h : intAt mem i = some c) : i ≤ 2147483647 ∧ mem[i]? = some c := by
  rw [intAt] at h
  split_ifs at h with hi
  exact ⟨hi, h⟩

theorem get_here (before after : List α) (c : α) : (before ++ c :: after)[before.length]? = some c := by simp

theorem get_next (before after : List α) (c d : α) : (before ++ c :: d :: after)[before.length + 1]? = some d := by
  rw [List.getElem?_append_right (by omega), show before.length + 1 - before.length = 1 by omega]
  rfl

theorem get_before (before after : List α) (c : α) :
    (0 < before.length ∧ (before ++ after)[before.length - 1]? = some c) ↔ before.getLast? = some c := by
  rcases List.eq_nil_or_concat before with rfl | ⟨front, d, rfl⟩
  · simp
  · simp

theorem storeAt_here (before after : List α) (c d : α) :
    storeAt (before ++ c :: after) before.length d = some (before ++ d :: after) := by
  rw [storeAt, if_pos (by simp), List.set_append_right _ _ (Nat.le_refl _), Nat.sub_self]
  rfl

/-- Behind `pre` the memory goes on with the text `s`, whose end an `int` reaches. -/
structure TextFrom (stop : α) (mem pre s : List α) : Prop where
  text : mem = pre ++ (s ++ [stop])
  clean : stop ∉ s
  reach : pre.length + s.length ≤ 2147483647

section TextFrom

variable {stop : α} {mem pre s t : List α}

theorem TextFrom.read_nil (h : TextFrom stop mem pre []) : intAt mem pre.length = some stop := by
  rw [intAt_of_le mem (i := pre.length) (by simpa using h.reach), h.text, List.nil_append, get_here]

theorem TextFrom.read (h : TextFrom stop mem pre (c :: s)) : intAt mem pre.length = some c := by
  have hreach := h.reach
  rw [intAt_of_le _ (by omega), h.text, List.cons_append, get_here]

theorem TextFrom.ne (h : TextFrom stop mem pre (c :: s)) : c ≠ stop := fun heq => h.clean (heq ▸ List.mem_cons_self)

theorem TextFrom.skip (h : TextFrom stop mem pre (t ++ s)) : TextFrom stop mem (pre ++ t) s := by
  refine ⟨by rw [h.text]; simp, fun hmem => h.clean (List.mem_append_right _ hmem), ?_⟩
  have hreach := h.reach
  rw [List.length_append] at hreach ⊢
  omega

theorem TextFrom.next (h : TextFrom stop mem pre (c :: s)) : TextFrom stop mem (pre ++ [c]) s :=
  TextFrom.skip (t := [c]) h

end TextFrom

/-- Stores of one letter after the other, from the place `i` on. -/
def storeAll (mem : List α) (i : Nat) : List α → Option (List α)
  | [] => some mem
  | c :: cs => (storeAt mem i c).bind fun mem => storeAll mem (i + 1) cs

theorem storeAll_here (out free cs : List α) (h : cs.length ≤ free.length) :
    storeAll (out ++ free) out.length cs = some (out ++ (cs ++ free.drop cs.length)) := by
  induction cs generalizing out free with
  | nil => rfl
  | cons c cs ih =>
    cases free with
    | nil => simp at h
    | cons d free =>
      have hstep := ih (out ++ [c]) free (by simpa using h)
      rw [List.length_append, List.append_assoc] at hstep
      rw [storeAll, storeAt_here, Option.bind_some]
      simpa using hstep

/-- A store behind the text that is kept takes the next place of the gap. -/
theorem storeAt_advance (out gap rest : List α) (c d : α) :
    ∃ gap', storeAt (out ++ (gap ++ c :: rest)) out.length d = some (out ++ [d] ++ (gap' ++ rest)) ∧
      gap'.length = gap.length := by
  cases gap with
  | nil => exact ⟨[], by simp [storeAt_here], rfl⟩
  | cons g gap => exact ⟨gap ++ [c], by simp [storeAt_here], by simp⟩

/-- `ps` are the places of `s` that the letters of `out` come from. -/
structure Picked (s out : List α) (ps : List Nat) : Prop where
  ascending : ps.Pairwise (· < ·)
  letters : ps.map (fun p => s[p]?) = out.map some

theorem Picked.nil : Picked ([] : List α) [] [] := ⟨List.Pairwise.nil, rfl⟩

theorem Picked.length_eq {s out : List α} {ps : List Nat} (h : Picked s out ps) : ps.length = out.length := by
  simpa using congrArg List.length h.letters

theorem Picked.lt {s out : List α} {ps : List Nat} (h : Picked s out ps) {p : Nat} (hp : p ∈ ps) : p < s.length := by
  have hmem : s[p]? ∈ out.map some := h.letters ▸ List.mem_map_of_mem hp
  obtain ⟨c, -, hc⟩ := List.mem_map.mp hmem
  exact (List.getElem?_eq_some_iff.mp hc.symm).1

theorem Picked.append {s out : List α} {ps : List Nat} (h : Picked s out ps) (more : List α) :
    Picked (s ++ more) out ps := by
  refine ⟨h.ascending, ?_⟩
  rw [← h.letters]
  exact List.map_congr_left fun p hp => List.getElem?_append_left (h.lt hp)

theorem Picked.snoc {s out : List α} {ps : List Nat} (h : Picked s out ps) (c : α) :
    Picked (s ++ [c]) (out ++ [c]) (ps ++ [s.length]) := by
  constructor
  · exact List.pairwise_append.mpr ⟨h.ascending, List.pairwise_singleton _ _, fun p hp q hq =>
      List.mem_singleton.mp hq ▸ h.lt hp⟩
  · rw [List.map_append, List.map_append, (h.append [c]).letters]
    simp

/-- The text behind a gap moves into it, and something is left behind the text. -/
theorem memmove_delete (before gone moved after : List α) :
    ∃ left, memmove (before ++ (gone ++ (moved ++ after))) before.length (before.length + gone.length) moved.length =
      some (before ++ (moved ++ left)) ∧ left.length = gone.length + after.length := by
  refine ⟨(gone ++ (moved ++ after)).drop moved.length, ?_, by simp; omega⟩
  have hin : before.length + moved.length ≤ (before ++ (gone ++ (moved ++ after))).length ∧
      before.length + gone.length + moved.length ≤ (before ++ (gone ++ (moved ++ after))).length := by
    simp only [List.length_append]
    omega
  rw [memmove, if_pos hin, List.take_left, ← List.drop_drop, List.drop_left, List.drop_left, List.take_left,
    ← List.drop_drop, List.drop_left, List.append_assoc]

end Radare.Framework.TextBuffer
