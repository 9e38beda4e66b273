import Mathlib.Data.List.Chain
import Radare.Framework.TextBuffer
import Radare.Util.Glob

namespace Radare

open Framework.TextBuffer

/-- The first loop of `r_str_word_set0`; what it leaves are the text and `i`. The index and the length of the text
behind it are `int`s. -/
def squeezeLoop : Nat → CStr → Nat → Option (CStr × Nat)
  | 0, _, _ => none
  | turns + 1, mem, i => do
    let c ← mem[i]?
    if c = nul then some (mem, i)
    else if i + 1 > 2147483647 then none
    else do
      let d ← mem[i + 1]?
      if d = nul then some (mem, i)
      else if 0 < i ∧ mem[i - 1]? = some ' ' ∧ c = ' ' then do
        let len ← strlenAt nul mem i
        if len > 2147483647 then none
        else do
          let mem ← memmove mem i (i + 1) len
          squeezeLoop turns mem i
      else squeezeLoop turns mem (i + 1)

/-- The second loop; what it leaves are the text and `i`. -/
def wordLoop : Nat → CStr → Nat → Int → Bool → Option (CStr × Int)
  | 0, _, _, _, _ => none
  | turns + 1, mem, p, i, quote => do
    let c ← mem[p]?
    if c = nul then some (mem, i)
    else if c = '"' ∧ quote then do
      let mem ← storeAt mem p nul
      wordLoop turns mem (p + 1) i false
    else if c = '"' then do
      -- the quote goes, and the character behind it is passed over
      let len ← strlenAt nul mem (p + 1)
      let mem ← memmove mem p (p + 1) (len + 1)
      wordLoop turns mem (p + 1) i true
    else if quote then wordLoop turns mem (p + 1) i quote
    else if c = ' ' then
      if 0 < p ∧ (mem[p - 1]? = some '\\' ∨ mem[p - 1]? = some nul) then do
        let len ← strlenAt nul mem (p + 1)
        let mem' ← memmove mem p (p + 1) (len + 1)
        if mem[p - 1]? = some '\\' then do
          let mem' ← storeAt mem' (p - 1) ' '
          wordLoop turns mem' (p + 1) i quote
        else do
          let mem' ← storeAt mem' (p - 1) nul
          wordLoop turns mem' p (i + 1) quote
      else do
        let mem ← storeAt mem p nul
        wordLoop turns mem (p + 1) (i + 1) quote
    else wordLoop turns mem (p + 1) i quote

/-- `r_str_word_set0` on the memory of `str`: what it leaves there, and the returned number. -/
def rStrWordSet0 (mem : CStr) : Option (CStr × Int) := do
  let c ← mem[0]?
  if c = nul then some (mem, 0)
  else do
    let (mem, i) ← squeezeLoop mem.length mem 0
    let c ← mem[i]?
    let mem ← if c = ' ' then storeAt mem i nul else some mem
    wordLoop mem.length mem 0 1 false

/-- The loop of `r_str_word_get0`. -/
def wordGet0Loop : Nat → CStr → Nat → Int → Option Nat
  | 0, _, _, _ => none
  | turns + 1, mem, ptr, left => do
    let c ← mem[ptr]?
    if c ≠ nul ∧ left ≠ 0 then do
      let len ← strlenAt nul mem ptr
      wordGet0Loop turns mem (ptr + len + 1) (left - 1)
    else some ptr

/-- `r_str_word_get0`, the text that the returned pointer points to. -/
def rStrWordGet0 (mem : CStr) (idx : Int) : Option CStr :=
  if idx < 0 then some []
  else do
    let ptr ← wordGet0Loop (mem.length + 1) mem 0 idx
    let len ← strlenAt nul mem ptr
    some ((mem.drop ptr).take len)

/-- The words of a text, between its spaces. -/
def words (str : CStr) : List CStr := (str.splitOn ' ').filter (· ≠ [])

/-- The words are counted, and found again one by one. -/
def SplitsWords (str : CStr) : Prop :=
  ∃ mem, rStrWordSet0 (str ++ [nul]) = some (mem, ((words str).length : Int)) ∧
    ∀ i < (words str).length, rStrWordGet0 mem i = (words str)[i]?

section Squeeze

variable {before rest after str w s : CStr} {c : Char} {turns : Nat}

/-- The text that the first loop leaves, behind a space or not; the last character stays. -/
def squeezed : Bool → CStr → CStr
  | _, [] => []
  | _, [c] => [c]
  | space, c :: d :: rest =>
    if space && c = ' ' then squeezed space (d :: rest) else c :: squeezed (c = ' ') (d :: rest)

theorem squeezed_ne_nil (space : Bool) (h : str ≠ []) : squeezed space str ≠ [] := by
  induction space, str using squeezed.induct with
  | case1 => exact absurd rfl h
  | case2 space c => exact List.cons_ne_nil c []
  | case3 space c d rest hdrop ih =>
    rw [squeezed, if_pos hdrop]
    exact ih (List.cons_ne_nil d rest)
  | case4 space c d rest hkeep ih =>
    rw [squeezed, if_neg hkeep]
    exact List.cons_ne_nil _ _

theorem squeezeLoop_spec (before after : CStr) (hrest : nul ∉ c :: rest) (hturns : rest.length < turns)
    (hint : before.length + (c :: rest).length ≤ 2147483647) :
    ∃ front last left, squeezeLoop turns (before ++ (c :: rest ++ nul :: after)) before.length =
        some (front ++ last :: nul :: left, front.length) ∧
      front ++ [last] = before ++ squeezed (before.getLast? = some ' ') (c :: rest) := by
  induction rest generalizing c before after turns with
  | nil =>
    obtain ⟨turns, rfl⟩ : ∃ n, turns = n + 1 := ⟨turns - 1, by omega⟩
    refine ⟨before, c, after, ?_, rfl⟩
    have hc : c ≠ nul := fun heq => hrest (by simp [heq])
    show (do let x ← (before ++ c :: nul :: after)[before.length]?; _) = _
    rw [get_here]
    show (if c = nul then _ else if before.length + 1 > 2147483647 then _ else
      (before ++ c :: nul :: after)[before.length + 1]? >>= _) = _
    rw [if_neg hc, if_neg (show ¬before.length + 1 > 2147483647 from Nat.not_lt.mpr hint), get_next]
    rfl
  | cons d rest ih =>
    obtain ⟨turns, rfl⟩ : ∃ n, turns = n + 1 := ⟨turns - 1, by omega⟩
    rw [List.length_cons] at hturns
    have hc : c ≠ nul := fun heq => hrest (by simp [heq])
    have hd : d ≠ nul := fun heq => hrest (by simp [heq])
    have hrest' : nul ∉ d :: rest := fun hmem => hrest (List.mem_cons_of_mem c hmem)
    rw [List.length_cons, List.length_cons] at hint
    have hstep : squeezeLoop (turns + 1) (before ++ (c :: d :: rest ++ nul :: after)) before.length =
        if before.getLast? = some ' ' ∧ c = ' ' then do
          let len ← strlenAt nul (before ++ (c :: d :: rest ++ nul :: after)) before.length
          if len > 2147483647 then none
          else do
            let mem ← memmove (before ++ (c :: d :: rest ++ nul :: after)) before.length (before.length + 1) len
            squeezeLoop turns mem before.length
        else squeezeLoop turns (before ++ (c :: d :: rest ++ nul :: after)) (before.length + 1) := by
      rw [squeezeLoop]
      show (do let x ← (before ++ c :: (d :: rest ++ nul :: after))[before.length]?; _) = _
      rw [get_here]
      show (if c = nul then _ else if before.length + 1 > 2147483647 then _ else
        (before ++ c :: d :: (rest ++ nul :: after))[before.length + 1]? >>= _) = _
      rw [if_neg hc, if_neg (show ¬before.length + 1 > 2147483647 by omega), get_next]
      show (if d = nul then _ else _) = _
      rw [if_neg hd]
      simp only [← and_assoc, get_before]
    rw [hstep, squeezed]
    by_cases hgo : before.getLast? = some ' ' ∧ c = ' '
    · obtain ⟨left, hmove, -⟩ := memmove_delete before [c] (d :: rest ++ [nul]) after
      have hlen : (d :: rest ++ [nul]).length = (c :: d :: rest).length := by simp
      have hshape : before ++ (c :: d :: rest ++ nul :: after) = before ++ ([c] ++ (d :: rest ++ [nul] ++ after)) := by simp
      rw [if_pos hgo, strlenAt_eq hrest, hshape]
      rw [hlen] at hmove
      show ∃ front last left, (if (c :: d :: rest).length > 2147483647 then none else memmove _ _ _ _ >>= _) = _ ∧ _
      rw [if_neg (by rw [List.length_cons, List.length_cons]; omega)]
      rw [show before.length + 1 = before.length + [c].length from rfl, hmove]
      obtain ⟨hspace, hcs⟩ := hgo
      rw [hspace, hcs]
      have hnext := ih before left hrest' (show rest.length < turns by omega) (by rw [List.length_cons]; omega)
      rw [hspace] at hnext
      simpa using hnext
    · rw [if_neg hgo]
      have hnext := ih (before ++ [c]) after hrest' (show rest.length < turns by omega)
        (by simp only [List.length_append, List.length_cons, List.length_nil]; omega)
      have hshape : before ++ (c :: d :: rest ++ nul :: after) = before ++ [c] ++ (d :: rest ++ nul :: after) := by simp
      rw [List.length_append, List.length_singleton, ← hshape, List.getLast?_append] at hnext
      have hno : (decide (before.getLast? = some ' ') && decide (c = ' ')) = false := by
        rw [Bool.and_eq_false_iff]
        by_cases hcs : c = ' '
        · exact .inl (decide_eq_false (fun h => hgo ⟨h, hcs⟩))
        · exact .inr (decide_eq_false hcs)
      rw [hno]
      simpa using hnext

/-- The same, without a space at the end. -/
def trimmed : Bool → CStr → CStr
  | _, [] => []
  | _, [c] => if c = ' ' then [] else [c]
  | space, c :: d :: rest =>
    if space && c = ' ' then trimmed space (d :: rest) else c :: trimmed (c = ' ') (d :: rest)

theorem trimmed_eq {space : Bool} {front : CStr} {last : Char} (h : squeezed space str = front ++ [last]) :
    trimmed space str = if last = ' ' then front else front ++ [last] := by
  induction space, str using squeezed.induct generalizing front with
  | case1 => exact absurd h (by simp [squeezed])
  | case2 space c =>
    have hsplit : ([] : CStr) ++ [c] = front ++ [last] := h
    obtain ⟨hfront, hlast⟩ := List.append_inj' hsplit rfl
    cases hlast
    rw [← hfront]
    rfl
  | case3 space c d rest hdrop ih =>
    rw [squeezed, if_pos hdrop] at h
    rw [trimmed, if_pos hdrop]
    exact ih h
  | case4 space c d rest hkeep ih =>
    rw [squeezed, if_neg hkeep] at h
    rw [trimmed, if_neg hkeep]
    cases front with
    | nil =>
      have hnil : squeezed (decide (c = ' ')) (d :: rest) = [] := (List.cons.inj h).2
      exact absurd hnil (squeezed_ne_nil _ (List.cons_ne_nil d rest))
    | cons x front =>
      obtain ⟨rfl, hrest⟩ := List.cons.inj h
      rw [ih hrest]
      split_ifs with hlast
      · rfl
      · rfl

/-- What is left has no two spaces behind each other. -/
theorem trimmed_isChain (space : Bool) (str : CStr) :
    (trimmed space str).IsChain (fun a b => ¬(a = ' ' ∧ b = ' ')) ∧
      (space = true → (trimmed space str).head? ≠ some ' ') := by
  induction space, str using trimmed.induct with
  | case1 => exact ⟨.nil, fun _ h => by cases h⟩
  | case2 => exact ⟨.nil, fun _ h => by cases h⟩
  | case3 space c hc =>
    rw [trimmed, if_neg hc]
    exact ⟨.singleton c, fun _ h => hc (Option.some.inj h)⟩
  | case4 space c d rest hdrop ih =>
    rw [trimmed, if_pos hdrop]
    exact ih
  | case5 space c d rest hkeep ih =>
    rw [trimmed, if_neg hkeep]
    refine ⟨List.isChain_cons.mpr ⟨?_, ih.1⟩, fun hspace h => ?_⟩
    · rintro x hx ⟨hc, hx'⟩
      rw [hx'] at hx
      exact ih.2 (decide_eq_true hc) hx
    · exact hkeep (by rw [hspace, decide_eq_true (Option.some.inj h)]; rfl)

theorem mem_of_mem_trimmed {space : Bool} {c : Char} (h : c ∈ trimmed space str) : c ∈ str := by
  induction space, str using trimmed.induct with
  | case1 => cases h
  | case2 => cases h
  | case3 space d hd =>
    rw [trimmed, if_neg hd] at h
    exact h
  | case4 space d e rest hdrop ih =>
    rw [trimmed, if_pos hdrop] at h
    exact List.mem_cons_of_mem d (ih h)
  | case5 space d e rest hkeep ih =>
    rw [trimmed, if_neg hkeep] at h
    rcases List.mem_cons.mp h with rfl | h
    · exact List.mem_cons_self
    · exact List.mem_cons_of_mem d (ih h)

end Squeeze

section Words

variable {before rest after str w s : CStr} {c : Char} {turns : Nat}

def cut (c : Char) : Char := if c = ' ' then nul else c

/-- Without quotes, every space between two words gets a terminator. -/
theorem wordLoop_spec (before after : CStr) (hclean : ∀ c ∈ rest, c ≠ nul ∧ c ≠ '"' ∧ c ≠ '\\')
    (hchain : rest.IsChain (fun a b => ¬(a = ' ' ∧ b = ' ')))
    (hfirst : rest.head? = some ' ' → before.getLast? ≠ some nul ∧ before.getLast? ≠ some '\\')
    (hturns : rest.length < turns) (i : Int) :
    wordLoop turns (before ++ (rest ++ nul :: after)) before.length i false =
      some (before ++ (rest.map cut ++ nul :: after), i + rest.count ' ') := by
  induction rest generalizing before turns i with
  | nil =>
    obtain ⟨turns, rfl⟩ : ∃ n, turns = n + 1 := ⟨turns - 1, by omega⟩
    rw [wordLoop, List.nil_append, get_here, List.map_nil, List.nil_append, List.count_nil, Nat.cast_zero, Int.add_zero]
    rfl
  | cons c rest ih =>
    obtain ⟨turns, rfl⟩ : ∃ n, turns = n + 1 := ⟨turns - 1, by omega⟩
    rw [List.length_cons] at hturns
    obtain ⟨hnul, hquote, hback⟩ := hclean c List.mem_cons_self
    obtain ⟨hnext, hchain'⟩ := List.isChain_cons.mp hchain
    have hclean' : ∀ c ∈ rest, c ≠ nul ∧ c ≠ '"' ∧ c ≠ '\\' := fun x hx => hclean x (List.mem_cons_of_mem c hx)
    have hstep : wordLoop (turns + 1) (before ++ (c :: rest ++ nul :: after)) before.length i false =
        if c = ' ' then wordLoop turns (before ++ nul :: (rest ++ nul :: after)) (before.length + 1) (i + 1) false
        else wordLoop turns (before ++ (c :: rest ++ nul :: after)) (before.length + 1) i false := by
      rw [wordLoop]
      show (do let x ← (before ++ c :: (rest ++ nul :: after))[before.length]?; _) = _
      rw [get_here]
      show (if c = nul then _ else _) = _
      rw [if_neg hnul, if_neg (fun h => hquote h.1), if_neg hquote, if_neg Bool.false_ne_true]
      by_cases hc : c = ' '
      · rw [if_pos hc, if_pos hc]
        obtain ⟨hne, hne'⟩ := hfirst (by rw [hc]; rfl)
        have hplain : ¬(0 < before.length ∧
            ((before ++ (c :: rest ++ nul :: after))[before.length - 1]? = some '\\' ∨
              (before ++ (c :: rest ++ nul :: after))[before.length - 1]? = some nul)) := by
          rw [and_or_left, get_before, get_before]
          exact not_or.mpr ⟨hne', hne⟩
        rw [if_neg hplain]
        show (storeAt (before ++ c :: (rest ++ nul :: after)) before.length nul >>= _) = _
        rw [storeAt_here]
        rfl
      · rw [if_neg hc, if_neg hc]
    rw [hstep, List.map_cons, List.count_cons]
    by_cases hc : c = ' '
    · have hrest := ih (before ++ [nul]) hclean' hchain' (fun h => absurd ⟨hc, rfl⟩ (hnext ' ' h))
        (show rest.length < turns by omega) (i + 1)
      rw [List.length_append, List.length_singleton, List.append_assoc, List.append_assoc] at hrest
      rw [if_pos hc, cut, if_pos hc]
      refine hrest.trans ?_
      simp [hc]
      omega
    · have hrest := ih (before ++ [c]) hclean' hchain' (fun _ => by simp [hnul, hback])
        (show rest.length < turns by omega) i
      rw [List.length_append, List.length_singleton, List.append_assoc, List.append_assoc] at hrest
      rw [if_neg hc, cut, if_neg hc]
      refine hrest.trans ?_
      simp [hc]

theorem trimmed_word {space : Bool} (hw : ' ' ∉ w) (hne : w ≠ []) : trimmed space (w ++ s) = w ++ trimmed false s := by
  induction w generalizing space with
  | nil => exact absurd rfl hne
  | cons c w ih =>
    rw [List.mem_cons, not_or] at hw
    have hc : c ≠ ' ' := Ne.symm hw.1
    cases hrest : w ++ s with
    | nil =>
      obtain ⟨rfl, rfl⟩ := List.append_eq_nil_iff.mp hrest
      exact if_neg hc
    | cons d rest =>
      rw [List.cons_append, hrest, trimmed, if_neg (by simp [hc]), decide_eq_false hc, ← hrest, List.cons_append]
      cases w with
      | nil => rfl
      | cons e w => rw [ih hw.2 (List.cons_ne_nil e w)]

theorem trimmed_spaces (s : CStr) : trimmed true s = trimmed false (s.dropWhile (· = ' ')) := by
  induction s with
  | nil => rfl
  | cons c s ih =>
    by_cases hc : c = ' '
    · rw [List.dropWhile_cons_of_pos (by simpa using hc), ← ih]
      cases s with
      | nil => exact if_pos hc
      | cons d s => exact if_pos (by simp [hc])
    · rw [List.dropWhile_cons_of_neg (by simpa using hc)]
      cases s with
      | nil => rfl
      | cons d s =>
        rw [trimmed, trimmed, if_neg (by simp [hc]), if_neg (by simp)]

theorem words_space (w s : CStr) : words (w ++ ' ' :: s) = words w ++ words s := by
  rw [words, List.splitOn_append_cons_self, List.filter_append]
  rfl

theorem words_spaces (s : CStr) : words (s.dropWhile (· = ' ')) = words s := by
  induction s with
  | nil => rfl
  | cons c s ih =>
    by_cases hc : c = ' '
    · rw [List.dropWhile_cons_of_pos (by simpa using hc), ih, hc]
      exact (words_space [] s).symm
    · rw [List.dropWhile_cons_of_neg (by simpa using hc)]

theorem words_word (hw : ' ' ∉ w) (hne : w ≠ []) : words w = [w] := by
  rw [words, List.splitOn_eq_singleton hw, List.filter_cons_of_pos (by simpa using hne), List.filter_nil]

/-- What stands in front of another word does not matter for the end. -/
theorem ends_iff (hc : c ≠ ' ') : [' ', ' '] <:+ w ++ c :: s ↔ [' ', ' '] <:+ c :: s := by
  constructor
  · intro h
    cases s with
    | nil =>
      obtain ⟨t, ht⟩ := h
      have hsplit : (t ++ [' ']) ++ [' '] = w ++ [c] := by rw [List.append_assoc]; exact ht
      exact absurd (List.cons.inj (List.append_inj' hsplit rfl).2).1.symm hc
    | cons d s => exact List.suffix_of_suffix_length_le h (List.suffix_append w _) (by simp)
  · exact fun h => h.trans (List.suffix_append w _)

/-- The pieces of the text that the first loop leaves are the words, and an empty one if two spaces end the text. -/
theorem splitOn_trimmed (hne : str ≠ []) (hfirst : str.head? ≠ some ' ') :
    (trimmed false str).splitOn ' ' = words str ++ if [' ', ' '] <:+ str then [[]] else [] := by
  induction hn : str.length using Nat.strong_induction_on generalizing str with
  | _ n ih =>
    have hsplit := List.takeWhile_append_dropWhile (p := fun c => decide (c ≠ ' ')) (l := str)
    have hw : ' ' ∉ str.takeWhile (fun c => decide (c ≠ ' ')) := fun hmem => by simpa using List.mem_takeWhile_imp hmem
    have hwne : str.takeWhile (fun c => decide (c ≠ ' ')) ≠ [] := by
      obtain ⟨c, rest, rfl⟩ := List.exists_cons_of_ne_nil hne
      rw [List.takeWhile_cons_of_pos (by simpa using hfirst)]
      exact List.cons_ne_nil _ _
    have hstop := List.head?_dropWhile_not (fun c => decide (c ≠ ' ')) str
    generalize str.takeWhile (fun c => decide (c ≠ ' ')) = w at hsplit hw hwne
    generalize str.dropWhile (fun c => decide (c ≠ ' ')) = s at hsplit hstop
    rw [← hsplit]
    have hno : ∀ l : CStr, l.length ≤ 1 → ¬[' ', ' '] <:+ w ++ l := by
      rintro l hl ⟨t, ht⟩
      rcases List.eq_nil_or_concat l with rfl | ⟨l', d, rfl⟩
      · exact hw (by rw [← List.append_nil w, ← ht]; simp)
      · rw [List.concat_eq_append] at hl ht
        have hl' : l' = [] := List.length_eq_zero_iff.mp (by rw [List.length_append] at hl; simpa using hl)
        rw [hl'] at ht
        have hpair : (t ++ [' ']) ++ [' '] = w ++ [d] := by rw [List.append_assoc]; exact ht
        exact hw (by rw [← (List.append_inj' hpair rfl).1]; simp)
    rw [trimmed_word hw hwne]
    cases s with
    | nil =>
      rw [if_neg (hno [] (by simp)), List.append_nil, List.append_nil, words_word hw hwne]
      exact (congrArg (List.splitOn ' ') (List.append_nil w)).trans (List.splitOn_eq_singleton hw)
    | cons c s =>
      have hc : c = ' ' := by simpa using hstop
      subst hc
      by_cases hs : s = []
      · rw [hs, if_neg (hno [' '] (by simp)), words_space, words_word hw hwne]
        exact (congrArg (List.splitOn ' ') (List.append_nil w)).trans (List.splitOn_eq_singleton hw)
      have hspace : trimmed false (' ' :: s) = ' ' :: trimmed false (s.dropWhile (· = ' ')) := by
        rw [← trimmed_spaces]
        obtain ⟨d, rest, rfl⟩ := List.exists_cons_of_ne_nil hs
        rfl
      rw [hspace, List.splitOn_append_cons_self, List.splitOn_eq_singleton hw, words_space, words_word hw hwne,
        ← words_spaces s]
      have hs' := List.takeWhile_append_dropWhile (p := fun c => decide (c = ' ')) (l := s)
      have hstop' := List.head?_dropWhile_not (fun c => decide (c = ' ')) s
      have hlead : ∀ x ∈ s.takeWhile (fun c => decide (c = ' ')), x = ' ' := fun x hx => by
        simpa using List.mem_takeWhile_imp hx
      generalize s.takeWhile (fun c => decide (c = ' ')) = lead at hs' hlead
      generalize s.dropWhile (fun c => decide (c = ' ')) = more at hs' hstop'
      cases more with
      | nil =>
        rw [List.append_nil] at hs'
        rw [hs'] at hlead
        obtain ⟨k, hk⟩ : ∃ k, s.length = k + 1 := ⟨s.length - 1, by have := List.length_pos_iff.mpr hs; omega⟩
        have hrep : ' ' :: s = List.replicate k ' ' ++ [' ', ' '] := by
          rw [List.eq_replicate_of_mem hlead, hk, ← List.replicate_succ, Nat.add_assoc, List.replicate_add]
          rfl
        have hends : [' ', ' '] <:+ w ++ ' ' :: s := by
          rw [hrep, ← List.append_assoc]
          exact List.suffix_append _ _
        rw [if_pos hends]
        rfl
      | cons d more =>
        have hd : d ≠ ' ' := by simpa using hstop'
        have hlen : (d :: more).length < n := by
          rw [← hn, ← hsplit, ← hs']
          simp only [List.length_append, List.length_cons]
          omega
        have hend : [' ', ' '] <:+ w ++ ' ' :: s ↔ [' ', ' '] <:+ d :: more := by
          rw [← hs', show w ++ ' ' :: (lead ++ d :: more) = (w ++ ' ' :: lead) ++ d :: more by simp]
          exact ends_iff hd
        rw [ih _ hlen (List.cons_ne_nil d more) (by simpa using hd) rfl]
        simp only [hend, List.append_assoc]

theorem map_cut (s : CStr) : s.map cut ++ [nul] = (s.splitOn ' ').flatMap (· ++ [nul]) := by
  induction s with
  | nil => rfl
  | cons c s ih =>
    rw [List.map_cons, List.splitOn_cons_eq_if_modifyHead, cut, List.cons_append, ih]
    obtain ⟨w, ws, hws⟩ := List.exists_cons_of_ne_nil (List.splitOn_ne_nil ' ' s)
    by_cases hc : c = ' '
    · rw [if_pos hc, if_pos (by simpa using hc)]
      rfl
    · rw [if_neg hc, if_neg (by simpa using hc), hws]
      rfl

theorem mem_of_mem_splitOn (hw : w ∈ s.splitOn ' ') (hc : c ∈ w) : c ∈ s := by
  induction s generalizing w with
  | nil =>
    rw [List.splitOn_nil, List.mem_singleton] at hw
    rw [hw] at hc
    cases hc
  | cons d s ih =>
    rw [List.splitOn_cons_eq_if_modifyHead] at hw
    split_ifs at hw with hd
    · rcases List.mem_cons.mp hw with rfl | hw
      · cases hc
      · exact List.mem_cons_of_mem d (ih hw hc)
    · obtain ⟨v, vs, hvs⟩ := List.exists_cons_of_ne_nil (List.splitOn_ne_nil ' ' s)
      rw [hvs, List.modifyHead_cons] at hw
      rcases List.mem_cons.mp hw with rfl | hw
      · rcases List.mem_cons.mp hc with rfl | hc
        · exact List.mem_cons_self
        · exact List.mem_cons_of_mem d (ih (by rw [hvs]; exact List.mem_cons_self) hc)
      · exact List.mem_cons_of_mem d (ih (by rw [hvs]; exact List.mem_cons_of_mem v hw) hc)

theorem length_splitOn (s : CStr) : (s.splitOn ' ').length = s.count ' ' + 1 := by
  induction s with
  | nil => rfl
  | cons c s ih =>
    rw [List.splitOn_cons_eq_if_modifyHead, List.count_cons]
    by_cases hc : c = ' '
    · rw [if_pos (by simpa using hc), List.length_cons, ih, if_pos (by simpa using hc)]
    · rw [if_neg (by simpa using hc), List.length_modifyHead, ih, if_neg (by simpa using hc)]

/-- The pointer goes from one word to the next. -/
theorem wordGet0Loop_spec (before after : CStr) {ws : List CStr} (hws : ∀ v ∈ ws, v ≠ [] ∧ nul ∉ v) {i : Nat} (hi : i < ws.length)
    (hturns : i < turns) : ∃ ptr, wordGet0Loop turns (before ++ (ws.flatMap (· ++ [nul]) ++ after)) before.length i =
      some ptr ∧ ∃ rest, (before ++ (ws.flatMap (· ++ [nul]) ++ after)).drop ptr = ws[i] ++ nul :: rest := by
  induction ws generalizing before i turns with
  | nil => exact absurd hi (Nat.not_lt_zero i)
  | cons v ws ih =>
    obtain ⟨turns, rfl⟩ : ∃ n, turns = n + 1 := ⟨turns - 1, by omega⟩
    obtain ⟨hne, hv⟩ := hws v List.mem_cons_self
    obtain ⟨c, v', rfl⟩ := List.exists_cons_of_ne_nil hne
    have hc : c ≠ nul := fun heq => hv (by simp [heq])
    have hshape : before ++ (((c :: v') :: ws).flatMap (· ++ [nul]) ++ after) =
        before ++ (c :: v' ++ nul :: (ws.flatMap (· ++ [nul]) ++ after)) := by simp
    have hread : (before ++ (c :: v' ++ nul :: (ws.flatMap (· ++ [nul]) ++ after)))[before.length]? = some c :=
      get_here before _ c
    rw [hshape, wordGet0Loop, hread]
    cases i with
    | zero =>
      refine ⟨before.length, if_neg (fun h => h.2 rfl), ws.flatMap (· ++ [nul]) ++ after, ?_⟩
      rw [List.drop_left]
      rfl
    | succ i =>
      obtain ⟨ptr, hptr, hrest⟩ := ih (before ++ (c :: v' ++ [nul]))
        (fun v hv => hws v (List.mem_cons_of_mem _ hv)) (Nat.lt_of_succ_lt_succ hi) (Nat.lt_of_succ_lt_succ hturns)
      have hnext : before ++ (c :: v' ++ [nul]) ++ (ws.flatMap (· ++ [nul]) ++ after) =
          before ++ (c :: v' ++ nul :: (ws.flatMap (· ++ [nul]) ++ after)) := by simp
      have hleft : ((i + 1 : Nat) : Int) - 1 = i := by omega
      rw [hnext] at hptr hrest
      refine ⟨ptr, ?_, hrest⟩
      show (if c ≠ nul ∧ ((i + 1 : Nat) : Int) ≠ 0 then strlenAt _ _ _ >>= _ else _) = _
      rw [if_pos ⟨hc, by omega⟩, strlenAt_eq hv]
      show wordGet0Loop turns _ (before.length + (c :: v').length + 1) (((i + 1 : Nat) : Int) - 1) = _
      rw [hleft, ← hptr]
      simp [Nat.add_assoc]

theorem length_le_flatMap (ws : List CStr) : ws.length ≤ (ws.flatMap (· ++ [nul])).length := by
  induction ws with
  | nil => exact Nat.le_refl 0
  | cons w ws ih =>
    rw [List.flatMap_cons, List.length_cons, List.length_append, List.length_append, List.length_singleton]
    omega

theorem rStrWordGet0_spec {ws : List CStr} (hws : ∀ v ∈ ws, v ≠ [] ∧ nul ∉ v) (after : CStr) {i : Nat} (hi : i < ws.length) :
    rStrWordGet0 (ws.flatMap (· ++ [nul]) ++ after) i = ws[i]? := by
  have hturns : i < (ws.flatMap (· ++ [nul]) ++ after).length + 1 := by
    have hle := length_le_flatMap ws
    rw [List.length_append]
    omega
  obtain ⟨ptr, hptr, rest, hrest⟩ := wordGet0Loop_spec [] after hws hi hturns
  have hclean : nul ∉ ws[i] := (hws _ (List.getElem_mem hi)).2
  rw [List.nil_append] at hptr hrest
  rw [rStrWordGet0, if_neg (by omega)]
  show (wordGet0Loop _ _ ([] : CStr).length _ >>= _) = _
  rw [hptr]
  show (strlenAt nul _ ptr >>= _) = _
  rw [strlenAt, hrest, if_pos (by simp), takeWhile_stop hclean]
  show some ((ws[i] ++ nul :: rest).take ws[i].length) = _
  rw [List.take_left, List.getElem?_eq_getElem hi]

/-- What is left of the text: its words, each with a terminator, and behind two spaces an empty one. -/
theorem rStrWordSet0_eq (hclean : ∀ c ∈ str, c ≠ nul ∧ c ≠ '"' ∧ c ≠ '\\') (hne : str ≠ [])
    (hfirst : str.head? ≠ some ' ') (hint : str.length ≤ 2147483647) : ∃ left, rStrWordSet0 (str ++ [nul]) =
      some ((words str).flatMap (· ++ [nul]) ++ left, ((words str).length : Int) + if [' ', ' '] <:+ str then 1 else 0) := by
  have hnul : nul ∉ str := fun hmem => (hclean nul hmem).1 rfl
  have htext : ∃ left, rStrWordSet0 (str ++ [nul]) = wordLoop (trimmed false str ++ nul :: left).length
      (trimmed false str ++ nul :: left) 0 1 false := by
    obtain ⟨c, rest, rfl⟩ := List.exists_cons_of_ne_nil hne
    have hturns : rest.length < (c :: rest ++ [nul]).length := by
      rw [List.length_append, List.length_cons]
      omega
    obtain ⟨front, last, left, hloop, hfront⟩ := squeezeLoop_spec [] [] hnul hturns
      (by rw [List.length_nil, Nat.zero_add]; exact hint)
    have htrim : trimmed false (c :: rest) = if last = ' ' then front else front ++ [last] := trimmed_eq hfront.symm
    have hc : c ≠ nul := fun heq => hnul (by simp [heq])
    replace hloop : squeezeLoop (c :: rest ++ [nul]).length (c :: rest ++ [nul]) 0 =
        some (front ++ last :: nul :: left, front.length) := hloop
    rw [rStrWordSet0, htrim]
    show ∃ left, (if c = nul then _ else squeezeLoop _ _ _ >>= _) = _
    rw [if_neg hc, hloop]
    show ∃ left', ((front ++ last :: nul :: left)[front.length]? >>= _) = _
    rw [get_here]
    by_cases hlast : last = ' '
    · refine ⟨nul :: left, ?_⟩
      show (if last = ' ' then storeAt (front ++ last :: nul :: left) front.length nul >>= _ else _) = _
      rw [if_pos hlast, if_pos hlast, storeAt_here]
      rfl
    · refine ⟨left, ?_⟩
      show (if last = ' ' then _ else some (front ++ last :: nul :: left) >>= _) = _
      rw [if_neg hlast, if_neg hlast, List.append_assoc]
      rfl
  obtain ⟨left, hset⟩ := htext
  have hT : ∀ c ∈ trimmed false str, c ≠ nul ∧ c ≠ '"' ∧ c ≠ '\\' := fun c hc => hclean c (mem_of_mem_trimmed hc)
  have hturns : (trimmed false str).length < (trimmed false str ++ nul :: left).length := by simp
  have hwords := wordLoop_spec [] left hT (trimmed_isChain false str).1 (fun _ => by simp) hturns 1
  have hpieces := splitOn_trimmed hne hfirst
  have hlen := length_splitOn (trimmed false str)
  rw [hpieces, List.length_append] at hlen
  have hmap := map_cut (trimmed false str)
  rw [hpieces, List.flatMap_append] at hmap
  refine ⟨(if [' ', ' '] <:+ str then [[]] else []).flatMap (· ++ [nul]) ++ left, ?_⟩
  rw [hset]
  refine hwords.trans ?_
  have htext' : (trimmed false str).map cut ++ nul :: left = (words str).flatMap (· ++ [nul]) ++
      ((if [' ', ' '] <:+ str then [[]] else []).flatMap (· ++ [nul]) ++ left) := by
    rw [← List.append_assoc, ← hmap, List.append_assoc]
    rfl
  rw [List.nil_append, htext']
  refine congrArg (fun n => some (_, n)) ?_
  split_ifs at hlen ⊢ with hends
  · rw [List.length_singleton] at hlen
    omega
  · rw [List.length_nil] at hlen
    omega

/-- The words are found again unless two spaces end the text. -/
theorem splitsWords_iff (hclean : ∀ c ∈ str, c ≠ nul ∧ c ≠ '"' ∧ c ≠ '\\') (hne : str ≠ []) (hfirst : str.head? ≠ some ' ')
    (hint : str.length ≤ 2147483647) : SplitsWords str ↔ ¬[' ', ' '] <:+ str := by
  have hws : ∀ v ∈ words str, v ≠ [] ∧ nul ∉ v := by
    intro v hv
    obtain ⟨hmem, hfilled⟩ := List.mem_filter.mp hv
    exact ⟨by simpa using hfilled, fun hno => (hclean nul (mem_of_mem_splitOn hmem hno)).1 rfl⟩
  obtain ⟨left, hset⟩ := rStrWordSet0_eq hclean hne hfirst hint
  constructor
  · rintro ⟨mem, hmem, -⟩ hends
    rw [hset, if_pos hends] at hmem
    have hcount := (Prod.mk.inj (Option.some.inj hmem)).2
    omega
  · intro hends
    rw [if_neg hends, Int.add_zero] at hset
    exact ⟨_, hset, fun i hi => rStrWordGet0_spec hws left hi⟩

theorem splitsWords_iff_inner : SplitsWords "px  16 ".toList :=
  (splitsWords_iff (by simp [nul]) (by decide) (by decide) (by decide)).mpr (by decide)

theorem words_miscounted : rStrWordSet0 ("px  ".toList ++ [nul]) = some (['p', 'x', nul, nul, nul], 2) ∧
    words "px  ".toList = ["px".toList] :=
  ⟨by decide, by decide⟩

end Words

end Radare
