import Mathlib.Algebra.Order.BigOperators.Group.List
import Radare.Framework.TextBuffer
import Radare.Util.Glob

namespace Radare

open Framework.TextBuffer

/-- The characters that `r_str_arg_escape` sets a backslash before. -/
def isArgSpecial (c : Char) : Bool := c = '\'' || c = '"' || c = '\\' || c = ' '

def argEscapeChar (c : Char) : CStr := if isArgSpecial c then ['\\', c] else [c]

/-- The loop of `r_str_arg_escape`; what it leaves are `str` and `dest_i`. -/
def argEscapeLoop (arg : CStr) : Nat → Nat → CStr → Nat → Option (CStr × Nat)
  | 0, _, _, _ => none
  | turns + 1, srcI, str, destI => do
    let c ← intAt arg srcI
    if c = nul then some (str, destI)
    -- `dest_i` is an `int`
    else if 2147483647 < destI + (argEscapeChar c).length then none
    else do
      let str ← storeAll str destI (argEscapeChar c)
      argEscapeLoop arg turns (srcI + 1) str (destI + (argEscapeChar c).length)

/-- `r_str_arg_escape`, the memory behind the last `realloc`. -/
def rStrArgEscape (arg : CStr) : Option CStr := do
  let len ← strlenAt nul arg 0
  let (str, destI) ← argEscapeLoop arg arg.length 0 (List.replicate (2 * len + 1) nul) 0
  let str ← storeAt str destI nul
  let len ← strlenAt nul str 0
  some (str.take (len + 1))

/-- `while (cmdline[cmdline_current] != '\0' && iswhitechar (cmdline[cmdline_current]))`. -/
def skipWhite (cmdline : CStr) : Nat → Nat → Option Nat
  | 0, _ => none
  | turns + 1, current => do
    let c ← intAt cmdline current
    if c ≠ nul ∧ isWhiteChar c then skipWhite cmdline turns (current + 1) else some current

/-- The loop that reads one argument; what it leaves are `cmdline_current`, `args` and `args_current`. -/
def argLoop (cmdline : CStr) : Nat → Nat → CStr → Nat → Bool → Bool → Bool → Option (Nat × CStr × Nat)
  | 0, _, _, _, _, _, _ => none
  | turns + 1, current, args, argsCurrent, escaped, singlequoted, doublequoted => do
    let c ← intAt cmdline current
    if escaped then
      if c = '\'' ∨ c = '"' ∨ c = ' ' ∨ c = '\\' then do
        let args ← storeAt args argsCurrent c
        argLoop cmdline turns (current + 1) args (argsCurrent + 1) false singlequoted doublequoted
      else if c = nul then do
        let args ← storeAt args argsCurrent '\\'
        some (current, args, argsCurrent + 1)
      else do
        let args ← storeAll args argsCurrent ['\\', c]
        argLoop cmdline turns (current + 1) args (argsCurrent + 2) false singlequoted doublequoted
    else if c = '\'' ∧ !doublequoted then
      argLoop cmdline turns (current + 1) args argsCurrent false (!singlequoted) doublequoted
    else if c = '"' ∧ !singlequoted then
      argLoop cmdline turns (current + 1) args argsCurrent false singlequoted (!doublequoted)
    else if c = '\\' then argLoop cmdline turns (current + 1) args argsCurrent true singlequoted doublequoted
    else if (c = ' ' ∧ !(singlequoted || doublequoted)) ∨ c = nul then some (current, args, argsCurrent)
    else do
      let args ← storeAt args argsCurrent c
      argLoop cmdline turns (current + 1) args (argsCurrent + 1) false singlequoted doublequoted

/-- `argv[argc++] = arg`. -/
def pushArg (argv : List CStr) (argvLen : Nat) (arg : CStr) : Option (List CStr) :=
  if argv.length < argvLen then some (argv ++ [arg]) else none

/-- `argv_len` behind `if (argc >= argv_len)`; it is an `int`. -/
def growArgv (argc argvLen : Nat) : Option Nat :=
  if argc < argvLen then some argvLen
  else if argvLen * 2 ≤ 2147483647 then some (argvLen * 2)
  else none

/-- What `r_str_argv` returns, and the number of bytes that it wrote to `args`. -/
structure ArgvRun where
  argv : List CStr
  argc : Nat
  written : Nat
  deriving DecidableEq

/-- `argv[argc] = NULL`, and the end. -/
def endArgv (argv : List CStr) (argvLen written : Nat) : Option ArgvRun :=
  if argv.length < argvLen then some ⟨argv, argv.length, written⟩ else none

/-- The loop of `r_str_argv`; `arg_begin` is what `args_current` is at the head. -/
def argvLoop (cmdline : CStr) : Nat → Nat → CStr → Nat → List CStr → Nat → Option ArgvRun
  | 0, _, _, _, _, _ => none
  | turns + 1, current, args, argBegin, argv, argvLen => do
    let current ← skipWhite cmdline cmdline.length current
    let c ← intAt cmdline current
    if c = nul then endArgv argv argvLen argBegin
    else do
      let (current, args, argsCurrent) ← argLoop cmdline cmdline.length current args argBegin false false false
      let args ← storeAt args argsCurrent nul
      let len ← strlenAt nul args argBegin
      let argv ← pushArg argv argvLen ((args.drop argBegin).take len)
      let argvLen ← growArgv argv.length argvLen
      let c ← intAt cmdline current
      if c = nul then endArgv argv argvLen (argsCurrent + 1)
      else argvLoop cmdline turns (current + 1) args (argsCurrent + 1) argv argvLen

/-- `r_str_argv` on the memory of `cmdline`. -/
def rStrArgv (cmdline : CStr) : Option ArgvRun := do
  let len ← strlenAt nul cmdline 0
  argvLoop cmdline cmdline.length 0 (List.replicate (128 + len) nul) 0 [] 128

/-- The argument that `s` goes on with, and what is left behind it. -/
def readWord : Bool → Bool → Bool → CStr → CStr × CStr
  | escaped, _, _, [] => (if escaped then ['\\'] else [], [])
  | true, singlequoted, doublequoted, c :: s =>
    let (word, rest) := readWord false singlequoted doublequoted s
    (if isArgSpecial c then c :: word else '\\' :: c :: word, rest)
  | false, singlequoted, doublequoted, c :: s =>
    if c = '\'' ∧ !doublequoted then readWord false (!singlequoted) doublequoted s
    else if c = '"' ∧ !singlequoted then readWord false singlequoted (!doublequoted) s
    else if c = '\\' then readWord true singlequoted doublequoted s
    else if c = ' ' ∧ !(singlequoted || doublequoted) then ([], c :: s)
    else
      let (word, rest) := readWord false singlequoted doublequoted s
      (c :: word, rest)

theorem readWord_length (escaped singlequoted doublequoted : Bool) (s : CStr) :
    (readWord escaped singlequoted doublequoted s).1.length + (readWord escaped singlequoted doublequoted s).2.length ≤
      s.length + escaped.toNat := by
  fun_induction readWord escaped singlequoted doublequoted s with
  | case1 escaped => cases escaped <;> simp
  | case2 singlequoted doublequoted c s word rest hword ih =>
    rw [hword] at ih
    simp only [Bool.toNat_false, List.length_cons, Bool.toNat_true] at ih ⊢
    split_ifs <;> simp <;> omega
  | case3 singlequoted doublequoted c s _ ih => exact Nat.le_trans ih (by simp)
  | case4 singlequoted doublequoted c s _ _ ih => exact Nat.le_trans ih (by simp)
  | case5 singlequoted doublequoted s _ _ ih => exact ih
  | case6 singlequoted doublequoted c s => simp
  | case7 singlequoted doublequoted c s _ _ _ _ word rest hword ih =>
    rw [hword] at ih
    simp only [Bool.toNat_false, List.length_cons] at ih ⊢
    omega

theorem readWord_clean (escaped singlequoted doublequoted : Bool) {s : CStr} (hs : nul ∉ s) :
    nul ∉ (readWord escaped singlequoted doublequoted s).1 := by
  fun_induction readWord escaped singlequoted doublequoted s with
  | case1 escaped => cases escaped <;> decide
  | case2 singlequoted doublequoted c s word rest hword ih =>
    simp only [List.mem_cons, not_or] at hs
    have hrest := ih hs.2
    rw [hword] at hrest
    have hslash : nul ≠ '\\' := by decide
    by_cases hspecial : isArgSpecial c = true
    · simpa [hspecial, hs.1] using hrest
    · simpa [hspecial, hs.1, hslash] using hrest
  | case3 singlequoted doublequoted c s _ ih => exact ih fun hmem => hs (List.mem_cons_of_mem _ hmem)
  | case4 singlequoted doublequoted c s _ _ ih => exact ih fun hmem => hs (List.mem_cons_of_mem _ hmem)
  | case5 singlequoted doublequoted s _ _ ih => exact ih fun hmem => hs (List.mem_cons_of_mem _ hmem)
  | case6 singlequoted doublequoted c s => simp
  | case7 singlequoted doublequoted c s _ _ _ _ word rest hword ih =>
    simp only [List.mem_cons, not_or] at hs
    have hrest := ih hs.2
    rw [hword] at hrest
    simpa [hs.1] using hrest

theorem readWord_rest (escaped singlequoted doublequoted : Bool) (s : CStr) :
    (readWord escaped singlequoted doublequoted s).2.length ≤ s.length := by
  fun_induction readWord escaped singlequoted doublequoted s with
  | case1 => simp
  | case2 singlequoted doublequoted c s word rest hword ih =>
    rw [hword] at ih
    exact Nat.le_succ_of_le ih
  | case3 singlequoted doublequoted c s _ ih => exact Nat.le_succ_of_le ih
  | case4 singlequoted doublequoted c s _ _ ih => exact Nat.le_succ_of_le ih
  | case5 singlequoted doublequoted s _ _ ih => exact Nat.le_succ_of_le ih
  | case6 => exact Nat.le_refl _
  | case7 singlequoted doublequoted c s _ _ _ _ word rest hword ih =>
    rw [hword] at ih
    exact Nat.le_succ_of_le ih

/-- Only a space outside of quotes is left. -/
theorem readWord_eats (escaped singlequoted doublequoted : Bool) {c : Char} (s : CStr)
    (h : ¬ (escaped = false ∧ singlequoted = false ∧ doublequoted = false ∧ c = ' ')) :
    (readWord escaped singlequoted doublequoted (c :: s)).2.length ≤ s.length := by
  cases escaped with
  | true => exact readWord_rest false singlequoted doublequoted s
  | false =>
    rw [readWord]
    split_ifs with hsingle hdouble hslash hend
    · exact readWord_rest ..
    · exact readWord_rest ..
    · exact readWord_rest ..
    · simp only [Bool.not_or, Bool.and_eq_true, Bool.not_eq_true'] at hend
      exact absurd ⟨rfl, hend.2.1, hend.2.2, hend.1⟩ h
    · exact readWord_rest false singlequoted doublequoted s

/-- The arguments of a command line. -/
def argWords (s : CStr) : List CStr :=
  if s.dropWhile isWhiteChar = [] then []
  else
    (readWord false false false (s.dropWhile isWhiteChar)).1 ::
      argWords (readWord false false false (s.dropWhile isWhiteChar)).2.tail
termination_by s.length
decreasing_by
  have hdrop := (List.dropWhile_suffix isWhiteChar (l := s)).length_le
  have hread := readWord_length false false false (s.dropWhile isWhiteChar)
  have hpos := List.length_pos_iff.mpr (by assumption)
  rw [Bool.toNat_false] at hread
  rw [List.length_tail]
  omega

theorem argWords_white {s : CStr} (h : s.dropWhile isWhiteChar = []) : argWords s = [] := by rw [argWords, if_pos h]

theorem argWords_word {s : CStr} (h : s.dropWhile isWhiteChar ≠ []) :
    argWords s = (readWord false false false (s.dropWhile isWhiteChar)).1 ::
      argWords (readWord false false false (s.dropWhile isWhiteChar)).2.tail := by
  rw [argWords, if_neg h]

theorem argWords_cons_white {c : Char} {s : CStr} (h : isWhiteChar c = true) : argWords (c :: s) = argWords s := by
  rw [argWords.eq_def (c :: s), argWords.eq_def s, List.dropWhile_cons_of_pos h]

theorem argWords_cons_word {c : Char} {s : CStr} (h : ¬ isWhiteChar c = true) :
    argWords (c :: s) = (readWord false false false (c :: s)).1 :: argWords (readWord false false false (c :: s)).2.tail := by
  rw [argWords_word (by rw [List.dropWhile_cons_of_neg h]; exact List.cons_ne_nil _ _), List.dropWhile_cons_of_neg h]

/-- Induction along the white space and the arguments of a line. -/
theorem argWords_induction {motive : CStr → Prop} (nil : motive [])
    (white : ∀ c s, isWhiteChar c = true → motive s → motive (c :: s))
    (word : ∀ c s, ¬ isWhiteChar c = true → motive (readWord false false false (c :: s)).2.tail → motive (c :: s))
    (s : CStr) : motive s := by
  induction hn : s.length using Nat.strong_induction_on generalizing s with
  | _ n ih =>
    cases s with
    | nil => exact nil
    | cons c s =>
      rw [List.length_cons] at hn
      by_cases hc : isWhiteChar c = true
      · exact white c s hc (ih s.length (by omega) s rfl)
      · have hlen := readWord_rest false false false (c :: s)
        refine word c s hc (ih _ ?_ _ rfl)
        rw [List.length_tail]
        rw [List.length_cons] at hlen
        omega

/-- The bytes that the arguments take, each with its terminator. -/
def argBytes (words : List CStr) : Nat := (words.map (fun w => w.length + 1)).sum

section Argument

variable {cmdline pre s : CStr}

theorem isArgSpecial_iff (c : Char) : isArgSpecial c = true ↔ c = '\'' ∨ c = '"' ∨ c = ' ' ∨ c = '\\' := by
  simp only [isArgSpecial, Bool.or_eq_true, decide_eq_true_eq]
  tauto

/-- The loop stores the argument, and stops behind it. -/
theorem argLoop_spec (turns : Nat) (escaped singlequoted doublequoted : Bool) (out free : CStr)
    (hs : TextFrom nul cmdline pre s) (hfree : s.length + escaped.toNat ≤ free.length) (ht : s.length < turns) :
    ∃ pre' free', TextFrom nul cmdline pre' (readWord escaped singlequoted doublequoted s).2 ∧
      (readWord escaped singlequoted doublequoted s).1.length + free'.length = free.length ∧
      argLoop cmdline turns pre.length (out ++ free) out.length escaped singlequoted doublequoted =
        some (pre'.length, out ++ ((readWord escaped singlequoted doublequoted s).1 ++ free'),
          out.length + (readWord escaped singlequoted doublequoted s).1.length) := by
  obtain ⟨turns, rfl⟩ : ∃ t, turns = t + 1 := ⟨turns - 1, by omega⟩
  fun_induction readWord escaped singlequoted doublequoted s generalizing turns pre out free with
  | case1 escaped singlequoted doublequoted =>
    rw [argLoop, hs.read_nil]
    cases escaped with
    | false => exact ⟨pre, free, hs, Nat.zero_add _, rfl⟩
    | true =>
      obtain ⟨f, free, rfl⟩ : ∃ f fs, free = f :: fs := List.length_pos_iff_exists_cons.mp hfree
      refine ⟨pre, free, hs, Nat.add_comm _ _, ?_⟩
      show (storeAt (out ++ f :: free) out.length '\\').bind _ = _
      rw [storeAt_here]
      rfl
  | case2 singlequoted doublequoted c s word rest hword ih =>
    obtain ⟨turns, rfl⟩ : ∃ t, turns = t + 1 := ⟨turns - 1, by simp at ht; omega⟩
    rw [hword] at ih
    rw [argLoop, hs.read]
    by_cases hspecial : isArgSpecial c = true
    · obtain ⟨f, free, rfl⟩ : ∃ f fs, free = f :: fs := List.length_pos_iff_exists_cons.mp (by simp at hfree; omega)
      obtain ⟨pre', free', htext, hlen, hloop⟩ := ih (out ++ [c]) free hs.next (by simp at hfree ⊢; omega) turns
        (by simpa using ht)
      rw [if_pos hspecial]
      refine ⟨pre', free', htext, by simp at hlen ⊢; omega, ?_⟩
      show (if c = '\'' ∨ c = '"' ∨ c = ' ' ∨ c = '\\' then _ else _) = _
      rw [if_pos ((isArgSpecial_iff c).mp hspecial)]
      show (storeAt _ _ _).bind _ = _
      rw [storeAt_here]
      simpa [Nat.add_assoc, Nat.add_comm 1] using hloop
    · obtain ⟨f, g, free, rfl⟩ : ∃ f g fs, free = f :: g :: fs := by
        match free, hfree with
        | [], hfree => simp at hfree
        | [_], hfree => simp at hfree
        | f :: g :: fs, _ => exact ⟨f, g, fs, rfl⟩
      obtain ⟨pre', free', htext, hlen, hloop⟩ := ih (out ++ ['\\', c]) free hs.next (by simp at hfree ⊢; omega) turns
        (by simpa using ht)
      rw [if_neg hspecial]
      refine ⟨pre', free', htext, by simp at hlen ⊢; omega, ?_⟩
      show (if c = '\'' ∨ c = '"' ∨ c = ' ' ∨ c = '\\' then _ else _) = _
      rw [if_neg fun h => hspecial ((isArgSpecial_iff c).mpr h), if_neg hs.ne]
      show (storeAll _ _ _).bind _ = _
      rw [storeAll_here _ _ _ (by simp)]
      simpa [Nat.add_assoc, Nat.add_comm 2] using hloop
  | case3 singlequoted doublequoted c s hquote ih =>
    obtain ⟨turns, rfl⟩ : ∃ t, turns = t + 1 := ⟨turns - 1, by simp at ht; omega⟩
    obtain ⟨pre', free', htext, hlen, hloop⟩ := ih out free hs.next (by simp at hfree ⊢; omega) turns (by simpa using ht)
    rw [argLoop, hs.read]
    refine ⟨pre', free', htext, hlen, ?_⟩
    rw [List.length_append] at hloop
    exact (if_pos hquote).trans hloop
  | case4 singlequoted doublequoted c s hsingle hdouble ih =>
    obtain ⟨turns, rfl⟩ : ∃ t, turns = t + 1 := ⟨turns - 1, by simp at ht; omega⟩
    obtain ⟨pre', free', htext, hlen, hloop⟩ := ih out free hs.next (by simp at hfree ⊢; omega) turns (by simpa using ht)
    rw [argLoop, hs.read]
    refine ⟨pre', free', htext, hlen, ?_⟩
    rw [List.length_append] at hloop
    exact (if_neg hsingle).trans ((if_pos hdouble).trans hloop)
  | case5 singlequoted doublequoted s _ _ ih =>
    obtain ⟨turns, rfl⟩ : ∃ t, turns = t + 1 := ⟨turns - 1, by simp at ht; omega⟩
    obtain ⟨pre', free', htext, hlen, hloop⟩ := ih out free hs.next (by simp at hfree ⊢; omega) turns (by simpa using ht)
    rw [argLoop, hs.read]
    refine ⟨pre', free', htext, hlen, ?_⟩
    rw [List.length_append] at hloop
    exact hloop
  | case6 singlequoted doublequoted c s hsingle hdouble hslash hend =>
    rw [argLoop, hs.read]
    refine ⟨pre, free, hs, Nat.zero_add _, ?_⟩
    exact (if_neg hsingle).trans ((if_neg hdouble).trans ((if_neg hslash).trans ((if_pos (.inl hend)).trans rfl)))
  | case7 singlequoted doublequoted c s hsingle hdouble hslash hend word rest hword ih =>
    obtain ⟨turns, rfl⟩ : ∃ t, turns = t + 1 := ⟨turns - 1, by simp at ht; omega⟩
    obtain ⟨f, free, rfl⟩ : ∃ f fs, free = f :: fs := List.length_pos_iff_exists_cons.mp (by simp at hfree; omega)
    obtain ⟨pre', free', htext, hlen, hloop⟩ := ih (out ++ [c]) free hs.next (by simp at hfree ⊢; omega) turns
      (by simpa using ht)
    rw [hword] at htext hlen hloop
    rw [argLoop, hs.read]
    refine ⟨pre', free', htext, by simp at hlen ⊢; omega, ?_⟩
    refine (if_neg hsingle).trans ((if_neg hdouble).trans ((if_neg hslash).trans ((if_neg ?_).trans ?_)))
    · exact fun h => h.elim hend hs.ne
    · show (storeAt _ _ _).bind _ = _
      rw [storeAt_here]
      simpa [Nat.add_assoc, Nat.add_comm 1] using hloop

theorem skipWhite_spec (turns : Nat) (hs : TextFrom nul cmdline pre s) (ht : s.length < turns) :
    skipWhite cmdline turns pre.length = some (pre ++ s.takeWhile isWhiteChar).length := by
  induction turns generalizing pre s with
  | zero => omega
  | succ turns ih =>
    rw [skipWhite]
    cases s with
    | nil =>
      rw [hs.read_nil]
      simp
    | cons c s =>
      rw [hs.read]
      by_cases hwhite : isWhiteChar c = true
      · have hstep := ih hs.next (by simpa using ht)
        rw [List.takeWhile_cons_of_pos hwhite]
        simp only [List.append_assoc, List.singleton_append, List.length_append, List.length_singleton] at hstep ⊢
        exact (if_pos ⟨hs.ne, hwhite⟩).trans hstep
      · rw [List.takeWhile_cons_of_neg hwhite, List.append_nil]
        exact if_neg fun h => hwhite h.2

end Argument

section Pointers

/-- `argv` has a place behind its `argc` pointers. -/
def ArgvRoom (argc argvLen : Nat) : Prop := argc < argvLen ∧ ∃ k ≤ 23, argvLen = 128 * 2 ^ k

theorem argvRoom_start : ArgvRoom 0 128 := ⟨by decide, 0, by decide, rfl⟩

theorem growArgv_spec {argc argvLen : Nat} (h : ArgvRoom argc argvLen) (hlt : argc + 1 < 1073741824) :
    ∃ argvLen', growArgv (argc + 1) argvLen = some argvLen' ∧ ArgvRoom (argc + 1) argvLen' := by
  obtain ⟨hroom, k, hk, hlen⟩ := h
  by_cases hfit : argc + 1 < argvLen
  · exact ⟨argvLen, if_pos hfit, hfit, k, hk, hlen⟩
  · have hk' : k < 23 := by
      by_contra htop
      obtain rfl : k = 23 := by omega
      norm_num at hlen
      omega
    have hpow : 2 ^ k ≤ 2 ^ 22 := Nat.pow_le_pow_right (by decide) (by omega)
    refine ⟨argvLen * 2, ?_, by omega, k + 1, hk', by rw [hlen, pow_succ]; omega⟩
    rw [growArgv, if_neg hfit, if_pos (by omega)]

theorem growArgv_full {argc argvLen : Nat} (h : ArgvRoom argc argvLen) (htop : 1073741824 ≤ argc + 1) :
    growArgv (argc + 1) argvLen = none := by
  obtain ⟨hroom, k, hk, hlen⟩ := h
  have hpow : 2 ^ k ≤ 2 ^ 23 := Nat.pow_le_pow_right (by decide) hk
  rw [growArgv, if_neg (by omega), if_neg (by omega)]

end Pointers

section Run

variable {cmdline pre s : CStr}

theorem argvLoop_end {turns : Nat} (args : CStr) (n : Nat) (argv : List CStr) (argvLen : Nat)
    (hs : TextFrom nul cmdline pre s) (hcmd : s.length < cmdline.length) (hwhite : s.dropWhile isWhiteChar = []) :
    argvLoop cmdline (turns + 1) pre.length args n argv argvLen = endArgv argv argvLen n := by
  have htake := List.takeWhile_append_dropWhile (p := isWhiteChar) (l := s)
  rw [hwhite, List.append_nil] at htake
  have hend : TextFrom nul cmdline (pre ++ s) [] := TextFrom.skip (by simpa using hs)
  rw [argvLoop, skipWhite_spec _ hs hcmd, htake]
  show (intAt _ _).bind _ = _
  rw [hend.read_nil]
  rfl

/-- A turn of the loop reads an argument, and ends with the text or goes on behind the space. -/
theorem argvLoop_turn (turns : Nat) (out free : CStr) (argv : List CStr) (argvLen : Nat)
    (hs : TextFrom nul cmdline pre s) (hroom : argv.length < argvLen) (hfree : s.length < free.length)
    (hcmd : s.length < cmdline.length) (hword : s.dropWhile isWhiteChar ≠ []) :
    ∃ word rest pre' free', readWord false false false (s.dropWhile isWhiteChar) = (word, rest) ∧
      TextFrom nul cmdline pre' rest ∧ word.length + free'.length + 1 = free.length ∧
      argvLoop cmdline (turns + 1) pre.length (out ++ free) out.length argv argvLen =
        (growArgv (argv.length + 1) argvLen).bind fun argvLen =>
          if rest = [] then endArgv (argv ++ [word]) argvLen (out.length + (word.length + 1))
          else argvLoop cmdline turns (pre'.length + 1) (out ++ (word ++ [nul]) ++ free') (out ++ (word ++ [nul])).length
            (argv ++ [word]) argvLen := by
  have htake := List.takeWhile_append_dropWhile (p := isWhiteChar) (l := s)
  have hdrop := (List.dropWhile_suffix isWhiteChar (l := s)).length_le
  have hsd : TextFrom nul cmdline (pre ++ s.takeWhile isWhiteChar) (s.dropWhile isWhiteChar) :=
    TextFrom.skip (by rw [htake]; exact hs)
  rw [argvLoop, skipWhite_spec _ hs hcmd]
  generalize s.dropWhile isWhiteChar = d at *
  generalize pre ++ s.takeWhile isWhiteChar = pre1 at *
  obtain ⟨c, t, rfl⟩ : ∃ c t, d = c :: t := List.exists_cons_of_ne_nil hword
  obtain ⟨pre', free', hrest, hlen, hloop⟩ := argLoop_spec cmdline.length false false false out free hsd
    (by rw [Bool.toNat_false]; omega) (by omega)
  have hclean := readWord_clean false false false hsd.clean
  have hle := readWord_length false false false (c :: t)
  rw [Bool.toNat_false] at hle
  generalize hread : readWord false false false (c :: t) = r at *
  obtain ⟨word, rest⟩ := r
  obtain ⟨f, free', rfl⟩ : ∃ f fs, free' = f :: fs := List.length_pos_iff_exists_cons.mp (by dsimp only at hle hlen; omega)
  refine ⟨word, rest, pre', free', rfl, hrest, by simpa [Nat.add_assoc] using hlen, ?_⟩
  have hstore := storeAt_here (out ++ word) free' f nul
  rw [List.length_append, List.append_assoc, List.append_assoc] at hstore
  have hstr := strlenAt_eq hclean out free'
  show (intAt _ _).bind _ = _
  rw [hsd.read, Option.bind_some, if_neg hsd.ne]
  show (argLoop _ _ _ _ _ _ _ _).bind _ = _
  rw [hloop, Option.bind_some]
  show (storeAt _ _ _).bind _ = _
  rw [hstore, Option.bind_some]
  show (strlenAt _ _ _).bind _ = _
  rw [hstr, Option.bind_some, List.drop_left, List.take_left]
  show (pushArg _ _ _).bind _ = _
  rw [pushArg, if_pos hroom, Option.bind_some, List.length_append]
  refine congrArg (Option.bind _) (funext fun argvLen => ?_)
  cases rest with
  | nil =>
    show (intAt _ _).bind _ = _
    rw [hrest.read_nil, Option.bind_some, if_pos rfl, if_pos rfl]
    rfl
  | cons e rest =>
    show (intAt _ _).bind _ = _
    rw [hrest.read, Option.bind_some, if_neg hrest.ne, if_neg (List.cons_ne_nil _ _)]
    simp [Nat.add_assoc]

/-- The whole loop; `argv_len` cannot double for the pointer number 2^30. -/
theorem argvLoop_spec (turns : Nat) (out free : CStr) (argv : List CStr) (argvLen : Nat)
    (hs : TextFrom nul cmdline pre s) (hroom : ArgvRoom argv.length argvLen) (hfree : s.length < free.length)
    (ht : s.length < turns) (hcmd : s.length < cmdline.length) :
    argvLoop cmdline turns pre.length (out ++ free) out.length argv argvLen =
      if argv.length + (argWords s).length < 1073741824 then
        some ⟨argv ++ argWords s, argv.length + (argWords s).length, out.length + argBytes (argWords s)⟩
      else none := by
  have hsmall : argv.length < 1073741824 := by
    obtain ⟨hlt, k, hk, hlen⟩ := hroom
    have hpow : 2 ^ k ≤ 2 ^ 23 := Nat.pow_le_pow_right (by decide) hk
    omega
  obtain ⟨turns, rfl⟩ : ∃ t, turns = t + 1 := ⟨turns - 1, by omega⟩
  induction s using argWords.induct generalizing turns pre out free argv argvLen with
  | case1 s hwhite =>
    rw [argvLoop_end _ _ _ _ hs hcmd hwhite, argWords_white hwhite, endArgv, if_pos hroom.1, if_pos (by simpa using hsmall)]
    simp [argBytes]
  | case2 s hword ih =>
    obtain ⟨word, rest, pre', free', hread, hrest, hlen, hturn⟩ :=
      argvLoop_turn turns out free argv argvLen hs hroom.1 hfree hcmd hword
    have hle := readWord_length false false false (s.dropWhile isWhiteChar)
    have hdrop := (List.dropWhile_suffix isWhiteChar (l := s)).length_le
    rw [hturn, argWords_word hword]
    rw [hread] at ih hle ⊢
    rw [Bool.toNat_false] at hle
    simp only [List.length_cons]
    by_cases htop : argv.length + 1 < 1073741824
    · obtain ⟨argvLen', hgrow, hroom'⟩ := growArgv_spec hroom htop
      rw [hgrow, Option.bind_some]
      cases rest with
      | nil =>
        rw [if_pos rfl, endArgv, if_pos (by simpa using hroom'.1), argWords_white rfl]
        simp [argBytes, htop]
      | cons e rest =>
        rw [if_neg (List.cons_ne_nil _ _)]
        have hstep := ih (out ++ (word ++ [nul])) free' (argv ++ [word]) argvLen' hrest.next
          (by simpa using hroom') (by simp at hle ⊢; omega) (by simp at hle ⊢; omega) (by simpa using htop)
          (turns - 1) (by simp at hle ⊢; omega)
        have hturns : turns - 1 + 1 = turns := by simp at hle; omega
        rw [hturns] at hstep
        simp only [List.length_append, List.length_cons, List.length_nil, List.tail_cons] at hstep ⊢
        rw [hstep]
        simp [argBytes, Nat.add_assoc, Nat.add_comm]
    · rw [growArgv_full hroom (by omega), if_neg (by omega)]
      rfl

end Run

section Count

theorem not_white_space {c : Char} (h : ¬ isWhiteChar c = true) : c ≠ ' ' := by
  rintro rfl
  exact h rfl

/-- An argument takes one character at least. -/
theorem readWord_word {c : Char} (s : CStr) (h : ¬ isWhiteChar c = true) :
    (readWord false false false (c :: s)).2.length ≤ s.length :=
  readWord_eats false false false s fun hc => not_white_space h hc.2.2.2

theorem argBytes_argWords (s : CStr) : argBytes (argWords s) ≤ s.length + 1 := by
  induction s using argWords_induction with
  | nil =>
    rw [argWords_white rfl]
    exact Nat.zero_le _
  | white c s hc ih =>
    rw [argWords_cons_white hc]
    exact Nat.le_succ_of_le ih
  | word c s hc ih =>
    rw [argWords_cons_word hc]
    have hlen := readWord_length false false false (c :: s)
    generalize readWord false false false (c :: s) = r at ih hlen ⊢
    obtain ⟨word, rest⟩ := r
    simp only [Bool.toNat_false, List.length_cons, Nat.add_zero] at hlen
    cases rest with
    | nil =>
      rw [List.tail_nil, argWords_white rfl]
      simp [argBytes] at hlen ⊢
      omega
    | cons e rest =>
      simp only [argBytes, List.map_cons, List.sum_cons, List.tail_cons, List.length_cons] at ih hlen ⊢
      omega

/-- Arguments of one character, with one space between them. -/
def singles : CStr → Bool
  | [] => false
  | [c] => !isWhiteChar c
  | c :: d :: s => !isWhiteChar c && !isArgSpecial c && d = ' ' && singles s

theorem readWord_plain {c : Char} (s : CStr) (hspecial : isArgSpecial c = false) :
    readWord false false false (c :: s) = (c :: (readWord false false false s).1, (readWord false false false s).2) := by
  have hnot : ¬ (c = '\'' ∨ c = '"' ∨ c = ' ' ∨ c = '\\') := by
    rw [← isArgSpecial_iff, hspecial]
    exact Bool.false_ne_true
  simp only [not_or] at hnot
  rw [readWord, if_neg (fun h => hnot.1 h.1), if_neg (fun h => hnot.2.1 h.1), if_neg hnot.2.2.2,
    if_neg (fun h => hnot.2.2.1 h.1)]

theorem readWord_space (s : CStr) : readWord false false false (' ' :: s) = ([], ' ' :: s) := rfl

/-- Unless it is one letter, an argument takes two characters of a line that has them. -/
theorem readWord_long {c d : Char} (s : CStr) (hc : ¬ isWhiteChar c = true)
    (h : ¬ (isArgSpecial c = false ∧ d = ' ')) : (readWord false false false (c :: d :: s)).2.length ≤ s.length := by
  cases hspecial : isArgSpecial c with
  | false =>
    rw [readWord_plain _ hspecial]
    exact readWord_eats false false false s fun hd => h ⟨hspecial, hd.2.2.2⟩
  | true =>
    rw [isArgSpecial_iff] at hspecial
    rcases hspecial with rfl | rfl | rfl | rfl
    · exact readWord_eats false true false s (by simp)
    · exact readWord_eats false false true s (by simp)
    · exact absurd rfl (not_white_space hc)
    · exact readWord_eats true false false s (by simp)

/-- Only a line of single characters has as many arguments as there is room for. -/
theorem argWords_count (s : CStr) :
    2 * (argWords s).length ≤ s.length + 1 ∧ (2 * (argWords s).length = s.length + 1 ↔ singles s = true) := by
  induction s using argWords_induction with
  | nil =>
    rw [argWords_white rfl]
    simp [singles]
  | white c s hc ih =>
    rw [argWords_cons_white hc]
    have hno : singles (c :: s) = false := by cases s <;> simp [singles, hc]
    rw [hno, List.length_cons]
    exact ⟨by omega, by simp; omega⟩
  | word c s hc ih =>
    rw [argWords_cons_word hc, List.length_cons, List.length_cons]
    cases s with
    | nil =>
      have hlen := readWord_word [] hc
      rw [List.eq_nil_of_length_eq_zero (Nat.le_zero.mp hlen), List.tail_nil, argWords_white rfl]
      simp [singles, hc]
    | cons d s =>
      by_cases hone : isArgSpecial c = false ∧ d = ' '
      · obtain ⟨hspecial, rfl⟩ := hone
        rw [readWord_plain _ hspecial] at ih ⊢
        have hsingles : singles (c :: ' ' :: s) = singles s := by simp [singles, hc, hspecial]
        rw [hsingles, List.length_cons]
        rw [readWord_space] at ih ⊢
        simp only [List.tail_cons] at ih ⊢
        exact ⟨by omega, by rw [← ih.2]; omega⟩
      · have hlen := readWord_long s hc hone
        have hno : singles (c :: d :: s) = false := by
          rw [singles]
          by_cases hd : d = ' '
          · have hspecial : isArgSpecial c = true := by simpa [hd] using hone
            simp [hspecial]
          · simp [hd]
        rw [hno, List.length_cons]
        have htail := List.length_tail (l := (readWord false false false (c :: d :: s)).2)
        refine ⟨by omega, by simp; omega⟩

end Count

section Whole

/-- The loop ends only at a NUL that an `int` reaches. -/
theorem argvLoop_stops {cmdline : CStr} (turns current : Nat) (args : CStr) (n : Nat) (argv : List CStr) (argvLen : Nat)
    {r : ArgvRun} (h : argvLoop cmdline turns current args n argv argvLen = some r) :
    ∃ i ≤ 2147483647, cmdline[i]? = some nul := by
  induction turns generalizing current args n argv argvLen with
  | zero => cases h
  | succ turns ih =>
    rw [argvLoop] at h
    obtain ⟨i, -, h⟩ := Option.bind_eq_some_iff.mp h
    obtain ⟨c, hc, h⟩ := Option.bind_eq_some_iff.mp h
    by_cases hend : c = nul
    · subst hend
      exact ⟨i, intAt_some hc⟩
    · rw [if_neg hend] at h
      obtain ⟨⟨j, args', m⟩, -, h⟩ := Option.bind_eq_some_iff.mp h
      obtain ⟨args'', -, h⟩ := Option.bind_eq_some_iff.mp h
      obtain ⟨len, -, h⟩ := Option.bind_eq_some_iff.mp h
      obtain ⟨argv', -, h⟩ := Option.bind_eq_some_iff.mp h
      obtain ⟨argvLen', -, h⟩ := Option.bind_eq_some_iff.mp h
      obtain ⟨d, hd, h⟩ := Option.bind_eq_some_iff.mp h
      by_cases hlast : d = nul
      · subst hlast
        exact ⟨j, intAt_some hd⟩
      · rw [if_neg hlast] at h
        exact ih _ _ _ _ _ h

theorem rStrArgv_spec {line : CStr} (hline : nul ∉ line) :
    rStrArgv (line ++ [nul]) =
      if line.length ≤ 2147483647 ∧ (argWords line).length < 1073741824 then
        some ⟨argWords line, (argWords line).length, argBytes (argWords line)⟩
      else none := by
  rw [rStrArgv, strlenAt_start hline]
  show argvLoop (line ++ [nul]) (line ++ [nul]).length 0 (List.replicate (128 + line.length) nul) 0 [] 128 = _
  by_cases hlen : line.length ≤ 2147483647
  · have htext : TextFrom nul (line ++ [nul]) [] line := ⟨rfl, hline, by simpa using hlen⟩
    have hloop := argvLoop_spec (line ++ [nul]).length [] (List.replicate (128 + line.length) nul) [] 128 htext
      argvRoom_start (by simp)
      (by simp) (by simp)
    simp only [List.nil_append, List.length_nil, Nat.zero_add] at hloop
    rw [hloop]
    simp [hlen]
  · rw [if_neg fun h => hlen h.1]
    cases hrun : argvLoop (line ++ [nul]) (line ++ [nul]).length 0 (List.replicate (128 + line.length) nul) 0 [] 128 with
    | none => rfl
    | some r =>
      obtain ⟨i, hi, hnul⟩ := argvLoop_stops _ _ _ _ _ _ hrun
      rw [List.getElem?_append_left (by omega)] at hnul
      exact absurd (List.mem_of_getElem? hnul) hline

/-- What `r_str_arg_escape` makes of an argument. -/
def argEscapeText (arg : CStr) : CStr := arg.flatMap argEscapeChar

theorem argEscapeChar_length (c : Char) : 0 < (argEscapeChar c).length ∧ (argEscapeChar c).length ≤ 2 := by
  unfold argEscapeChar
  split_ifs <;> simp

theorem argEscapeText_length (arg : CStr) :
    arg.length ≤ (argEscapeText arg).length ∧ (argEscapeText arg).length ≤ 2 * arg.length := by
  induction arg with
  | nil => simp [argEscapeText]
  | cons c arg ih =>
    have hc := argEscapeChar_length c
    rw [argEscapeText, List.flatMap_cons, List.length_append, List.length_cons]
    rw [argEscapeText] at ih
    omega

theorem argEscapeText_clean {arg : CStr} (h : nul ∉ arg) : nul ∉ argEscapeText arg := by
  intro hmem
  obtain ⟨c, hc, hnul⟩ := List.mem_flatMap.mp hmem
  have hne : nul ≠ c := fun heq => h (heq ▸ hc)
  have hslash : nul ≠ '\\' := by decide
  unfold argEscapeChar at hnul
  split_ifs at hnul <;> simp [hne, hslash] at hnul

theorem argEscapeLoop_spec {arg : CStr} (turns : Nat) (pre s out free : CStr) (harg : arg = pre ++ (s ++ [nul]))
    (hs : nul ∉ s) (hpre : pre.length ≤ out.length) (hout : out.length ≤ 2147483647)
    (hfree : (argEscapeText s).length < free.length) (ht : s.length < turns) :
    argEscapeLoop arg turns pre.length (out ++ free) out.length =
      if out.length + (argEscapeText s).length ≤ 2147483647 then
        some (out ++ (argEscapeText s ++ free.drop (argEscapeText s).length), out.length + (argEscapeText s).length)
      else none := by
  induction s generalizing turns pre out free with
  | nil =>
    obtain ⟨turns, rfl⟩ : ∃ t, turns = t + 1 := ⟨turns - 1, by simp at ht; omega⟩
    rw [if_pos (by simpa [argEscapeText] using hout), argEscapeLoop, intAt_of_le _ (by omega), harg, List.nil_append,
      get_here]
    rfl
  | cons c s ih =>
    obtain ⟨turns, rfl⟩ : ∃ t, turns = t + 1 := ⟨turns - 1, by simp at ht; omega⟩
    simp only [List.mem_cons, not_or, List.length_cons] at hs ht
    have hc := argEscapeChar_length c
    have htext : argEscapeText (c :: s) = argEscapeChar c ++ argEscapeText s := List.flatMap_cons
    rw [htext, List.length_append] at hfree ⊢
    rw [argEscapeLoop, intAt_of_le _ (by omega), harg, List.cons_append, get_here]
    show (if c = nul then _ else if 2147483647 < out.length + (argEscapeChar c).length then _ else _) = _
    rw [if_neg (Ne.symm hs.1)]
    by_cases hfar : 2147483647 < out.length + (argEscapeChar c).length
    · rw [if_pos hfar, if_neg (by omega)]
    · have hstep := ih turns (pre ++ [c]) (out ++ argEscapeChar c) (free.drop (argEscapeChar c).length)
        (by rw [harg]; simp) hs.2 (by simp; omega) (by simp; omega) (by simp; omega) (by omega)
      rw [if_neg hfar, storeAll_here _ _ _ (by omega)]
      simpa [harg, Nat.add_assoc] using hstep

theorem rStrArgEscape_spec {arg : CStr} (h : nul ∉ arg) :
    rStrArgEscape (arg ++ [nul]) =
      if (argEscapeText arg).length ≤ 2147483647 then some (argEscapeText arg ++ [nul]) else none := by
  have hlen := argEscapeText_length arg
  have hloop := argEscapeLoop_spec (arg ++ [nul]).length [] arg [] (List.replicate (2 * arg.length + 1) nul) rfl h
    (Nat.le_refl _) (by decide) (by simp; omega) (by simp)
  simp only [List.nil_append, List.length_nil, Nat.zero_add] at hloop
  rw [rStrArgEscape, strlenAt_start h]
  show (argEscapeLoop _ _ _ _ _).bind _ = _
  rw [hloop]
  by_cases hfit : (argEscapeText arg).length ≤ 2147483647
  · rw [if_pos hfit, if_pos hfit, List.drop_replicate]
    obtain ⟨n, hn⟩ : ∃ n, 2 * arg.length + 1 - (argEscapeText arg).length = n + 1 := ⟨_, (Nat.succ_pred (by omega)).symm⟩
    rw [hn, List.replicate_succ, Option.bind_some]
    show (storeAt _ _ _).bind _ = _
    rw [storeAt_here]
    show (strlenAt _ _ _).bind _ = _
    rw [strlenAt_start (argEscapeText_clean h), Option.bind_some, List.append_cons, List.take_left' (by simp)]
  · rw [if_neg hfit, if_neg hfit]
    rfl

end Whole

section Quoting

/-- The white space that `r_str_arg_escape` leaves as it is. -/
def isArgBlank (c : Char) : Bool := c = '\t' || c = '\n' || c = '\r'

theorem isWhiteChar_iff (c : Char) : isWhiteChar c = true ↔ c = ' ' ∨ isArgBlank c = true := by
  simp only [isWhiteChar, isArgBlank, Bool.or_eq_true, decide_eq_true_eq, or_assoc]

theorem isArgBlank_not_special {c : Char} (h : isArgBlank c = true) : isArgSpecial c = false := by
  simp only [isArgBlank, Bool.or_eq_true, decide_eq_true_eq, or_assoc] at h
  rcases h with rfl | rfl | rfl <;> rfl

theorem readWord_escape (arg t : CStr) :
    readWord false false false (argEscapeText arg ++ t) =
      (arg ++ (readWord false false false t).1, (readWord false false false t).2) := by
  induction arg with
  | nil => rfl
  | cons c arg ih =>
    have htext : argEscapeText (c :: arg) = argEscapeChar c ++ argEscapeText arg := List.flatMap_cons
    rw [htext, List.append_assoc]
    by_cases hspecial : isArgSpecial c = true
    · have hstep : readWord false false false ('\\' :: c :: (argEscapeText arg ++ t)) =
          readWord true false false (c :: (argEscapeText arg ++ t)) := rfl
      rw [argEscapeChar, if_pos hspecial, List.cons_append, List.singleton_append, hstep, readWord, ih]
      dsimp only
      rw [if_pos hspecial, List.cons_append]
    · rw [argEscapeChar, if_neg hspecial, List.singleton_append, readWord_plain _ (by simpa using hspecial), ih]
      rfl

/-- An argument that has nothing behind it but the end or a space. -/
theorem argWords_escape (arg t : CStr) (ht : t = [] ∨ t.head? = some ' ') :
    argWords (argEscapeText arg ++ t) =
      if arg.dropWhile isArgBlank = [] then argWords t else arg.dropWhile isArgBlank :: argWords t := by
  have htail : (readWord false false false t).1 = [] ∧ argWords (readWord false false false t).2.tail = argWords t := by
    rcases ht with rfl | ht
    · exact ⟨rfl, rfl⟩
    · obtain ⟨t, rfl⟩ : ∃ u, t = ' ' :: u := by
        cases t with
        | nil => cases ht
        | cons c t => exact ⟨t, by rw [Option.some.inj ht]⟩
      rw [readWord_space, argWords_cons_white (c := ' ') rfl]
      exact ⟨rfl, rfl⟩
  induction arg with
  | nil => rfl
  | cons c arg ih =>
    have htext : argEscapeText (c :: arg) = argEscapeChar c ++ argEscapeText arg := List.flatMap_cons
    by_cases hblank : isArgBlank c = true
    · rw [htext, argEscapeChar, if_neg (by rw [isArgBlank_not_special hblank]; exact Bool.false_ne_true),
        List.singleton_append, List.cons_append, argWords_cons_white ((isWhiteChar_iff c).mpr (.inr hblank)), ih,
        List.dropWhile_cons_of_pos hblank]
    · have hread := readWord_escape (c :: arg) t
      rw [htail.1, List.append_nil] at hread
      obtain ⟨d, rest, hd, hwhite⟩ : ∃ d rest, argEscapeText (c :: arg) ++ t = d :: rest ∧ ¬ isWhiteChar d = true := by
        rw [htext, argEscapeChar]
        by_cases hspecial : isArgSpecial c = true
        · rw [if_pos hspecial]
          exact ⟨'\\', c :: (argEscapeText arg ++ t), rfl, by decide⟩
        · rw [if_neg hspecial]
          refine ⟨c, argEscapeText arg ++ t, rfl, fun h => ?_⟩
          rcases (isWhiteChar_iff c).mp h with rfl | h
          · exact hspecial rfl
          · exact hblank h
      rw [List.dropWhile_cons_of_neg hblank, if_neg (List.cons_ne_nil _ _), hd, argWords_cons_word hwhite, ← hd, hread, htail.2]

/-- The arguments come back without the white space that they begin with. -/
theorem argWords_join (args : List CStr) :
    argWords ([' '].intercalate (args.map argEscapeText)) =
      (args.map (fun a => a.dropWhile isArgBlank)).filter (fun a => a ≠ []) := by
  induction args with
  | nil => exact argWords_white rfl
  | cons a args ih =>
    cases args with
    | nil =>
      have hone := argWords_escape a [] (.inl rfl)
      rw [List.append_nil, argWords_white (s := []) rfl] at hone
      rw [List.map_singleton, List.intercalate_singleton, hone]
      by_cases ha : a.dropWhile isArgBlank = [] <;> simp [ha]
    | cons b args =>
      rw [List.map_cons, List.map_cons, List.intercalate_cons_cons, List.append_assoc, List.singleton_append,
        argWords_escape a _ (.inr rfl), argWords_cons_white (c := ' ') rfl]
      rw [List.map_cons] at ih
      rw [ih]
      show _ = (a.dropWhile isArgBlank :: (b :: args).map (fun a => a.dropWhile isArgBlank)).filter _
      generalize (b :: args).map (fun a => a.dropWhile isArgBlank) = rest
      by_cases ha : a.dropWhile isArgBlank = [] <;> simp [ha]

theorem join_clean {args : List CStr} (h : ∀ a ∈ args, nul ∉ a) :
    nul ∉ [' '].intercalate (args.map argEscapeText) := by
  induction args with
  | nil => simp
  | cons a args ih =>
    have ha := argEscapeText_clean (h a List.mem_cons_self)
    have hrest := ih fun b hb => h b (List.mem_cons_of_mem _ hb)
    cases args with
    | nil => simpa using ha
    | cons b args =>
      have hspace : nul ≠ ' ' := by decide
      rw [List.map_cons, List.map_cons, List.intercalate_cons_cons]
      rw [List.map_cons] at hrest
      simp [ha, hrest, hspace]

/-- The characters of an argument, its escapes and a separator. -/
def quotedLength (arg : CStr) : Nat := arg.length + arg.countP isArgSpecial + 1

theorem quotedLength_eq (arg : CStr) : (argEscapeText arg).length + 1 = quotedLength arg := by
  induction arg with
  | nil => rfl
  | cons c arg ih =>
    have htext : argEscapeText (c :: arg) = argEscapeChar c ++ argEscapeText arg := List.flatMap_cons
    rw [quotedLength] at ih ⊢
    rw [htext, List.length_append, argEscapeChar]
    by_cases hspecial : isArgSpecial c = true
    · rw [if_pos hspecial, List.countP_cons_of_pos hspecial]
      simp only [List.length_cons, List.length_nil]
      omega
    · rw [if_neg hspecial, List.countP_cons_of_neg hspecial]
      simp only [List.length_cons, List.length_nil]
      omega

theorem join_length {args : List CStr} (hne : args ≠ []) :
    ([' '].intercalate (args.map argEscapeText)).length + 1 = (args.map quotedLength).sum := by
  induction args with
  | nil => exact absurd rfl hne
  | cons a args ih =>
    have ha := quotedLength_eq a
    cases args with
    | nil => simp [← ha]
    | cons b args =>
      have hrest := ih (List.cons_ne_nil _ _)
      rw [List.map_cons, List.map_cons, List.intercalate_cons_cons, List.map_cons (f := quotedLength), List.sum_cons]
      rw [List.map_cons] at hrest
      rw [← hrest, ← ha]
      simp only [List.length_append, List.length_singleton]
      omega

theorem dropBlank_eq_self {a : CStr} :
    a.dropWhile isArgBlank = a ↔ ∀ c, a.head? = some c → isArgBlank c = false := by
  cases a with
  | nil => simp
  | cons c a =>
    by_cases hc : isArgBlank c = true
    · have hlen := (List.dropWhile_suffix isArgBlank (l := a)).length_le
      refine ⟨fun h => ?_, fun h => absurd hc (by simp [h c rfl])⟩
      rw [List.dropWhile_cons_of_pos hc] at h
      rw [h] at hlen
      simp at hlen
    · simp [hc]

/-- Nothing is lost only if every argument is kept as it is. -/
theorem argWords_join_eq {args : List CStr} (hne : ∀ a ∈ args, a ≠ []) :
    argWords ([' '].intercalate (args.map argEscapeText)) = args ↔
      ∀ a ∈ args, ∀ c, a.head? = some c → isArgBlank c = false := by
  rw [argWords_join]
  constructor
  · intro h a ha
    have hlen := congrArg List.length h
    have hsame : args.length = (args.map fun a : CStr => a.dropWhile isArgBlank).length := List.length_map _ |>.symm
    rw [hsame] at hlen
    have hall := List.filter_eq_self.mpr (List.length_filter_eq_length_iff.mp hlen)
    rw [hall] at h
    have hmap : args.map (fun a => a.dropWhile isArgBlank) = args.map id := by rw [h, List.map_id]
    exact dropBlank_eq_self.mp (List.map_inj_left.mp hmap a ha)
  · intro h
    have hmap : args.map (fun a => a.dropWhile isArgBlank) = args.map id :=
      List.map_congr_left fun a ha => dropBlank_eq_self.mpr (h a ha)
    rw [hmap, List.map_id]
    exact List.filter_eq_self.mpr fun a ha => by simpa using hne a ha

end Quoting

/-- `r_str_argv` gives back the arguments that `r_str_arg_escape` has quoted. -/
def QuotesBack (args : List CStr) : Prop :=
  ∃ escs, List.Forall₂ (fun arg esc => rStrArgEscape (arg ++ [nul]) = some (esc ++ [nul])) args escs ∧
    ∃ r, rStrArgv ([' '].intercalate escs ++ [nul]) = some r ∧ r.argv = args ∧ r.argc = args.length

theorem escapes_eq {args escs : List CStr} (hclean : ∀ a ∈ args, nul ∉ a)
    (h : List.Forall₂ (fun arg esc => rStrArgEscape (arg ++ [nul]) = some (esc ++ [nul])) args escs) :
    escs = args.map argEscapeText := by
  induction h with
  | nil => rfl
  | cons hone _ ih =>
    rw [rStrArgEscape_spec (hclean _ List.mem_cons_self)] at hone
    split_ifs at hone
    rw [List.map_cons, ih fun a ha => hclean a (List.mem_cons_of_mem _ ha)]
    exact congrArg (· :: _) (List.append_cancel_right (Option.some.inj hone)).symm

theorem escapes_of_fit {args : List CStr} (hclean : ∀ a ∈ args, nul ∉ a)
    (hfit : (args.map quotedLength).sum ≤ 2147483648) :
    List.Forall₂ (fun arg esc => rStrArgEscape (arg ++ [nul]) = some (esc ++ [nul])) args (args.map argEscapeText) := by
  rw [List.forall₂_map_right_iff, List.forall₂_same]
  intro a ha
  have hle := List.single_le_sum (fun _ _ => Nat.zero_le _) _ (List.mem_map_of_mem (f := quotedLength) ha)
  have hlen := quotedLength_eq a
  exact (rStrArgEscape_spec (hclean a ha)).trans (if_pos (by omega))

theorem quotesBack_iff {args : List CStr} (hne : args ≠ []) (hargs : ∀ a ∈ args, a ≠ [] ∧ nul ∉ a) :
    QuotesBack args ↔ (∀ a ∈ args, ∀ c, a.head? = some c → isArgBlank c = false) ∧
      (args.map quotedLength).sum ≤ 2147483648 ∧ args.length < 1073741824 := by
  have hjoin := join_clean fun a ha => (hargs a ha).2
  have hlen := join_length hne
  rw [← argWords_join_eq fun a ha => (hargs a ha).1]
  constructor
  · rintro ⟨escs, hescs, r, hr, hargv, hargc⟩
    rw [escapes_eq (fun a ha => (hargs a ha).2) hescs, rStrArgv_spec hjoin] at hr
    split_ifs at hr with hfit
    cases hr
    dsimp only at hargv
    rw [hargv] at hfit
    exact ⟨hargv, by omega, hfit.2⟩
  · rintro ⟨hback, hfit, hcount⟩
    refine ⟨_, escapes_of_fit (fun a ha => (hargs a ha).2) hfit, ⟨args, args.length, argBytes args⟩, ?_, rfl, rfl⟩
    rw [rStrArgv_spec hjoin, hback, if_pos ⟨by omega, hcount⟩]

theorem argvBounds_iff {line : CStr} (hline : nul ∉ line) :
    (∃ r, rStrArgv (line ++ [nul]) = some r ∧ r.written ≤ line.length + 1) ↔
      line.length ≤ 2147483647 ∧ ¬ (line.length = 2147483647 ∧ singles line = true) := by
  have hcount := argWords_count line
  have hbytes := argBytes_argWords line
  rw [rStrArgv_spec hline, ← hcount.2]
  constructor
  · rintro ⟨r, hr, -⟩
    split_ifs at hr with hfit
    exact ⟨hfit.1, by omega⟩
  · rintro ⟨hlen, hroom⟩
    exact ⟨_, if_pos ⟨hlen, by omega⟩, hbytes⟩

/-- Quoting loses the white space, other than a space, that an argument begins with; and `r_str_argv` stays inside
its memory on every line that an `int` can index and that is not made of single characters up to the last place. -/
theorem rStrArgv_iff (args : List CStr) (line : CStr) (hne : args ≠ []) (hargs : ∀ a ∈ args, a ≠ [] ∧ nul ∉ a)
    (hline : nul ∉ line) :
    (QuotesBack args ↔ (∀ a ∈ args, ∀ c, a.head? = some c → isArgBlank c = false) ∧
      (args.map quotedLength).sum ≤ 2147483648 ∧ args.length < 1073741824) ∧
    ((∃ r, rStrArgv (line ++ [nul]) = some r ∧ r.written ≤ line.length + 1) ↔
      line.length ≤ 2147483647 ∧ ¬ (line.length = 2147483647 ∧ singles line = true)) :=
  ⟨quotesBack_iff hne hargs, argvBounds_iff hline⟩

theorem rStrArgv_iff_pair :
    QuotesBack ["a b".toList, "it's".toList] ∧
      ∃ r, rStrArgv ("'x y' z".toList ++ [nul]) = some r ∧ r.written ≤ "'x y' z".toList.length + 1 := by
  obtain ⟨hback, hbounds⟩ :=
    rStrArgv_iff ["a b".toList, "it's".toList] "'x y' z".toList (by decide) (by decide) (by decide)
  exact ⟨hback.mpr ⟨by simp [isArgBlank], by decide, by decide⟩, hbounds.mpr (by decide)⟩

theorem tab_lost : ¬ ∀ args : List CStr, args ≠ [] → (∀ a ∈ args, a ≠ [] ∧ nul ∉ a) → QuotesBack args := by
  intro h
  have hclean : ∀ a ∈ [['\t', 'x']], nul ∉ a := by decide
  obtain ⟨escs, hescs, r, hr, hargv, -⟩ := h [['\t', 'x']] (by decide) (by decide)
  rw [escapes_eq hclean hescs] at hr
  have hrun : rStrArgv ([' '].intercalate ([['\t', 'x']].map argEscapeText) ++ [nul]) = some ⟨[['x']], 1, 2⟩ := by
    decide +kernel
  rw [hrun] at hr
  cases hr
  exact absurd hargv (by decide)

end Radare
