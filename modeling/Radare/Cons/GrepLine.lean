import Radare.Framework.CString
import Radare.Util.Num

namespace Radare

open Framework.CString

/-- What `r_cons_grep_line` reads of `RConsGrep`, with `cons->lines`. -/
structure RConsGrep where
  strings : List CStr
  rangeLine : Int
  line : Int
  fLine : Int
  lLine : Int
  tokens : List Bool
  tokensUsed : Bool
  amp : Bool
  neg : Bool
  begin_ : Bool
  end_ : Bool
  lines : Int

/-- The loop over the words: `hit` and `ampfail`. -/
def grepWords (g : RConsGrep) (line : CStr) : List CStr → Bool → Bool → Bool × Bool
  | [], hit, ampfail => (hit, ampfail)
  | w :: ws, hit, ampfail =>
    match strstr w line with
    | none => grepWords g line ws hit false
    | some p =>
      let hit := if g.begin_ then decide (p.length = line.length) else !g.neg
      let hit := if g.end_ ∧ w.length ≠ p.length then false else hit
      if g.amp then grepWords g line ws hit ampfail else (hit, ampfail)

def grepHit (g : RConsGrep) (line : CStr) : Bool :=
  if 0 < g.strings.length then
    let (hit, ampfail) := grepWords g line g.strings g.neg g.amp
    if g.amp then ampfail else hit
  else true

def useTok (g : RConsGrep) : Bool :=
  if g.rangeLine = 0 then decide (g.line = g.lines)
  else if g.rangeLine = 1 then decide (g.fLine = g.lines ∧ g.lLine ≠ g.lines)
  else true

/-- The words that `strtok` gives. -/
def strtokAll (line : CStr) : List CStr :=
  (line.splitOnP (fun c => c ∈ [' ', '|', ',', ';', '=', '\t'])).filter (fun tok => tok ≠ [])

/-- The loop over the columns; nothing where it returns -1. -/
def grepColumns : List Bool → List CStr → CStr → Option CStr
  | [], _, out => some out
  | _ :: _, [], out => if out = [] then none else some out
  | wanted :: tokens, tok :: toks, out => grepColumns tokens toks (if wanted then out ++ tok ++ [' '] else out)

/-- `r_cons_grep_line` on a line without a zero: what it returns, and the bytes of `buf`. The `len + 2` that goes to
`calloc` is an `int`. -/
def rConsGrepLine (g : RConsGrep) (line : CStr) : Option (Int × CStr) :=
  if line.length + 2 > 2147483647 then none
  else if grepHit g line then
    if useTok g ∧ g.tokensUsed then
      match grepColumns g.tokens (strtokAll line) [] with
      | none => some (-1, line)
      | some out =>
        let outlen := out.length - 1
        if line.length < outlen then some (-1, line)
        else some (outlen, (out ++ List.replicate (line.length + 2 - out.length) '\x00').take line.length)
    else some (line.length, line)
  else some (0, line)

/-- A word stands in the line, at its beginning under `^` and at its end under `$`. -/
def Occurs (g : RConsGrep) (line w : CStr) : Prop :=
  ∃ pre post, line = pre ++ w ++ post ∧ (g.begin_ = true → pre = []) ∧ (g.end_ = true → post = [])

/-- All words with `&`, one of them without. -/
def Matches (g : RConsGrep) (line : CStr) : Prop :=
  if g.amp then ∀ w ∈ g.strings, Occurs g line w else ∃ w ∈ g.strings, Occurs g line w

/-- A line is kept, with a length that is not zero, if it matches, and under `!` if it does not. -/
def GrepsRight (g : RConsGrep) (line : CStr) : Prop :=
  ∃ ret buf, rConsGrepLine g line = some (ret, buf) ∧ (ret ≠ 0 ↔ if g.neg then ¬Matches g line else Matches g line)

/-- The first place where a word stands is one that the modifiers ask for. -/
def FirstFits (g : RConsGrep) (line w : CStr) : Prop :=
  ∃ p, strstr w line = some p ∧ (g.begin_ = true → p.length = line.length) ∧ (g.end_ = true → w.length = p.length)

/-- The first of the words that stand in the line. -/
def firstFound (g : RConsGrep) (line : CStr) : Option CStr := g.strings.find? (fun w => decide (w <:+: line))

/-- An empty line has no `!`. With `&`, without `!`, words that all stand in the line stand where they are asked for; with
both, they all stand in it, and not all where they are asked for. Without `&` what counts is the first word that stands in
the line: without `!` its first place is right if any word stands where it is asked for, and with `!` there is such a word, and
under `^` it is not the first word at its first place. -/
def GrepDomain (g : RConsGrep) (line : CStr) : Prop :=
  (line = [] → g.neg = false) ∧
  (line ≠ [] →
    if g.amp then
      if g.neg then (∀ w ∈ g.strings, w <:+: line) ∧ ¬∀ w ∈ g.strings, Occurs g line w
      else (∀ w ∈ g.strings, w <:+: line) → ∀ w ∈ g.strings, Occurs g line w
    else ∀ w, firstFound g line = some w →
      if g.neg then (∃ v ∈ g.strings, Occurs g line v) ∧ ¬(g.begin_ = true ∧ FirstFits g line w)
      else (∃ v ∈ g.strings, Occurs g line v) → FirstFits g line w)

section Words

variable {g : RConsGrep} {line w : CStr}

theorem Occurs.within (h : Occurs g line w) : w <:+: line := by
  obtain ⟨pre, post, rfl, -⟩ := h
  exact ⟨pre, post, rfl⟩

theorem FirstFits.occurs (h : FirstFits g line w) : Occurs g line w := by
  obtain ⟨p, hp, hbegin, hend⟩ := h
  obtain ⟨⟨pre, hpre⟩, ⟨post, hpost⟩⟩ := strstr_eq_some hp
  refine ⟨pre, post, by rw [List.append_assoc, hpost, hpre], fun hb => ?_, fun he => ?_⟩
  · have hlen := congrArg List.length hpre
    rw [List.length_append, ← hbegin hb] at hlen
    exact List.eq_nil_of_length_eq_zero (by omega)
  · have hlen := congrArg List.length hpost
    rw [List.length_append, ← hend he] at hlen
    exact List.eq_nil_of_length_eq_zero (by omega)

/-- With `&` the result is that all words stand in the line. -/
theorem grepWords_amp (hamp : g.amp = true) (ws : List CStr) (hit ampfail : Bool) :
    (grepWords g line ws hit ampfail).2 = (ampfail && ws.all (fun w => decide (w <:+: line))) := by
  induction ws generalizing hit ampfail with
  | nil => simp [grepWords]
  | cons w ws ih =>
    rw [grepWords]
    cases hp : strstr w line with
    | none =>
      have hnot := strstr_eq_none_iff.mp hp
      simp [ih, hnot]
    | some p =>
      have hin : w <:+: line := by
        by_contra h
        rw [strstr_eq_none_iff.mpr h] at hp
        cases hp
      simp [hamp, ih, hin]

/-- What the first word that stands in the line makes of `hit`. -/
def firstHit (g : RConsGrep) (line w : CStr) : Prop :=
  if g.begin_ then FirstFits g line w else g.neg = false ∧ FirstFits g line w

theorem grepWords_plain (hamp : g.amp = false) (ws : List CStr) (hit ampfail : Bool) :
    (grepWords g line ws hit ampfail).1 = true ↔
      match ws.find? (fun w => decide (w <:+: line)) with
      | none => hit = true
      | some w => firstHit g line w := by
  induction ws generalizing hit ampfail with
  | nil => rfl
  | cons w ws ih =>
    rw [grepWords]
    cases hp : strstr w line with
    | none =>
      have hnot := strstr_eq_none_iff.mp hp
      rw [List.find?_cons_of_neg (by simpa using hnot)]
      exact ih hit false
    | some p =>
      have hin : w <:+: line := by
        by_contra h
        rw [strstr_eq_none_iff.mpr h] at hp
        cases hp
      have hfits : FirstFits g line w ↔
          (g.begin_ = true → p.length = line.length) ∧ (g.end_ = true → w.length = p.length) := by
        constructor
        · rintro ⟨p', hp', h⟩
          rw [hp, Option.some.injEq] at hp'
          exact hp' ▸ h
        · exact fun h => ⟨p, hp, h⟩
      rw [List.find?_cons_of_pos (by simpa using hin)]
      simp only [hamp, Bool.false_eq_true, if_false, firstHit, hfits]
      cases g.begin_ <;> cases g.end_ <;> simp [and_comm]

/-- The result of the loops. -/
theorem grepHit_iff (hne : g.strings ≠ []) :
    grepHit g line = true ↔
      if g.amp then ∀ w ∈ g.strings, w <:+: line
      else match firstFound g line with
        | none => g.neg = true
        | some w => firstHit g line w := by
  rw [grepHit, if_pos (List.length_pos_iff.mpr hne)]
  cases hamp : g.amp with
  | true =>
    simp only [if_true]
    rw [grepWords_amp hamp]
    simp
  | false =>
    simp only [Bool.false_eq_true, if_false]
    exact grepWords_plain hamp g.strings g.neg false

/-- A line of which an `int` can count two more characters is kept if the words hit it. -/
theorem grepsRight_iff (hcolumns : g.tokensUsed = false) : GrepsRight g line ↔ line.length ≤ 2147483645 ∧
    (grepHit g line = true ∧ line ≠ [] ↔ if g.neg then ¬Matches g line else Matches g line) := by
  rw [GrepsRight, rConsGrepLine]
  by_cases hlong : line.length + 2 > 2147483647
  · rw [if_pos hlong]
    constructor
    · rintro ⟨ret, buf, hrun, -⟩
      exact nomatch hrun
    · rintro ⟨hlen, -⟩
      omega
  · rw [if_neg hlong, and_iff_right (show line.length ≤ 2147483645 by omega)]
    cases grepHit g line
    · simp
    · simp [hcolumns]

theorem not_occurs_nil (hw : w ≠ []) : ¬Occurs g [] w := fun h => hw (List.eq_nil_of_infix_nil h.within)

theorem firstFound_some (h : firstFound g line = some w) : w ∈ g.strings ∧ w <:+: line :=
  ⟨List.mem_of_find?_eq_some h, by simpa using List.find?_some h⟩

theorem firstFound_none (h : firstFound g line = none) : ¬∃ v ∈ g.strings, Occurs g line v := by
  rintro ⟨v, hv, hoccurs⟩
  have hnot := List.find?_eq_none.mp h v hv
  exact hnot (by simpa using hoccurs.within)

end Words

theorem grepHit_right_iff {g : RConsGrep} {line : CStr} (hne : g.strings ≠ []) (hwords : ∀ w ∈ g.strings, w ≠ []) :
    (grepHit g line = true ∧ line ≠ [] ↔ if g.neg then ¬Matches g line else Matches g line) ↔ GrepDomain g line := by
  rw [GrepDomain]
  by_cases hline : line = []
  · subst hline
    have hnone : ¬Matches g [] := by
      obtain ⟨w, ws, hstrings⟩ := List.exists_cons_of_ne_nil hne
      have hw : w ∈ g.strings := hstrings ▸ List.mem_cons_self
      unfold Matches
      split_ifs
      · exact fun h => not_occurs_nil (hwords w hw) (h w hw)
      · exact fun ⟨v, hv, h⟩ => not_occurs_nil (hwords v hv) h
    cases g.neg
    · simp [hnone]
    · simp [hnone]
  · have hall : (∀ w ∈ g.strings, Occurs g line w) → ∀ w ∈ g.strings, w <:+: line := fun h w hw => (h w hw).within
    have hkept (hit : Prop) : hit ∧ line ≠ [] ↔ hit := and_iff_left hline
    have hdomain (empty full : Prop) : (line = [] → empty) ∧ (line ≠ [] → full) ↔ full := by simp [hline]
    rw [hkept, hdomain, grepHit_iff hne, Matches]
    cases hamp : g.amp with
    | true =>
      simp only [if_true]
      cases g.neg
      · simp only [Bool.false_eq_true, if_false]
        exact ⟨fun h => h.mp, fun h => ⟨h, hall⟩⟩
      · simp only [if_true]
        generalize (∀ w ∈ g.strings, Occurs g line w) = whole at hall ⊢
        tauto
    | false =>
      simp only [Bool.false_eq_true, if_false]
      cases hfound : firstFound g line with
      | none =>
        have hno := firstFound_none hfound
        cases g.neg <;> simp [hno]
      | some w =>
        have hfits : FirstFits g line w → ∃ v ∈ g.strings, Occurs g line v :=
          fun h => ⟨w, (firstFound_some hfound).1, h.occurs⟩
        have hfirst (P : CStr → Prop) : (∀ v, some w = some v → P v) ↔ P w := by simp
        rw [hfirst]
        by_cases hsome : ∃ v ∈ g.strings, Occurs g line v
        · simp only [firstHit, hsome]
          cases g.neg <;> cases g.begin_ <;> simp
        · have hnot : ¬FirstFits g line w := fun h => hsome (hfits h)
          simp only [firstHit, hsome, hnot]
          cases g.neg <;> cases g.begin_ <;> simp

/-- The function keeps the lines that the modifiers ask for exactly in this domain. -/
theorem rConsGrepLine_iff (g : RConsGrep) (line : CStr) (hne : g.strings ≠ []) (hwords : ∀ w ∈ g.strings, w ≠ [])
    (hcolumns : g.tokensUsed = false) : GrepsRight g line ↔ line.length ≤ 2147483645 ∧ GrepDomain g line := by
  rw [grepsRight_iff hcolumns, grepHit_right_iff hne hwords]

/-- With `&` and `^` a line is kept that begins with both words. -/
theorem rConsGrepLine_iff_words :
    GrepsRight ⟨[['m', 'o', 'v'], ['m', 'o', 'v', ' ', 'e']], 2, 0, 0, 0, [], false, true, false, true, false, 0⟩
      ['m', 'o', 'v', ' ', 'e', 'a', 'x'] := by
  refine (rConsGrepLine_iff _ _ (by decide) (by decide) rfl).mpr ⟨by decide, fun _ => rfl, fun _ => ?_⟩
  rw [if_pos rfl, if_neg (by decide)]
  intro _ w hw
  simp only [List.mem_cons, List.not_mem_nil, or_false] at hw
  rcases hw with rfl | rfl
  · exact ⟨[], [' ', 'e', 'a', 'x'], rfl, fun _ => rfl, nofun⟩
  · exact ⟨[], ['a', 'x'], rfl, fun _ => rfl, nofun⟩

/-- The word stands at the end of the line, but not first: "$" drops a line that ends with the word. -/
theorem last_place_missed :
    ¬∀ g : RConsGrep, ∀ line : CStr, g.strings ≠ [] → (∀ w ∈ g.strings, w ≠ []) → g.tokensUsed = false → GrepsRight g line := by
  intro h
  obtain ⟨ret, buf, hrun, hright⟩ :=
    h ⟨[['a']], 2, 0, 0, 0, [], false, false, false, false, true, 0⟩ ['a', 'b', 'a'] (by decide) (by decide) rfl
  have hmatch : Matches ⟨[['a']], 2, 0, 0, 0, [], false, false, false, false, true, 0⟩ ['a', 'b', 'a'] :=
    ⟨['a'], List.mem_singleton_self _, ['a', 'b'], [], rfl, nofun, fun _ => rfl⟩
  have hdropped : rConsGrepLine ⟨[['a']], 2, 0, 0, 0, [], false, false, false, false, true, 0⟩ ['a', 'b', 'a'] =
      some (0, ['a', 'b', 'a']) := by decide
  rw [hdropped] at hrun
  obtain ⟨rfl, -⟩ := Prod.mk.inj (Option.some.inj hrun)
  exact absurd rfl (hright.mpr hmatch)

end Radare
