import Radare.Reg.ProfileCursor
import Radare.Reg.ProfileItems
import Radare.Reg.Arena

namespace Radare.Reg

open Framework

/-- What the parser makes of the words of a line. -/
def parseWords (reg : RReg) : List CStr → Except String RReg
  | [] => .ok reg
  | first :: tok =>
    if first.head? = some '=' then
      match parseAlias (first :: tok) with
      | some e => .error e
      | none => .ok reg
    else parseDef reg (first :: tok)

/-- The registers behind a line that another follows; a line that is refused ends the parser. -/
def takeLine (reg : RReg) (line : CStr) : Option RReg :=
  if Graphic (wordsFrom [] line) then (parseWords reg (wordsFrom [] line)).toOption else none

/-- A `#` begins one of the next `n` words. -/
def commentWithin : Nat → CStr → Bool
  | 0, _ => false
  | n + 1, line =>
    let l := line.dropWhile isBlank
    l.head? = some '#' || commentWithin n (l.drop ((l.take 127).takeWhile isGraph).length)

/-- The parser comes to the last line, and to a comment there. -/
def openComment : RReg → List CStr → Bool
  | _, [] => false
  | reg, line :: lines =>
    if lines = [] then commentWithin 9 line
    else
      match takeLine reg line with
      | none => false
      | some reg => openComment reg lines

section OneLine

variable {reg reg' : RReg} {line rest : CStr}

theorem parseWords_ok {ws : List CStr} (h : parseWords reg ws = .ok reg') : ws.length ≤ 6 := by
  cases ws with
  | nil => exact Nat.zero_le 6
  | cons first tok =>
    rw [parseWords] at h
    split_ifs at h with halias
    · cases hparse : parseAlias (first :: tok) with
      | none =>
        rw [parseAlias_none hparse]
        omega
      | some e =>
        rw [hparse] at h
        cases h
    · obtain ⟨hlen, -⟩ := parseDef_ok h
      omega

/-- What is done behind a line. -/
def behindLine (n : Nat) (p : CStr) (reg : RReg) : Option (Except String RReg) :=
  match p with
  | [] => some (.ok reg)
  | _ :: rest => parseLines n rest reg

theorem parseLines_succ (n : Nat) (p : CStr) (reg : RReg) :
    parseLines (n + 1) p reg =
      if p.head? = some '#' then (skipToEol p).bind (fun p => behindLine n p reg)
      else (lineWords 9 p []).bind (fun r =>
        match parseWords reg r.2 with
        | .error e => some (.error e)
        | .ok reg => behindLine n r.1 reg) := by
  rw [parseLines]
  split_ifs with hsharp
  · rfl
  · refine congrArg (Option.bind (lineWords 9 p [])) (funext fun r => ?_)
    cases r.2 with
    | nil => rfl
    | cons first tok =>
      show (if first.head? = some '=' then _ else _) = _
      rw [parseWords]
      split_ifs with halias
      · cases parseAlias (first :: tok) with
        | none => rfl
        | some e => rfl
      · cases parseDef reg (first :: tok) with
        | error e => rfl
        | ok reg' => rfl

theorem wordsFrom_sharp (h : line.head? = some '#') : wordsFrom [] line = [] := by
  cases line with
  | nil => rfl
  | cons c line =>
    cases h
    exact wordsFrom_comment line

/-- A line that another follows. -/
theorem parseLines_line {n : Nat} (hline : '\n' ∉ line) : parseLines (n + 1) (line ++ '\n' :: rest) reg = none ↔
    ∃ reg', takeLine reg line = some reg' ∧ parseLines n rest reg' = none := by
  have hhead : (line ++ '\n' :: rest).head? = some '#' ↔ line.head? = some '#' := by
    cases line with
    | nil => exact iff_of_false (fun h => by cases h) (fun h => by cases h)
    | cons c line => exact Iff.rfl
  rw [parseLines_succ, takeLine]
  by_cases hsharp : line.head? = some '#'
  · have hnone : Graphic [] := fun w hw => by cases hw
    rw [if_pos (hhead.mpr hsharp), skipToEol_found hline, wordsFrom_sharp hsharp, if_pos hnone]
    exact ⟨fun h => ⟨reg, rfl, h⟩, fun ⟨reg', hreg, h⟩ => by cases hreg; exact h⟩
  rw [if_neg (fun h => hsharp (hhead.mp h))]
  by_cases hfits : Graphic (wordsFrom [] line) ∧ (wordsFrom [] line).length ≤ 7
  · obtain ⟨hgraph, hlen⟩ := hfits
    rw [lineWords_taken hline (by simp) hgraph (by simpa using hlen), if_pos hgraph, List.nil_append, Option.bind_some]
    cases parseWords reg (wordsFrom [] line) with
    | error e => exact iff_of_false (by simp) (fun ⟨reg', hreg, _⟩ => by cases hreg)
    | ok reg' => exact ⟨fun h => ⟨reg', rfl, h⟩, fun ⟨reg'', hreg, h⟩ => by cases hreg; exact h⟩
  · have hmany : Graphic (wordsFrom [] line) → 8 ≤ (wordsFrom [] line).length := fun hgraph => by
      by_contra hlen
      exact hfits ⟨hgraph, by omega⟩
    obtain ⟨y, hy, hfull⟩ : ∃ y, lineWords 9 (line ++ '\n' :: rest) [] = some y ∧ 8 ≤ y.2.length :=
      lineWords_full hline (by simp) (fun hgraph => by simpa using hmany hgraph)
    rw [hy, Option.bind_some]
    refine iff_of_false ?_ ?_
    · cases hwords : parseWords reg y.2 with
      | error e => exact Option.some_ne_none _
      | ok reg' =>
        have hshort := parseWords_ok hwords
        omega
    · rintro ⟨reg', htake, -⟩
      split_ifs at htake with hgraph
      cases hwords : parseWords reg (wordsFrom [] line) with
      | error e =>
        rw [hwords] at htake
        cases htake
      | ok reg'' =>
        have hshort := parseWords_ok hwords
        have hlong := hmany hgraph
        omega

theorem commentWithin_nil (n : Nat) : commentWithin n [] = false := by
  induction n with
  | zero => rfl
  | succ n ih => exact ih

/-- The words of the last line; `n` is what is left of nine turns. -/
theorem lineWords_last {n : Nat} (tok : List CStr) (hline : '\n' ∉ line) (hn : n + tok.length = 9) (hroom : tok.length ≤ 8) :
    lineWords n line tok = none ↔ commentWithin n line = true := by
  induction n generalizing line tok with
  | zero => omega
  | succ n ih =>
    have hend : EndsLine [] := fun c hc => by cases hc
    have hblanks : line.dropWhile (fun c => c = ' ' ∨ c = '\t') = line.dropWhile isBlank := by
      rw [← List.append_nil line, dropBlanks hend, List.append_nil, List.append_nil]
    have hin : '\n' ∉ line.dropWhile isBlank := fun hmem => hline ((List.dropWhile_suffix _).mem hmem)
    rw [lineWords_succ, wordStart, hblanks, commentWithin]
    by_cases hnil : line = []
    · rw [if_pos hnil, hnil]
      exact iff_of_false (Option.some_ne_none _) (by simpa [commentWithin] using commentWithin_nil (n + 1))
    rw [if_neg hnil]
    generalize line.dropWhile isBlank = l at hin
    by_cases hsharp : l.head? = some '#'
    · rw [if_pos hsharp, skipToEol, if_neg hin]
      exact iff_of_true rfl (by simp [hsharp])
    · have heol : l.head? ≠ some '\n' := fun heq => hin (List.mem_of_mem_head? heq)
      rw [if_neg hsharp, Option.bind_some, if_neg heol]
      rw [decide_eq_false hsharp, Bool.false_or]
      by_cases hfull : 7 < tok.length
      · have hn : n = 0 := by omega
        rw [if_pos hfull, hn]
        exact iff_of_false (Option.some_ne_none _) Bool.false_ne_true
      · rw [if_neg hfull]
        exact ih _ (fun hmem => hin ((List.drop_suffix _ l).mem hmem))
          (by rw [List.length_append, List.length_singleton]; omega)
          (by rw [List.length_append, List.length_singleton]; omega)

theorem commentWithin_sharp (n : Nat) (h : line.head? = some '#') : commentWithin (n + 1) line = true := by
  cases line with
  | nil => cases h
  | cons c line =>
    cases h
    rfl

/-- The last line. -/
theorem parseLines_last {n : Nat} (hline : '\n' ∉ line) :
    parseLines (n + 1) line reg = none ↔ commentWithin 9 line = true := by
  rw [parseLines_succ]
  by_cases hsharp : line.head? = some '#'
  · rw [if_pos hsharp, skipToEol, if_neg hline]
    exact iff_of_true rfl (commentWithin_sharp 8 hsharp)
  rw [if_neg hsharp, ← lineWords_last [] hline rfl (Nat.zero_le 8)]
  cases hwords : lineWords 9 line [] with
  | none => exact iff_of_true rfl rfl
  | some y =>
    refine iff_of_false ?_ (Option.some_ne_none y)
    rw [Option.bind_some]
    cases hparse : parseWords reg y.2 with
    | error e => exact Option.some_ne_none _
    | ok reg' =>
      have hend : EndsLine [] := fun c hc => by cases hc
      have hshort := parseWords_ok hparse
      rw [← List.append_nil line] at hwords
      obtain ⟨hrest, -⟩ := lineWords_spec hline hend (by simp) hwords (by omega)
      show behindLine n y.1 reg' ≠ none
      rw [hrest]
      exact Option.some_ne_none _

end OneLine

theorem parseLines_none_iff {n : Nat} {p : CStr} (hn : p.length < n) (reg : RReg) :
    parseLines n p reg = none ↔ openComment reg (p.splitOn '\n') = true := by
  induction n generalizing p reg with
  | zero => omega
  | succ n ih =>
    obtain ⟨line, rest, rfl, hline, hrest⟩ := exists_line p
    cases rest with
    | nil =>
      rw [List.append_nil, parseLines_last hline, List.splitOn_eq_singleton hline, openComment, if_pos rfl]
    | cons c rest =>
      rw [List.length_append, List.length_cons] at hn
      rw [hrest c rfl, parseLines_line hline, List.splitOn_append_cons_self_of_not_mem hline, openComment,
        if_neg (List.splitOn_ne_nil _ _)]
      cases takeLine reg line with
      | none => exact iff_of_false (fun ⟨reg', hreg, _⟩ => by cases hreg) Bool.false_ne_true
      | some reg' =>
        refine Iff.trans ?_ (ih (by omega) reg')
        exact ⟨fun ⟨reg'', hreg, h⟩ => by cases hreg; exact h, fun h => ⟨reg', rfl, h⟩⟩

theorem rRegSetProfileString_none_iff (reg : RReg) (str : CStr) : rRegSetProfileString reg str = none ↔
    reg.regProfileStr ≠ some str ∧ openComment (purged reg str) (str.splitOn '\n') = true := by
  unfold rRegSetProfileString
  by_cases hsame : reg.regProfileStr = some str
  · rw [if_pos hsame]
    exact iff_of_false (Option.some_ne_none _) (fun h => h.1 hsame)
  · rw [if_neg hsame, ← parseLines_none_iff (Nat.lt_succ_self str.length) (purged reg str)]
    show (parseLines (str.length + 1) str (purged reg str)).bind _ = none ↔ _
    cases parseLines (str.length + 1) str (purged reg str) with
    | none => exact iff_of_true rfl ⟨hsame, rfl⟩
    | some r =>
      refine iff_of_false ?_ (fun h => Option.some_ne_none r h.2)
      cases r with
      | error e => exact Option.some_ne_none _
      | ok reg' => exact Option.some_ne_none _

/-- The cursor stays in the text, and the words in their arrays, unless the parser comes to a comment that no end of
a line ends. -/
theorem rRegSetProfileStringAt_iff (reg : RReg) {str tmp : CStr} (hstr : nul ∉ str) (htmp : tmp.length = 128) :
    (∃ r, rRegSetProfileStringAt reg str tmp = .ok r) ↔
      reg.regProfileStr = some str ∨ openComment (purged reg str) (str.splitOn '\n') = false := by
  rw [(rRegSetProfileStringAt_simulates reg hstr htmp).ok_iff, ne_eq, rRegSetProfileString_none_iff, not_and_or, not_not,
    Bool.not_eq_true]

/-- A text whose last line has no comment is no open one. -/
theorem openComment_of_last {lines : List CStr} {line : CStr} (hlast : lines.getLast? = some line)
    (hline : commentWithin 9 line = false) (reg : RReg) : openComment reg lines = false := by
  induction lines generalizing reg with
  | nil => rfl
  | cons first lines ih =>
    rw [openComment]
    cases lines with
    | nil =>
      rw [if_pos rfl]
      cases hlast
      exact hline
    | cons second lines =>
      rw [if_neg (List.cons_ne_nil second lines)]
      cases takeLine reg first with
      | none => rfl
      | some reg => exact ih hlast reg

theorem rRegSetProfileStringAt_iff_eax :
    ∃ r, rRegSetProfileStringAt rRegNew "# x86\ngpr eax .32 0 0\n".toList (List.replicate 128 nul) = .ok r := by
  have hlast : ("# x86\ngpr eax .32 0 0\n".toList.splitOn '\n').getLast? = some [] := by decide
  exact (rRegSetProfileStringAt_iff rRegNew (by decide) List.length_replicate).mpr (.inr (openComment_of_last hlast rfl _))

theorem profile_overrun : nul ∉ "# x86".toList ∧
    rRegSetProfileStringAt rRegNew "# x86".toList (List.replicate 128 nul) = .error .read :=
  ⟨by decide, rfl⟩

end Radare.Reg
