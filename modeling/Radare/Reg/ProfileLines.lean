import Radare.Reg.Reg
import Mathlib.Data.List.TakeWhile

namespace Radare.Reg

def isBlank (c : Char) : Bool := c = ' ' || c = '\t'

/-- What `parseLines` does behind the words of a line. -/
def afterLine (fuel : Nat) (p : CStr) (reg : RReg) : Option (Except String RReg) :=
  match p with
  | [] => some (.ok reg)
  | _ :: rest => parseLines fuel rest reg

/-- The words of a line, behind the beginning of one. A word has at most 127 characters, and a `#`
that begins a word ends the line. -/
def wordsFrom (word : CStr) : CStr → List CStr
  | [] => if word = [] then [] else [word]
  | c :: rest =>
    if isBlank c then (if word = [] then [] else [word]) ++ wordsFrom [] rest
    else if word ≠ [] ∧ word.length < 127 then wordsFrom (word ++ [c]) rest
    else (if word = [] then [] else [word]) ++ if c = '#' then [] else wordsFrom [c] rest

/-- A line that begins with `=` makes an alias. -/
def isDefinition : List CStr → Bool
  | [] => false
  | first :: _ => first.head? ≠ some '='

/-- The lines that define registers, by their words. -/
def definitionLines (str : CStr) : List (List CStr) :=
  ((str.splitOn '\n').map (wordsFrom [])).filter isDefinition

section Words

theorem wordsFrom_blank {c : Char} (h : isBlank c = true) (rest : CStr) :
    wordsFrom [] (c :: rest) = wordsFrom [] rest := by
  rw [wordsFrom, if_pos h, if_pos rfl, List.nil_append]

theorem wordsFrom_blanks (line : CStr) : wordsFrom [] (line.dropWhile isBlank) = wordsFrom [] line := by
  induction line with
  | nil => rfl
  | cons c rest ih =>
    by_cases h : isBlank c = true
    · rw [List.dropWhile_cons_of_pos h, ih, wordsFrom_blank h]
    · rw [List.dropWhile_cons_of_neg h]

theorem wordsFrom_start {c : Char} (h : isBlank c = false) (rest : CStr) :
    wordsFrom [] (c :: rest) = if c = '#' then [] else wordsFrom [c] rest := by
  rw [wordsFrom, if_neg (by simp [h]), if_neg (by simp), if_pos rfl, List.nil_append]

theorem wordsFrom_comment (rest : CStr) : wordsFrom [] ('#' :: rest) = [] := by
  rw [wordsFrom_start (by decide), if_pos rfl]

/-- The characters of a word are put behind each other. -/
theorem wordsFrom_append {word more : CStr} (hne : word ≠ []) (hlen : word.length + more.length ≤ 127)
    (hmore : ∀ c ∈ more, isBlank c = false) (line : CStr) :
    wordsFrom word (more ++ line) = wordsFrom (word ++ more) line := by
  induction more generalizing word with
  | nil => rw [List.nil_append, List.append_nil]
  | cons c more ih =>
    have hc := hmore c List.mem_cons_self
    rw [List.length_cons] at hlen
    rw [List.cons_append, wordsFrom, if_neg (by simp [hc]), if_pos ⟨hne, by omega⟩,
      ih (by simp) (by rw [List.length_append, List.length_singleton]; omega) (fun x hx => hmore x (List.mem_cons_of_mem c hx)),
      List.append_assoc]
    rfl

/-- A word ends where the line does, at a blank, or when it is full. -/
theorem wordsFrom_end {word line : CStr} (hne : word ≠ [])
    (hend : word.length = 127 ∨ ∀ c ∈ line.head?, isBlank c = true) :
    wordsFrom word line = word :: wordsFrom [] line := by
  cases line with
  | nil =>
    rw [wordsFrom, wordsFrom, if_neg hne, if_pos rfl]
  | cons c rest =>
    by_cases hc : isBlank c = true
    · rw [wordsFrom_blank hc, wordsFrom, if_pos hc, if_neg hne]
      rfl
    · have hfull : word.length = 127 := by
        rcases hend with hfull | hblank
        · exact hfull
        · exact absurd (hblank c rfl) hc
      rw [wordsFrom_start (by simpa using hc), wordsFrom, if_neg hc, if_neg (by omega), if_neg hne]
      rfl

/-- The first word of a line. -/
theorem wordsFrom_word {word line : CStr} (hne : word ≠ []) (hlen : word.length ≤ 127)
    (hword : ∀ c ∈ word, isBlank c = false) (hcomment : word.head? ≠ some '#')
    (hend : word.length = 127 ∨ ∀ c ∈ line.head?, isBlank c = true) :
    wordsFrom [] (word ++ line) = word :: wordsFrom [] line := by
  obtain ⟨c, cs, rfl⟩ := List.exists_cons_of_ne_nil hne
  have hc := hword c List.mem_cons_self
  have hsharp : c ≠ '#' := fun heq => hcomment (by rw [heq]; rfl)
  rw [List.length_cons] at hlen
  rw [List.cons_append, wordsFrom_start hc, if_neg hsharp,
    wordsFrom_append (by simp) (by rw [List.length_singleton]; omega) (fun x hx => hword x (List.mem_cons_of_mem c hx))]
  exact wordsFrom_end hne hend

end Words

section Lines

/-- The text behind a line. -/
def EndsLine (rest : CStr) : Prop := ∀ c ∈ rest.head?, c = '\n'

theorem exists_line (p : CStr) : ∃ line rest, p = line ++ rest ∧ '\n' ∉ line ∧ EndsLine rest := by
  induction p with
  | nil => exact ⟨[], [], rfl, by simp, by simp [EndsLine]⟩
  | cons c p ih =>
    by_cases hc : c = '\n'
    · exact ⟨[], c :: p, rfl, by simp, by simp [EndsLine, hc]⟩
    · obtain ⟨line, rest, hp, hline, hrest⟩ := ih
      refine ⟨c :: line, rest, by rw [hp]; rfl, ?_, hrest⟩
      rintro (_ | ⟨_, hmem⟩)
      · exact hc rfl
      · exact hline hmem

/-- The definitions behind the end of a line. -/
def definitionsBehind : CStr → List (List CStr)
  | [] => []
  | _ :: rest => definitionLines rest

theorem definitionLines_append {line rest : CStr} (hline : '\n' ∉ line) (hrest : EndsLine rest) :
    definitionLines (line ++ rest) = [wordsFrom [] line].filter isDefinition ++ definitionsBehind rest := by
  cases rest with
  | nil => rw [List.append_nil, definitionLines, List.splitOn_eq_singleton hline, definitionsBehind, List.append_nil,
      List.map_singleton]
  | cons c rest =>
    rw [hrest c rfl, definitionLines, List.splitOn_append_cons_self_of_not_mem hline, definitionsBehind, definitionLines,
      ← List.filter_append, List.map_cons, List.singleton_append]

end Lines

section Tokens

/-- The words that the parser takes from a line: blanks at the end of the text leave it an empty one. -/
def CutAs (line tok : List CStr) : Prop := tok = line ∨ tok = line ++ [[]]

/-- A word is cut where it is full, or where its characters end. -/
theorem exists_word (p : Char → Bool) (n : Nat) (l : CStr) : ∃ more, l = (l.take n).takeWhile p ++ more ∧
    (((l.take n).takeWhile p).length = n ∨ ∀ c ∈ more.head?, p c = false) := by
  induction n generalizing l with
  | zero => exact ⟨l, rfl, .inl rfl⟩
  | succ n ih =>
    cases l with
    | nil => exact ⟨[], rfl, .inr (by simp)⟩
    | cons c l =>
      rw [List.take_succ_cons]
      by_cases hc : p c = true
      · obtain ⟨more, hl, hend⟩ := ih l
        rw [List.takeWhile_cons_of_pos hc]
        refine ⟨more, by rw [List.cons_append, ← hl], ?_⟩
        rcases hend with hfull | hstop
        · exact .inl (by rw [List.length_cons, hfull])
        · exact .inr hstop
      · rw [List.takeWhile_cons_of_neg hc]
        refine ⟨c :: l, rfl, .inr ?_⟩
        intro x hx
        cases hx
        simpa using hc

variable {line rest : CStr}

theorem isBlank_of_isGraph {c : Char} (h : isGraph c = true) : isBlank c = false := by
  by_contra hblank
  rw [Bool.not_eq_false] at hblank
  rcases Bool.or_eq_true_iff.mp hblank with hc | hc
  · rw [of_decide_eq_true hc] at h
    exact absurd h (by decide)
  · rw [of_decide_eq_true hc] at h
    exact absurd h (by decide)

/-- The characters of a word that is begun. -/
theorem mem_wordsFrom {word : CStr} (hne : word ≠ []) (line : CStr) : ∃ w ∈ wordsFrom word line, ∀ c ∈ word, c ∈ w := by
  induction line generalizing word with
  | nil => exact ⟨word, by rw [wordsFrom, if_neg hne]; exact List.mem_singleton_self word, fun c hc => hc⟩
  | cons c line ih =>
    rw [wordsFrom]
    split_ifs with hblank hgo
    · exact ⟨word, by simp, fun c hc => hc⟩
    · obtain ⟨w, hw, hmem⟩ := ih (show word ++ [c] ≠ [] by simp)
      exact ⟨w, hw, fun x hx => hmem x (List.mem_append_left _ hx)⟩
    · exact ⟨word, by simp, fun c hc => hc⟩
    · exact ⟨word, by simp, fun c hc => hc⟩

/-- How a line begins behind its blanks. A character that belongs to no word stops the parser. -/
inductive FirstWord (l : CStr) : Prop where
  | blank (h : l = [])
  | comment (rest : CStr) (h : l = '#' :: rest)
  | word (word more : CStr) (h : l = word ++ more) (cut : (l.take 127).takeWhile isGraph = word)
    (sharp : l.head? ≠ some '#') (words : wordsFrom [] l = word :: wordsFrom [] more)
  | stray (word more : CStr) (x : Char) (h : l = word ++ x :: more) (cut : (l.take 127).takeWhile isGraph = word)
    (sharp : l.head? ≠ some '#') (graph : isGraph x = false) (blank : isBlank x = false)
    (words : ∃ w ∈ wordsFrom [] l, x ∈ w)

theorem firstWord_cases (line : CStr) : FirstWord (line.dropWhile isBlank) := by
  have hfirst := List.head?_dropWhile_not isBlank line
  generalize line.dropWhile isBlank = l at hfirst
  cases l with
  | nil => exact .blank rfl
  | cons c l =>
    by_cases hsharp : c = '#'
    · exact .comment l (by rw [hsharp])
    have hblank : isBlank c = false := by simpa using hfirst
    have hhead : (c :: l).head? ≠ some '#' := by simpa using hsharp
    obtain ⟨more, hl, hend⟩ := exists_word isGraph 127 (c :: l)
    have hgraph : ∀ x ∈ ((c :: l).take 127).takeWhile isGraph, isGraph x = true := fun x hx => List.mem_takeWhile_imp hx
    have hshort : (((c :: l).take 127).takeWhile isGraph).length ≤ 127 :=
      (List.takeWhile_prefix _).length_le.trans (List.length_take_le _ _)
    generalize hcut : ((c :: l).take 127).takeWhile isGraph = word at hl hend hgraph hshort
    have hword : ∀ x ∈ word, isBlank x = false := fun x hx => isBlank_of_isGraph (hgraph x hx)
    have hcomment : word.head? ≠ some '#' := by
      intro heq
      cases word with
      | nil => cases heq
      | cons d word =>
        cases heq
        exact hsharp (List.cons.inj hl).1
    by_cases hfull : word.length = 127 ∨ ∀ x ∈ more.head?, isBlank x = true
    · have hne : word ≠ [] := by
        intro hnil
        rw [hnil, List.nil_append] at hl
        rw [hnil, ← hl] at hfull
        rcases hfull with hfull | hnext
        · cases hfull
        · exact absurd (hnext c rfl) (by simp [hblank])
      exact .word word more hl hcut hhead (by rw [hl]; exact wordsFrom_word hne hshort hword hcomment hfull)
    · rw [not_or] at hfull
      obtain ⟨hroom, hnext⟩ := hfull
      have hstop := hend.resolve_left hroom
      cases more with
      | nil => exact absurd (by simp) hnext
      | cons x more =>
        have hx : isBlank x = false := by simpa using hnext
        refine .stray word more x hl hcut hhead (hstop x rfl) hx ?_
        rw [hl]
        cases word with
        | nil =>
          rw [List.nil_append, wordsFrom_start hx, if_neg (fun heq => hsharp ((List.cons.inj hl).1.trans heq))]
          obtain ⟨w, hw, hmem⟩ := mem_wordsFrom (List.cons_ne_nil x []) more
          exact ⟨w, hw, hmem x List.mem_cons_self⟩
        | cons d word =>
          have hd : d ≠ '#' := fun heq => hcomment (by rw [heq]; rfl)
          rw [List.length_cons] at hshort hroom
          rw [List.cons_append, wordsFrom_start (hword d List.mem_cons_self), if_neg hd,
            wordsFrom_append (by simp) (by rw [List.length_singleton]; omega)
              (fun y hy => hword y (List.mem_cons_of_mem d hy)),
            wordsFrom, if_neg (by simp [hx]), if_pos ⟨by simp, by simp; omega⟩]
          obtain ⟨w, hw, hmem⟩ := mem_wordsFrom (show [d] ++ word ++ [x] ≠ [] by simp) more
          exact ⟨w, hw, hmem x (by simp)⟩

theorem dropBlanks (hrest : EndsLine rest) :
    (line ++ rest).dropWhile (fun c => c = ' ' ∨ c = '\t') = line.dropWhile isBlank ++ rest := by
  have hblank : (fun c : Char => decide (c = ' ' ∨ c = '\t')) = isBlank := by
    funext c
    simp [isBlank]
  rw [hblank]
  induction line with
  | nil =>
    cases rest with
    | nil => rfl
    | cons c rest =>
      rw [hrest c rfl]
      rfl
  | cons c line ih =>
    by_cases hc : isBlank c = true
    · rw [List.cons_append, List.dropWhile_cons_of_pos hc, List.dropWhile_cons_of_pos hc, ih]
    · rw [List.cons_append, List.dropWhile_cons_of_neg hc, List.dropWhile_cons_of_neg hc, List.cons_append]

theorem word_in_line (hrest : EndsLine rest) :
    ((line ++ rest).take 127).takeWhile isGraph = (line.take 127).takeWhile isGraph := by
  have hstop : ∀ n, (rest.take n).takeWhile isGraph = [] := by
    intro n
    cases rest with
    | nil => simp
    | cons c rest =>
      rw [hrest c rfl]
      cases n with
      | zero => rfl
      | succ n => rfl
  rw [List.take_append, List.takeWhile_append, hstop]
  split_ifs with hall
  · rw [List.append_nil]
    exact ((List.takeWhile_prefix _).eq_of_length hall).symm
  · rfl

theorem skipToEol_line (hline : '\n' ∉ line) (hrest : EndsLine rest) {q : CStr} (h : skipToEol (line ++ rest) = some q) :
    q = rest ∧ q.head? = some '\n' := by
  unfold skipToEol at h
  split_ifs at h with hmem
  cases h
  have hdrop : (line ++ rest).dropWhile (· ≠ '\n') = rest.dropWhile (· ≠ '\n') := by
    refine List.dropWhile_append_of_pos (fun c hc => ?_)
    exact decide_eq_true (fun heq => hline (heq ▸ hc))
  cases rest with
  | nil =>
    rw [List.append_nil] at hmem
    exact absurd hmem hline
  | cons c rest =>
    rw [hdrop, hrest c rfl]
    exact ⟨rfl, rfl⟩

theorem lineWords_nil (fuel : Nat) (tok : List CStr) : lineWords fuel [] tok = some ([], tok) := by
  cases fuel with
  | zero => rfl
  | succ fuel => rfl

/-- Where the next word of a line begins, if there is one; a comment takes what is left of the line. -/
def wordStart (s : CStr) : Option CStr :=
  if (s.dropWhile (fun c => c = ' ' ∨ c = '\t')).head? = some '#' then
    skipToEol (s.dropWhile (fun c => c = ' ' ∨ c = '\t'))
  else some (s.dropWhile (fun c => c = ' ' ∨ c = '\t'))

theorem lineWords_succ (m : Nat) (s : CStr) (tok : List CStr) :
    lineWords (m + 1) s tok =
      if s = [] then some (s, tok)
      else (wordStart s).bind (fun l =>
        if l.head? = some '\n' then some (l, tok)
        else if 7 < tok.length then some (l.drop ((l.take 127).takeWhile isGraph).length, tok)
        else lineWords m (l.drop ((l.take 127).takeWhile isGraph).length) (tok ++ [(l.take 127).takeWhile isGraph])) := by
  rw [lineWords, wordStart]
  by_cases hend : s = []
  · rw [if_pos hend, if_pos hend]
  · rw [if_neg hend, if_neg hend]
    by_cases hsharp : (s.dropWhile (fun c => c = ' ' ∨ c = '\t')).head? = some '#'
    · rw [if_pos hsharp, if_pos hsharp]
      rfl
    · rw [if_neg hsharp, if_neg hsharp]
      rfl

theorem skipToEol_found (hline : '\n' ∉ line) : skipToEol (line ++ '\n' :: rest) = some ('\n' :: rest) := by
  have hfound : '\n' ∈ line ++ '\n' :: rest := List.mem_append_right line List.mem_cons_self
  have hclean : ∀ c ∈ line, decide (c ≠ '\n') = true := fun c hc => decide_eq_true (fun heq => hline (heq ▸ hc))
  rw [skipToEol, if_pos hfound, List.dropWhile_append_of_pos hclean]
  rfl

/-- Nothing but a comment is left of the line. -/
theorem lineWords_comment {fuel : Nat} {tok : List CStr} (hline : '\n' ∉ line)
    (hl : line.dropWhile isBlank = [] ∨ (line.dropWhile isBlank).head? = some '#') :
    lineWords (fuel + 1) (line ++ '\n' :: rest) tok = some ('\n' :: rest, tok) := by
  have hrest : EndsLine ('\n' :: rest) := fun c hc => by cases hc; rfl
  have hin : '\n' ∉ line.dropWhile isBlank := fun hmem => hline ((List.dropWhile_suffix _).mem hmem)
  rw [lineWords_succ, if_neg (by simp), wordStart, dropBlanks hrest]
  generalize line.dropWhile isBlank = l at hl hin
  cases l with
  | nil => rfl
  | cons c l =>
    have hc : c = '#' := Option.some.inj (hl.resolve_left (List.cons_ne_nil c l))
    rw [if_pos (by rw [hc]; rfl), skipToEol_found hin]
    rfl

/-- A comment at the end of the text has no end. -/
theorem lineWords_open {fuel : Nat} {tok : List CStr} (hline : '\n' ∉ line)
    (hl : (line.dropWhile isBlank).head? = some '#') : lineWords (fuel + 1) (line ++ []) tok = none := by
  have hne : line ++ [] ≠ [] := by
    intro hnil
    rw [List.append_nil] at hnil
    rw [hnil] at hl
    cases hl
  have hin : '\n' ∉ line.dropWhile isBlank := fun hmem => hline ((List.dropWhile_suffix _).mem hmem)
  rw [lineWords_succ, if_neg hne, wordStart, dropBlanks (fun c hc => by cases hc), List.append_nil, if_pos hl, skipToEol,
    if_neg hin]
  rfl

/-- The next word of a line, where one can begin. -/
theorem lineWords_word {fuel : Nat} {p q : CStr} {tok : List CStr} (hne : p ≠ [])
    (hq : p.dropWhile (fun c => c = ' ' ∨ c = '\t') = q) (hsharp : q.head? ≠ some '#') (heol : q.head? ≠ some '\n') :
    lineWords (fuel + 1) p tok =
      if 7 < tok.length then some (q.drop ((q.take 127).takeWhile isGraph).length, tok)
      else lineWords fuel (q.drop ((q.take 127).takeWhile isGraph).length) (tok ++ [(q.take 127).takeWhile isGraph]) := by
  rw [lineWords, if_neg hne]
  simp only [hq, if_neg hsharp, Option.bind_eq_bind, Option.bind_some, if_neg heol]

theorem lineWords_first {fuel : Nat} {tok : List CStr} {word : CStr} (hline : '\n' ∉ line) (hrest : EndsLine rest)
    (hl : line.dropWhile isBlank ≠ []) (hsharp : (line.dropWhile isBlank).head? ≠ some '#')
    (hcut : ((line.dropWhile isBlank).take 127).takeWhile isGraph = word) :
    lineWords (fuel + 1) (line ++ rest) tok =
      if 7 < tok.length then some ((line.dropWhile isBlank).drop word.length ++ rest, tok)
      else lineWords fuel ((line.dropWhile isBlank).drop word.length ++ rest) (tok ++ [word]) := by
  have hne : line ++ rest ≠ [] := fun heq => hl (by rw [(List.append_eq_nil_iff.mp heq).1]; rfl)
  have hin : '\n' ∉ line.dropWhile isBlank := fun hmem => hline ((List.dropWhile_suffix _).mem hmem)
  have hword : ((line.dropWhile isBlank ++ rest).take 127).takeWhile isGraph =
      ((line.dropWhile isBlank).take 127).takeWhile isGraph := word_in_line hrest
  have hshort : word.length ≤ (line.dropWhile isBlank).length := by
    rw [← hcut]
    exact (List.takeWhile_prefix _).length_le.trans (List.length_take_le' _ _)
  have hhead : (line.dropWhile isBlank ++ rest).head? = (line.dropWhile isBlank).head? := by
    rw [List.head?_append_of_ne_nil _ hl]
  have heol : (line.dropWhile isBlank).head? ≠ some '\n' := fun heq => hin (List.mem_of_mem_head? heq)
  rw [lineWords_word hne (dropBlanks hrest) (by rw [hhead]; exact hsharp) (by rw [hhead]; exact heol), hword, hcut,
    List.drop_append_of_le_length hshort]

/-- A character that is none of a word fills the table of words. -/
theorem lineWords_stuck {fuel : Nat} {c : Char} {q : CStr} {tok : List CStr} (hgraph : isGraph c = false)
    (hblank : isBlank c = false) (heol : c ≠ '\n') (hfuel : 9 ≤ tok.length + fuel) :
    ∃ y, lineWords fuel (c :: q) tok = some y ∧ 8 ≤ y.2.length := by
  induction fuel generalizing tok with
  | zero => exact ⟨(c :: q, tok), rfl, by show 8 ≤ tok.length; omega⟩
  | succ fuel ih =>
    have hq : (c :: q).dropWhile (fun c => c = ' ' ∨ c = '\t') = c :: q :=
      List.dropWhile_cons_of_neg (by simpa [isBlank] using hblank)
    have hsharp : (c :: q).head? ≠ some '#' := by
      intro heq
      cases heq
      exact absurd hgraph (by decide)
    have hword : ((c :: q).take 127).takeWhile isGraph = [] := List.takeWhile_cons_of_neg (by simp [hgraph])
    rw [lineWords_word (List.cons_ne_nil c q) hq hsharp (by simpa using heol), hword]
    split_ifs with hroom
    · exact ⟨_, rfl, by show 8 ≤ tok.length; omega⟩
    · exact ih (by rw [List.length_append, List.length_singleton]; omega)

/-- A line that does not fill the table is read to its end. -/
theorem lineWords_spec {fuel : Nat} {p' : CStr} {tok tok' : List CStr} (hline : '\n' ∉ line) (hrest : EndsLine rest)
    (hfuel : 9 ≤ tok.length + fuel) (h : lineWords fuel (line ++ rest) tok = some (p', tok')) (hlen : tok'.length ≤ 7) :
    p' = rest ∧ ∃ ws, tok' = tok ++ ws ∧ CutAs (wordsFrom [] line) ws := by
  induction fuel generalizing line tok with
  | zero =>
    cases h
    omega
  | succ fuel ih =>
    have hin : '\n' ∉ line.dropWhile isBlank := fun hmem => hline ((List.dropWhile_suffix _).mem hmem)
    rw [← wordsFrom_blanks]
    cases firstWord_cases line with
    | blank hl =>
      rw [hl]
      cases rest with
      | nil =>
        -- blanks end the text, and the parser takes an empty word
        rw [List.append_nil] at h
        by_cases hne : line = []
        · rw [hne, lineWords_nil] at h
          cases h
          exact ⟨rfl, [], (List.append_nil _).symm, .inl rfl⟩
        · have hq : (line ++ []).dropWhile (fun c => c = ' ' ∨ c = '\t') = line.dropWhile isBlank ++ [] := dropBlanks hrest
          rw [List.append_nil, hl, List.append_nil] at hq
          rw [lineWords_word hne hq (by simp) (by simp)] at h
          split_ifs at h with hroom
          · cases h
            omega
          · rw [List.take_nil, List.takeWhile_nil, List.drop_nil, lineWords_nil] at h
            cases h
            exact ⟨rfl, [[]], rfl, .inr rfl⟩
      | cons d rest =>
        rw [hrest d rfl, lineWords_comment hline (.inl hl)] at h
        cases h
        rw [hrest d rfl]
        exact ⟨rfl, [], (List.append_nil _).symm, .inl rfl⟩
    | comment l hl =>
      rw [hl, wordsFrom_comment]
      have hhead : (line.dropWhile isBlank).head? = some '#' := by rw [hl]; rfl
      cases rest with
      | nil =>
        rw [lineWords_open hline hhead] at h
        cases h
      | cons d rest =>
        rw [hrest d rfl, lineWords_comment hline (.inr hhead)] at h
        cases h
        rw [hrest d rfl]
        exact ⟨rfl, [], (List.append_nil _).symm, .inl rfl⟩
    | word word more hl hcut hsharp hwords =>
      have hne : line.dropWhile isBlank ≠ [] := by
        intro hnil
        rw [hnil] at hwords
        cases hwords
      rw [lineWords_first hline hrest hne hsharp hcut, hl, List.drop_left] at h
      rw [hwords]
      split_ifs at h with hroom
      · cases h
        omega
      have hmore : '\n' ∉ more := fun hmem => hin (by rw [hl]; exact List.mem_append_right _ hmem)
      obtain ⟨hp', ws, hws, hcutAs⟩ := ih hmore (by rw [List.length_append, List.length_singleton]; omega) h
      refine ⟨hp', word :: ws, by rw [hws, List.append_assoc, List.singleton_append], ?_⟩
      rcases hcutAs with heq | heq
      · exact .inl (by rw [heq])
      · exact .inr (by rw [heq, List.cons_append])
    | stray word more x hl hcut hsharp hgraph hblank hwords =>
      rw [lineWords_first hline hrest (by rw [hl]; simp) hsharp hcut, hl, List.drop_left] at h
      have hx : x ≠ '\n' := fun heq => hin (by rw [hl, heq]; simp)
      split_ifs at h with hroom
      · cases h
        omega
      · have hturns : 9 ≤ (tok ++ [word]).length + fuel := by
          rw [List.length_append, List.length_singleton]
          omega
        obtain ⟨y, hy, hfull⟩ := lineWords_stuck hgraph hblank hx hturns
        rw [List.cons_append] at h
        rw [h] at hy
        cases hy
        exact absurd hfull (by show ¬8 ≤ tok'.length; omega)

/-- Words of characters that can be printed. -/
def Graphic (ws : List CStr) : Prop := ∀ w ∈ ws, ∀ c ∈ w, isGraph c = true

instance (ws : List CStr) : Decidable (Graphic ws) := inferInstanceAs (Decidable (∀ w ∈ ws, ∀ c ∈ w, isGraph c = true))

/-- A line that fits into the table, with another behind it. -/
theorem lineWords_taken {fuel : Nat} {tok : List CStr} (hline : '\n' ∉ line) (hfuel : 9 ≤ tok.length + fuel)
    (hgraph : Graphic (wordsFrom [] line)) (hlen : tok.length + (wordsFrom [] line).length ≤ 7) :
    lineWords fuel (line ++ '\n' :: rest) tok = some ('\n' :: rest, tok ++ wordsFrom [] line) := by
  induction fuel generalizing line tok with
  | zero => omega
  | succ fuel ih =>
    have hrest : EndsLine ('\n' :: rest) := fun c hc => by cases hc; rfl
    have hin : '\n' ∉ line.dropWhile isBlank := fun hmem => hline ((List.dropWhile_suffix _).mem hmem)
    rw [← wordsFrom_blanks] at hgraph hlen ⊢
    cases firstWord_cases line with
    | blank hl =>
      rw [lineWords_comment hline (.inl hl), hl]
      exact congrArg (fun ws => some ('\n' :: rest, ws)) (List.append_nil tok).symm
    | comment l hl =>
      rw [lineWords_comment hline (.inr (by rw [hl]; rfl)), hl, wordsFrom_comment, List.append_nil]
    | word word more hl hcut hsharp hwords =>
      have hne : line.dropWhile isBlank ≠ [] := by
        intro hnil
        rw [hnil] at hwords
        cases hwords
      have hmore : '\n' ∉ more := fun hmem => hin (by rw [hl]; exact List.mem_append_right _ hmem)
      rw [hwords, List.length_cons] at hlen
      rw [hwords] at hgraph
      rw [lineWords_first hline hrest hne hsharp hcut, if_neg (by omega), hwords, hl, List.drop_left,
        ih hmore (by rw [List.length_append, List.length_singleton]; omega)
          (fun w hw => hgraph w (List.mem_cons_of_mem word hw))
          (by rw [List.length_append, List.length_singleton]; omega), List.append_assoc, List.singleton_append]
    | stray word more x hl hcut hsharp hstray hblank hwords =>
      obtain ⟨w, hw, hx⟩ := hwords
      exact absurd (hgraph w hw x hx) (by simp [hstray])

/-- A line that does not. -/
theorem lineWords_full {fuel : Nat} {tok : List CStr} (hline : '\n' ∉ line) (hfuel : 9 ≤ tok.length + fuel)
    (hfull : Graphic (wordsFrom [] line) → 8 ≤ tok.length + (wordsFrom [] line).length) :
    ∃ y, lineWords fuel (line ++ '\n' :: rest) tok = some y ∧ 8 ≤ y.2.length := by
  induction fuel generalizing line tok with
  | zero => exact ⟨_, rfl, by show 8 ≤ tok.length; omega⟩
  | succ fuel ih =>
    have hrest : EndsLine ('\n' :: rest) := fun c hc => by cases hc; rfl
    have hin : '\n' ∉ line.dropWhile isBlank := fun hmem => hline ((List.dropWhile_suffix _).mem hmem)
    have hnone : ∀ w ∈ ([] : List CStr), ∀ c ∈ w, isGraph c = true := fun w hw => by cases hw
    rw [← wordsFrom_blanks] at hfull
    cases firstWord_cases line with
    | blank hl =>
      rw [hl] at hfull
      exact ⟨_, lineWords_comment hline (.inl hl), hfull hnone⟩
    | comment l hl =>
      rw [hl, wordsFrom_comment] at hfull
      exact ⟨_, lineWords_comment hline (.inr (by rw [hl]; rfl)), hfull hnone⟩
    | word word more hl hcut hsharp hwords =>
      have hne : line.dropWhile isBlank ≠ [] := by
        intro hnil
        rw [hnil] at hwords
        cases hwords
      have hmore : '\n' ∉ more := fun hmem => hin (by rw [hl]; exact List.mem_append_right _ hmem)
      have hword : ∀ c ∈ word, isGraph c = true := by
        intro c hc
        rw [← hcut] at hc
        exact List.mem_takeWhile_imp hc
      rw [lineWords_first hline hrest hne hsharp hcut, hl, List.drop_left]
      rw [hwords, List.length_cons] at hfull
      split_ifs with hroom
      · exact ⟨_, rfl, hroom⟩
      · refine ih hmore (by rw [List.length_append, List.length_singleton]; omega) (fun hgraph => ?_)
        have hall : Graphic (word :: wordsFrom [] more) := by
          rintro w (_ | ⟨_, hw⟩)
          · exact hword
          · exact hgraph w hw
        have hsize := hfull hall
        rw [List.length_append, List.length_singleton]
        omega
    | stray word more x hl hcut hsharp hstray hblank hwords =>
      have hx : x ≠ '\n' := fun heq => hin (by rw [hl, heq]; simp)
      rw [lineWords_first hline hrest (by rw [hl]; simp) hsharp hcut, hl, List.drop_left]
      split_ifs with hroom
      · exact ⟨_, rfl, hroom⟩
      · exact lineWords_stuck hstray hblank hx (by rw [List.length_append, List.length_singleton]; omega)

end Tokens

end Radare.Reg
