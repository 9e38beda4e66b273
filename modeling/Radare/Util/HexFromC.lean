import Mathlib.Data.List.TakeWhile
import Radare.Framework.CString
import Radare.Util.Num

namespace Radare

open Framework.CString

/-- `abc`. -/
def hexAbc : List Char :=
  ['0', '1', '2', '3', '4', '5', '6', '7', '8', '9', 'a', 'b', 'c', 'd', 'e', 'f', 'A', 'B', 'C', 'D', 'E', 'F']

/-- What `r_hex_from_c` does that it must not do. -/
inductive HexFail where
  | readPast
  | writePast
  deriving DecidableEq

/-- The locals of `r_hex_from_c`: the text from `code` on and the characters stored so far. -/
structure HexFromC where
  code : CStr
  parseOn : Bool
  parseMode : Char
  isHexa : Nat
  out : List Char

/-- How a round leaves the loop's body: for `code++`, by `break` or for the label `error`. -/
inductive HexStep where
  | next (s : HexFromC)
  | stop (s : HexFromC)
  | error

/-- Stores at `out`, which has `size` bytes from `ret` on. -/
def hexStore (size : Nat) (s : HexFromC) (cs : List Char) : Except HexFail HexFromC :=
  if s.out.length + cs.length ≤ size then .ok { s with out := s.out ++ cs } else .error .writePast

def isBlank (c : Char) : Bool := c = ' ' || c = '\t'

def isNumber (c : Char) : Bool := '0' ≤ c ∧ c ≤ '9'

/-- The scan behind an opening brace; at the end of the text it changes nothing else. -/
def braceScan (s : HexFromC) : HexFromC :=
  match s.code.dropWhile isBlank with
  | [] => { s with code := [] }
  | c :: rest =>
    if isNumber c then { s with code := c :: rest, parseOn := true }
    else { s with code := c :: rest, parseOn := false, parseMode := '\x00' }

section Body

variable (numMath : CStr → Ut64) (stray : Int → Char) (size : Nat)

/-- `abc[i]`; outside of the table anything may stand. -/
def hexAbcAt (i : Int) : Char := if i < 0 then stray i else hexAbc.getD i.toNat (stray i)

/-- A character as a number; `char` is signed. -/
def charValue (c : Char) : Int := (BitVec.ofNat 8 c.toNat).toInt

/-- The round between braces: the word up to the next comma or brace. -/
def hexWord (s : HexFromC) : Except HexFail HexStep :=
  match (strchr ',' s.code).or (strchr '\x7d' s.code) with
  | none => .ok (.next s)
  | some comma =>
    let word := s.code.take (s.code.length - comma.length)
    if (word.head?.map isNumber).getD false then do
      let n := (numMath word).setWidth 8
      let s ← hexStore size s [hexAbcAt stray ((n >>> 4) &&& 0xf).toNat, hexAbcAt stray (n &&& 0xf).toNat]
      .ok (.next { s with code := comma })
    else .ok (.next { s with code := comma, parseOn := false })

/-- The round within quotes at the character `c`. -/
def hexQuoted (s : HexFromC) (c : Char) (rest : CStr) : Except HexFail HexStep :=
  if c = '\\' then
    let s := { s with code := rest }
    match rest.head? with
    | some 'e' => (hexStore size s ['1', 'b']).map .next
    | some 'r' => (hexStore size s ['0', 'd']).map .next
    | some 'n' => (hexStore size s ['0', 'a']).map .next
    | some 'x' => .ok (.next { s with isHexa := s.isHexa + 1 })
    | _ => .ok .error
  else if s.isHexa ≠ 0 then
    if c ∈ hexAbc then do
      let s ← hexStore size s [c]
      .ok (.next { s with isHexa := if s.isHexa + 1 = 3 then 0 else s.isHexa + 1 })
    else .ok .error
  else
    (hexStore size s [hexAbcAt stray (charValue c >>> (4 : Nat)), hexAbcAt stray (charValue c % 16)]).map .next

/-- The last `if` of the body. -/
def hexBody (s : HexFromC) : Except HexFail HexStep :=
  if s.parseOn ∧ s.parseMode = '\x7b' then hexWord numMath stray size s
  else
    match s.code with
    | [] => .ok (.next s)
    | c :: rest =>
      if c = '"' then
        if rest.head? = some '\\' then .ok (.next { s with parseOn := true })
        else .ok (.next { s with parseOn := !s.parseOn, parseMode := c })
      else if s.parseOn then hexQuoted stray size s c rest
      else .ok (.next s)

/-- The body of the loop. -/
def hexRound (s : HexFromC) : Except HexFail HexStep :=
  if ['/', '*'] <+: s.code then
    match strstr ['*', '/'] s.code with
    | some close => .ok (.next { s with code := close.drop 1 })
    | none => .ok (.next s)
  else if ['/', '/'] <+: s.code then
    match strchr '\n' s.code with
    | some line => .ok (.next { s with code := line })
    | none => .ok (.next s)
  else if s.parseOn then
    if s.code.head? = some '\x7d' ∨ s.code.head? = some '"' then .ok (.stop { s with parseOn := false })
    else hexBody numMath stray size s
  else if s.code.head? = some '\x7b' then
    hexBody numMath stray size (braceScan { s with parseMode := '\x7b', code := s.code.tail })
  else hexBody numMath stray size s

/-- The loop; `none` in the result is the label `error`. -/
def hexFromCLoop : Nat → HexFromC → Option (Except HexFail (Option HexFromC))
  | 0, _ => none
  | fuel + 1, s =>
    match s.code with
    | [] => some (.ok (some s))
    | _ :: _ =>
      match hexRound numMath stray size s with
      | .error fail => some (.error fail)
      | .ok .error => some (.ok none)
      | .ok (.stop s) => some (.ok (some s))
      | .ok (.next s) =>
        match s.code with
        | [] => some (.error .readPast)
        | _ :: rest => hexFromCLoop fuel { s with code := rest }

end Body

/-- `r_hex_from_c`: the stored text with its zero, `none` for a null pointer. -/
def rHexFromC (numMath : CStr → Ut64) (stray : Int → Char) :
    Option CStr → Option (Except HexFail (Option (List Char)))
  | none => some (.ok (some ['\x00']))
  | some code =>
    let size := code.length * 3
    if size = 0 then some (.error .writePast)
    else
      match hexFromCLoop numMath stray size (code.length + 1) ⟨code, false, '\x00', 0, []⟩ with
      | none => none
      | some (.error fail) => some (.error fail)
      | some (.ok none) => some (.ok none)
      | some (.ok (some s)) => some ((hexStore size s ['\x00']).map (fun s => some s.out))

/-- Nothing but blanks stands behind an opening brace that is not within another text. -/
def HexFromC.AtOpenBrace (s : HexFromC) : Prop :=
  s.parseOn = false ∧ ∃ blanks, s.code = '\x7b' :: blanks ∧ ∀ c ∈ blanks, isBlank c

/-- A round comes to a later place of the text, with at most two characters stored for each one passed. -/
def HexStep.Fits (s : HexFromC) : HexStep → Prop
  | .next s' => s'.code ≠ [] ∧ s'.code <:+ s.code ∧
      s'.out.length + 2 * s'.code.length ≤ s.out.length + 2 * s.code.length + 2
  | .stop s' => s'.out = s.out
  | .error => True

section Round

variable {numMath : CStr → Ut64} {stray : Int → Char} {size : Nat} {s : HexFromC}

theorem hexStore_eq {cs : List Char} (h : s.out.length + cs.length ≤ size) :
    hexStore size s cs = .ok { s with out := s.out ++ cs } := if_pos h

theorem hexWord_fits (hne : s.code ≠ []) (hfit : s.out.length + 2 * s.code.length < size) :
    ∃ r, hexWord numMath stray size s = .ok r ∧ r.Fits s := by
  rw [hexWord]
  cases hcomma : (strchr ',' s.code).or (strchr '\x7d' s.code) with
  | none => exact ⟨_, rfl, hne, List.suffix_rfl, by omega⟩
  | some comma =>
    have hfound : comma <:+ s.code ∧ comma ≠ [] := by
      rcases Option.or_eq_some_iff.mp hcomma with h | ⟨-, h⟩ <;>
        obtain ⟨hsuffix, u, rfl⟩ := strchr_eq_some h <;> exact ⟨hsuffix, List.cons_ne_nil _ _⟩
    have hle := hfound.1.length_le
    simp only
    split_ifs with hnumber
    · have hpassed : comma.length < s.code.length := by
        by_contra hnot
        have hzero : s.code.length - comma.length = 0 := by omega
        rw [hzero] at hnumber
        simp at hnumber
      rw [hexStore_eq (by simp only [List.length_cons, List.length_nil]; omega)]
      refine ⟨_, rfl, hfound.2, hfound.1, ?_⟩
      simp only [List.length_append, List.length_cons, List.length_nil]
      omega
    · exact ⟨_, rfl, hfound.2, hfound.1, by simp only; omega⟩

theorem hexQuoted_fits {c : Char} {rest : CStr} (hcode : s.code = c :: rest)
    (hfit : s.out.length + 2 * s.code.length < size) :
    ∃ r, hexQuoted stray size s c rest = .ok r ∧ r.Fits s := by
  have hlen : s.code.length = rest.length + 1 := by rw [hcode, List.length_cons]
  have hsuffix : rest <:+ s.code := by
    rw [hcode]
    exact List.suffix_cons c rest
  have hne : s.code ≠ [] := by
    rw [hcode]
    exact List.cons_ne_nil _ _
  have hescape (x y : Char) (hrest : rest ≠ []) :
      ∃ r, (hexStore size { s with code := rest } [x, y]).map HexStep.next = .ok r ∧ r.Fits s := by
    rw [hexStore_eq (by simp only [List.length_cons, List.length_nil]; omega)]
    refine ⟨_, rfl, hrest, hsuffix, ?_⟩
    simp only [List.length_append, List.length_cons, List.length_nil]
    omega
  rw [hexQuoted]
  split_ifs with hslash hhexa hdigit
  · cases rest with
    | nil => exact ⟨_, rfl, trivial⟩
    | cons e rest =>
      simp only [List.head?_cons]
      split
      · exact hescape _ _ (List.cons_ne_nil _ _)
      · exact hescape _ _ (List.cons_ne_nil _ _)
      · exact hescape _ _ (List.cons_ne_nil _ _)
      · exact ⟨_, rfl, List.cons_ne_nil _ _, hsuffix, by simp only; omega⟩
      · exact ⟨_, rfl, trivial⟩
  · rw [hexStore_eq (by simp only [List.length_cons, List.length_nil]; omega)]
    refine ⟨_, rfl, hne, List.suffix_rfl, ?_⟩
    simp only [List.length_append, List.length_cons, List.length_nil]
    omega
  · exact ⟨_, rfl, trivial⟩
  · rw [hexStore_eq (by simp only [List.length_cons, List.length_nil]; omega)]
    refine ⟨_, rfl, hne, List.suffix_rfl, ?_⟩
    simp only [List.length_append, List.length_cons, List.length_nil]
    omega

theorem hexBody_fits (hne : s.code ≠ []) (hfit : s.out.length + 2 * s.code.length < size) :
    ∃ r, hexBody numMath stray size s = .ok r ∧ r.Fits s := by
  have hsame (t : HexFromC) (hcode : t.code = s.code) (hout : t.out = s.out) : (HexStep.next t).Fits s := by
    simp only [HexStep.Fits, hcode, hout]
    exact ⟨hne, List.suffix_rfl, by omega⟩
  obtain ⟨c, rest, hcode⟩ := List.exists_cons_of_ne_nil hne
  rw [hexBody]
  by_cases hword : s.parseOn = true ∧ s.parseMode = '\x7b'
  · rw [if_pos hword]
    exact hexWord_fits hne hfit
  · rw [if_neg hword, hcode]
    simp only
    split_ifs
    · exact ⟨_, rfl, hsame _ hcode.symm rfl⟩
    · exact ⟨_, rfl, hsame _ hcode.symm rfl⟩
    · exact hexQuoted_fits hcode hfit
    · exact ⟨_, rfl, hsame _ rfl rfl⟩

theorem HexStep.Fits.of_suffix {r : HexStep} {t : HexFromC} (h : r.Fits t) (hcode : t.code <:+ s.code)
    (hout : t.out = s.out) : r.Fits s := by
  have hle := hcode.length_le
  cases r with
  | next s' =>
    obtain ⟨hne, hsuffix, hbudget⟩ := h
    rw [hout] at hbudget
    exact ⟨hne, hsuffix.trans hcode, by omega⟩
  | stop s' => exact h.trans hout
  | error => trivial

/-- The scan behind a brace stops in the text, unless only blanks follow. -/
theorem braceScan_stops {rest : CStr} (hcode : s.code = '\x7b' :: rest) (hoff : s.parseOn = false)
    (hbrace : ¬s.AtOpenBrace) :
    (braceScan { s with parseMode := '\x7b', code := rest }).code ≠ [] ∧
      (braceScan { s with parseMode := '\x7b', code := rest }).code <:+ s.code ∧
      (braceScan { s with parseMode := '\x7b', code := rest }).out = s.out := by
  have hsuffix : rest.dropWhile isBlank <:+ s.code := by
    rw [hcode]
    exact (List.dropWhile_suffix isBlank).trans (List.suffix_cons _ _)
  rw [braceScan]
  cases hdrop : rest.dropWhile isBlank with
  | nil => exact absurd ⟨hoff, rest, hcode, List.dropWhile_eq_nil_iff.mp hdrop⟩ hbrace
  | cons c tail =>
    rw [hdrop] at hsuffix
    simp only
    split_ifs <;> exact ⟨List.cons_ne_nil _ _, hsuffix, rfl⟩

/-- Every round fits, unless it stands at a brace with nothing but blanks behind it. -/
theorem hexRound_fits (hne : s.code ≠ []) (hfit : s.out.length + 2 * s.code.length < size) (hbrace : ¬s.AtOpenBrace) :
    ∃ r, hexRound numMath stray size s = .ok r ∧ r.Fits s := by
  have hsame : (HexStep.next s).Fits s := ⟨hne, List.suffix_rfl, by omega⟩
  rw [hexRound]
  by_cases hcomment : ['/', '*'] <+: s.code
  · rw [if_pos hcomment]
    cases hclose : strstr ['*', '/'] s.code with
    | none => exact ⟨_, rfl, hsame⟩
    | some close =>
      obtain ⟨hsuffix, u, hu⟩ := strstr_eq_some hclose
      have hdrop : close.drop 1 = '/' :: u := by rw [← hu]; rfl
      have hpart := (List.drop_suffix 1 close).trans hsuffix
      have hle := hpart.length_le
      refine ⟨_, rfl, ?_, hpart, by simp only; omega⟩
      simp only [hdrop]
      exact List.cons_ne_nil _ _
  · rw [if_neg hcomment]
    by_cases hline : ['/', '/'] <+: s.code
    · rw [if_pos hline]
      cases hend : strchr '\n' s.code with
      | none => exact ⟨_, rfl, hsame⟩
      | some line =>
        obtain ⟨hsuffix, u, hu⟩ := strchr_eq_some hend
        have hle := hsuffix.length_le
        refine ⟨_, rfl, ?_, hsuffix, by simp only; omega⟩
        simp only [hu]
        exact List.cons_ne_nil _ _
    · rw [if_neg hline]
      by_cases hon : s.parseOn = true
      · rw [if_pos hon]
        split_ifs
        · exact ⟨_, rfl, rfl⟩
        · exact hexBody_fits hne hfit
      · rw [if_neg hon]
        split_ifs with hopen
        · obtain ⟨c, rest, hcode⟩ := List.exists_cons_of_ne_nil hne
          rw [hcode, List.head?_cons, Option.some.injEq] at hopen
          rw [hopen] at hcode
          obtain ⟨hstop, hsuffix, hout⟩ := braceScan_stops hcode (Bool.not_eq_true _ ▸ hon) hbrace
          have hle := hsuffix.length_le
          rw [hcode, List.tail_cons]
          obtain ⟨r, hr, hfits⟩ : ∃ r, hexBody numMath stray size _ = .ok r ∧ r.Fits _ :=
            hexBody_fits hstop (by rw [hout]; omega)
          exact ⟨r, hr, hfits.of_suffix hsuffix hout⟩
        · exact hexBody_fits hne hfit

/-- At such a brace the scan behind it ends at the terminator, which the round's end then passes. -/
theorem hexRound_brace (h : s.AtOpenBrace) :
    ∃ s', hexRound numMath stray size s = .ok (.next s') ∧ s'.code = [] := by
  obtain ⟨hoff, blanks, hcode, hblank⟩ := h
  have hdrop : blanks.dropWhile isBlank = [] := List.dropWhile_eq_nil_iff.mpr hblank
  refine ⟨{ s with parseMode := '\x7b', code := [] }, ?_, rfl⟩
  rw [hexRound, hcode, if_neg (by simp), if_neg (by simp), if_neg (by simp [hoff]), List.head?_cons,
    if_pos rfl, List.tail_cons, braceScan]
  simp only [hdrop]
  rw [hexBody, if_neg (by simp [hoff])]

/-- Behind such a brace no other round follows. -/
theorem hexRound_brace_last (h : s.AtOpenBrace) {s' : HexFromC} (hround : hexRound numMath stray size s = .ok (.next s'))
    {c : Char} {rest : CStr} (hcode : s'.code = c :: rest) : False := by
  obtain ⟨s'', hround', hnil⟩ : ∃ s'', hexRound numMath stray size s = .ok (.next s'') ∧ s''.code = [] :=
    hexRound_brace h
  rw [hround, Except.ok.injEq, HexStep.next.injEq] at hround'
  rw [hround', hnil] at hcode
  cases hcode

end Round

section Run

variable (numMath : CStr → Ut64) (stray : Int → Char)

/-- The states in which the loop's body begins. -/
inductive HexVisits (size : Nat) : HexFromC → HexFromC → Prop where
  | here (s : HexFromC) : HexVisits size s s
  | later {s s' t : HexFromC} {c : Char} {rest : CStr} :
    s.code ≠ [] → hexRound numMath stray size s = .ok (.next s') → s'.code = c :: rest →
      HexVisits size { s' with code := rest } t → HexVisits size s t

variable {numMath stray} {size fuel : Nat} {s : HexFromC}

/-- A round that goes on leaves less of the text and enough of the buffer. -/
theorem hexRound_room (hne : s.code ≠ []) (hfit : s.out.length + 2 * s.code.length < size) {s' : HexFromC}
    (hround : hexRound numMath stray size s = .ok (.next s')) {c : Char} {rest : CStr} (hcode : s'.code = c :: rest) :
    rest <:+ s.code ∧ rest.length < s.code.length ∧ s'.out.length + 2 * rest.length < size := by
  have hbrace : ¬s.AtOpenBrace := fun hbrace => hexRound_brace_last hbrace hround hcode
  obtain ⟨r, hround', hfits⟩ : ∃ r, hexRound numMath stray size s = .ok r ∧ r.Fits s := hexRound_fits hne hfit hbrace
  rw [hround, Except.ok.injEq] at hround'
  subst hround'
  obtain ⟨-, hsuffix, hbudget⟩ := hfits
  have hle := hsuffix.length_le
  rw [hcode, List.length_cons] at hbudget hle
  rw [hcode] at hsuffix
  exact ⟨(List.suffix_cons c rest).trans hsuffix, by omega, by omega⟩

theorem hexFromCLoop_next (fuel : Nat) (hne : s.code ≠ []) {s' : HexFromC} {c : Char} {rest : CStr}
    (hround : hexRound numMath stray size s = .ok (.next s')) (hcode : s'.code = c :: rest) :
    hexFromCLoop numMath stray size (fuel + 1) s = hexFromCLoop numMath stray size fuel { s' with code := rest } := by
  obtain ⟨c', rest', hcode'⟩ := List.exists_cons_of_ne_nil hne
  rw [hexFromCLoop, hcode', hround]
  simp only [hcode]

/-- The loop ends within the text and the buffer, if no visited state stands at an open brace. -/
theorem hexFromCLoop_ends (hfuel : s.code.length < fuel) (hfit : s.out.length + 2 * s.code.length < size)
    (hall : ∀ t, HexVisits numMath stray size s t → ¬t.AtOpenBrace) :
    ∃ r, hexFromCLoop numMath stray size fuel s = some (.ok r) ∧ ∀ s', r = some s' → s'.out.length < size := by
  induction fuel generalizing s with
  | zero => exact absurd hfuel (Nat.not_lt_zero _)
  | succ fuel ih =>
    cases hcode : s.code with
    | nil =>
      refine ⟨some s, by rw [hexFromCLoop, hcode], fun s' heq => ?_⟩
      rw [← Option.some.inj heq]
      omega
    | cons c rest =>
      have hne : s.code ≠ [] := by
        rw [hcode]
        exact List.cons_ne_nil _ _
      have hbrace : ¬s.AtOpenBrace := hall s (.here s)
      obtain ⟨r, hround, hfits⟩ : ∃ r, hexRound numMath stray size s = .ok r ∧ r.Fits s :=
        hexRound_fits hne hfit hbrace
      cases r with
      | error => exact ⟨none, by rw [hexFromCLoop, hcode, hround], fun s' heq => by cases heq⟩
      | stop s' =>
        have hout : s'.out = s.out := hfits
        refine ⟨some s', by rw [hexFromCLoop, hcode, hround], fun s'' heq => ?_⟩
        rw [← Option.some.inj heq, hout]
        omega
      | next s' =>
        obtain ⟨c', rest', hcode'⟩ := List.exists_cons_of_ne_nil hfits.1
        obtain ⟨-, hless, hroom⟩ := hexRound_room hne hfit hround hcode'
        rw [hexFromCLoop_next fuel hne hround hcode']
        apply ih
        · simp only
          omega
        · exact hroom
        · exact fun t hvisit => hall t (.later hne hround hcode' hvisit)

/-- From a state at an open brace on the loop passes the terminator. -/
theorem hexFromCLoop_readPast {t : HexFromC} (hvisit : HexVisits numMath stray size s t) (ht : t.AtOpenBrace)
    (hfuel : s.code.length < fuel) (hfit : s.out.length + 2 * s.code.length < size) :
    hexFromCLoop numMath stray size fuel s = some (.error .readPast) := by
  induction hvisit generalizing fuel with
  | here s =>
    obtain ⟨n, rfl⟩ := Nat.exists_eq_add_one_of_ne_zero (Nat.ne_zero_of_lt hfuel)
    obtain ⟨s', hround, hnil⟩ : ∃ s', hexRound numMath stray size s = .ok (.next s') ∧ s'.code = [] := hexRound_brace ht
    obtain ⟨-, blanks, hcode, -⟩ := ht
    rw [hexFromCLoop, hcode, hround]
    simp only [hnil]
  | @later s s' t c rest hne hround hcode _ ih =>
    obtain ⟨n, rfl⟩ := Nat.exists_eq_add_one_of_ne_zero (Nat.ne_zero_of_lt hfuel)
    obtain ⟨-, hless, hroom⟩ := hexRound_room hne hfit hround hcode
    rw [hexFromCLoop_next n hne hround hcode]
    apply ih ht
    · simp only
      omega
    · exact hroom

/-- The state in which `r_hex_from_c` comes to the loop. -/
def HexFromC.start (code : CStr) : HexFromC := ⟨code, false, '\x00', 0, []⟩

theorem rHexFromC_ok {code : CStr} (hne : code ≠ [])
    (h : ∀ t, HexVisits numMath stray (code.length * 3) (.start code) t → ¬t.AtOpenBrace) :
    ∃ r, rHexFromC numMath stray (some code) = some (.ok r) := by
  have hpos : 0 < code.length := List.length_pos_iff.mpr hne
  have hfit : (HexFromC.start code).out.length + 2 * code.length < code.length * 3 := by
    simp only [HexFromC.start, List.length_nil]
    omega
  obtain ⟨r, hr, hroom⟩ := hexFromCLoop_ends (Nat.lt_succ_self _) hfit h
  simp only [HexFromC.start] at hr
  rw [rHexFromC, if_neg (by omega), hr]
  cases r with
  | none => exact ⟨none, rfl⟩
  | some s =>
    have hlt := hroom s rfl
    simp only
    rw [hexStore_eq (by simp only [List.length_cons, List.length_nil]; omega)]
    exact ⟨_, rfl⟩

theorem rHexFromC_readPast {code : CStr} (hne : code ≠ [])
    (h : ∃ t, HexVisits numMath stray (code.length * 3) (.start code) t ∧ t.AtOpenBrace) :
    rHexFromC numMath stray (some code) = some (.error .readPast) := by
  have hpos : 0 < code.length := List.length_pos_iff.mpr hne
  have hfit : (HexFromC.start code).out.length + 2 * code.length < code.length * 3 := by
    simp only [HexFromC.start, List.length_nil]
    omega
  obtain ⟨t, hvisit, ht⟩ := h
  have hrun := hexFromCLoop_readPast hvisit ht (Nat.lt_succ_self _) hfit
  simp only [HexFromC.start] at hrun
  rw [rHexFromC, if_neg (by omega), hrun]

end Run

end Radare
