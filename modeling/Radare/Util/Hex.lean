import Mathlib.Logic.Function.Basic
import Radare.Framework.CString
import Radare.Util.Num

namespace Radare

open Framework.CString

/-- `r_hex_to_byte`: `*val` after a digit, `none` when it returns 1. -/
def rHexToByte (val : Ut8) (c : Char) : Option Ut8 :=
  if '0' ≤ c ∧ c ≤ '9' then some (val * 16 + BitVec.ofNat 8 (c.toNat - '0'.toNat))
  else if 'A' ≤ c ∧ c ≤ 'F' then some (val * 16 + BitVec.ofNat 8 (c.toNat - 'A'.toNat + 10))
  else if 'a' ≤ c ∧ c ≤ 'f' then some (val * 16 + BitVec.ofNat 8 (c.toNat - 'a'.toNat + 10))
  else none

/-- `r_hex_bin2str`: the returned number and what it writes to `out`; its `int` index moves on by two
with every byte. -/
def rHexBin2str (bin : List Ut8) (len : Int) : Option (Int × List Char) :=
  if len < 0 then some (0, [])
  else if 2 * len > 2147483647 then none
  else if len.toNat ≤ bin.length then some (len, (bin.take len.toNat).flatMap (printByte false) ++ ['\x00'])
  else none

/-- `r_hex_to_byte (out ? &out[i] : &tmp, c)`; a null `out` is `none`. -/
def storeDigit (out : Option (Nat → Ut8)) (i : Nat) (c : Char) : Option (Option (Nat → Ut8)) :=
  match out with
  | some m => (rHexToByte (m i) c).map (fun v => some (Function.update m i v))
  | none => (rHexToByte 0 c).map (fun _ => none)

/-- The inner loop of `r_hex_str2bin`. -/
def readDigits : CStr → Nat → Option (Nat → Ut8) → CStr × Nat × Option (Nat → Ut8)
  | [], nibbles, out => ([], nibbles, out)
  | c :: str, nibbles, out =>
    match storeDigit out (nibbles / 2) c with
    | some out => readDigits str (nibbles + 1) out
    | none => (c :: str, nibbles, out)

def skipHexPrefix : CStr → CStr
  | '0' :: 'x' :: str => str
  | str => str

/-- What the loop of `r_hex_str2bin` leaves: the number of digits, or `none` for an invalid string. -/
abbrev HexScan := Option Nat × Option (Nat → Ut8)

/-- A round of the loop behind the prefix; `next` goes on with the pointer, which may be null. -/
def hexTurn (next : Option CStr → Nat → Option (Nat → Ut8) → Option HexScan) (str : CStr) (nibbles : Nat)
    (out : Option (Nat → Ut8)) : Option HexScan :=
  match readDigits str nibbles out with
  | ([], nibbles, out) => some (some nibbles, out)
  | (c :: str, nibbles, out) =>
    if c = '#' ∨ (c = '/' ∧ str.head? = some '/') then
      next ((strchr '\n' (c :: str)).map (List.drop 1)) nibbles out
    else if c = '/' ∧ str.head? = some '*' then
      next ((strstr ['*', '/'] (c :: str)).map (List.drop 2)) nibbles out
    else if ¬(c = ' ' ∨ c = '\t') ∧ c ≠ '\n' then some (none, out)
    else next (some str) nibbles out

def hexStr2binLoop : Nat → Option CStr → Nat → Option (Nat → Ut8) → Option HexScan
  | 0, _, _, _ => none
  | _ + 1, none, nibbles, out => some (some nibbles, out)
  | _ + 1, some [], nibbles, out => some (some nibbles, out)
  | fuel + 1, some (c :: str), nibbles, out => hexTurn (hexStr2binLoop fuel) (skipHexPrefix (c :: str)) nibbles out

/-- `r_hex_str2bin`: the returned number and the buffer. -/
def rHexStr2bin (str : Option CStr) (out : Option (Nat → Ut8)) : Option (Int × Option (Nat → Ut8)) := do
  let (scan, out) ← hexStr2binLoop ((str.getD []).length + 1) str 0 out
  match scan with
  | none => some (0, out)
  | some nibbles =>
    if nibbles % 2 ≠ 0 then some (Int.tdiv (-(nibbles + 1)) 2, (storeDigit out (nibbles / 2) '0').getD out)
    else some ((nibbles / 2 : Nat), out)

/-- `r_hex_str_is_valid`: the number of digits up to a blank; `none` where an `int` does not count them. -/
def rHexStrIsValid (str : CStr) : Option Int :=
  let isDigit : Char → Bool := fun c => (digitValue c).isSome
  let digits := (skipHexPrefix str).takeWhile isDigit
  if 2 ^ 31 ≤ digits.length then none
  else
    match (skipHexPrefix str).dropWhile isDigit with
    | [] => some digits.length
    | c :: _ => if c = ' ' then some digits.length else some (-1)

theorem rHexToByte_eq (val : Ut8) (c : Char) :
    rHexToByte val c = (digitValue c).map (fun d => val * 16 + BitVec.ofNat 8 d) := by
  have hlt {a b : Char} (h : a ≤ b) : a.toNat ≤ b.toNat := h
  unfold rHexToByte digitValue
  have hupper : 'A'.toNat = 65 ∧ 'a'.toNat = 97 ∧ '0'.toNat = 48 := ⟨rfl, rfl, rfl⟩
  split_ifs with hdigit hA ha ha
  · rfl
  · exact absurd (hlt ha.1) (by have := hlt hA.2; have hF : 'F'.toNat = 70 := rfl; omega)
  · have hge := hlt hA.1
    simp only [Option.map_some, hupper]
    congr 3
    omega
  · have hge := hlt ha.1
    simp only [Option.map_some, hupper]
    congr 3
    omega
  · rfl

theorem storeDigit_some {m : Nat → Ut8} {c : Char} {d : Nat} (i : Nat) (h : digitValue c = some d) :
    storeDigit (some m) i c = some (some (Function.update m i (m i * 16 + BitVec.ofNat 8 d))) := by
  simp [storeDigit, rHexToByte_eq, h]

theorem storeDigit_none {c : Char} (out : Option (Nat → Ut8)) (i : Nat) (h : digitValue c = none) :
    storeDigit out i c = none := by
  cases out <;> simp [storeDigit, rHexToByte_eq, h]

section Turn

variable (next : Option CStr → Nat → Option (Nat → Ut8) → Option HexScan) (nibbles : Nat) (out : Option (Nat → Ut8))

theorem hexTurn_digit {c : Char} {out' : Option (Nat → Ut8)} (str : CStr)
    (h : storeDigit out (nibbles / 2) c = some out') :
    hexTurn next (c :: str) nibbles out = hexTurn next str (nibbles + 1) out' := by
  rw [hexTurn, readDigits, h]
  rfl

theorem hexTurn_other {c : Char} (str : CStr) (h : digitValue c = none) :
    hexTurn next (c :: str) nibbles out =
      if c = '#' ∨ (c = '/' ∧ str.head? = some '/') then
        next ((strchr '\n' (c :: str)).map (List.drop 1)) nibbles out
      else if c = '/' ∧ str.head? = some '*' then
        next ((strstr ['*', '/'] (c :: str)).map (List.drop 2)) nibbles out
      else if ¬(c = ' ' ∨ c = '\t') ∧ c ≠ '\n' then some (none, out)
      else next (some str) nibbles out := by
  rw [hexTurn, readDigits, storeDigit_none out _ h]

end Turn

theorem hexTurn_byte (next : Option CStr → Nat → Option (Nat → Ut8) → Option HexScan) (i : Nat) (m : Nat → Ut8) (b : Ut8)
    (str : CStr) :
    hexTurn next (printByte false b ++ str) (2 * i) (some m) =
      hexTurn next str (2 * (i + 1)) (some (Function.update m i b)) := by
  have hb := b.isLt
  have hhigh := digitValue_print false (by omega : b.toNat / 16 < 16)
  have hlow := digitValue_print false (by omega : b.toNat % 16 < 16)
  have heven : 2 * i / 2 = i := by omega
  have hodd : (2 * i + 1) / 2 = i := by omega
  -- the first digit leaves something of the old byte, the second shifts it out
  have hbyte : (m i * 16 + BitVec.ofNat 8 (b.toNat / 16)) * 16 + BitVec.ofNat 8 (b.toNat % 16) = b := by
    apply BitVec.eq_of_toNat_eq
    simp only [BitVec.toNat_add, BitVec.toNat_mul, BitVec.ofNat_eq_ofNat, BitVec.toNat_ofNat]
    omega
  rw [printByte]
  simp only [List.cons_append, List.nil_append]
  rw [hexTurn_digit _ _ _ _ (storeDigit_some _ hhigh), hexTurn_digit _ _ _ _ (storeDigit_some _ hlow)]
  simp only [heven, hodd, Function.update_self, Function.update_idem, hbyte]
  rfl

theorem skipHexPrefix_byte (upper : Bool) (b : Ut8) (str : CStr) :
    skipHexPrefix (printByte upper b ++ str) = printByte upper b ++ str := by
  have hlow := digitValue_print upper (by omega : b.toNat % 16 < 16)
  rw [printByte]
  simp only [List.cons_append, List.nil_append]
  rw [skipHexPrefix]
  intro _ heq
  exact digit_ne hlow (by decide) (List.cons.inj (List.cons.inj heq).2).1

theorem hexStr2binLoop_some (fuel : Nat) (str : CStr) (nibbles : Nat) (out : Option (Nat → Ut8)) :
    hexStr2binLoop (fuel + 1) (some str) nibbles out =
      hexTurn (hexStr2binLoop fuel) (skipHexPrefix str) nibbles out := by
  cases str <;> rfl

/-- The text of a comment to the end of its line. -/
structure LineComment where
  text : CStr
  oneLine : '\n' ∉ text

/-- The text between the marks of a comment. -/
structure BlockComment where
  body : CStr
  nonempty : body ≠ []
  closed : ¬['*', '/'] <:+: body

inductive Separator where
  | space
  | tab
  | newline
  | hash (comment : LineComment)
  | slashes (comment : LineComment)
  | block (comment : BlockComment)

def Separator.text : Separator → CStr
  | .space => [' ']
  | .tab => ['\t']
  | .newline => ['\n']
  | .hash comment => '#' :: (comment.text ++ ['\n'])
  | .slashes comment => '/' :: '/' :: (comment.text ++ ['\n'])
  | .block comment => '/' :: '*' :: (comment.body ++ ['*', '/'])

/-- Separators, each with a `0x` behind it or not. -/
abbrev Gap := List (Separator × Bool)

def gapText (gap : Gap) : CStr :=
  gap.flatMap (fun (separator, prefixed) => separator.text ++ if prefixed then ['0', 'x'] else [])

/-- The hex text of some bytes; the byte at `i` has `gaps i` before it unless it is the first. -/
def spacedHex (gaps : Nat → Gap) : Nat → List Ut8 → CStr
  | _, [] => []
  | i, b :: bs => (if i = 0 then [] else gapText (gaps i)) ++ (printByte false b ++ spacedHex gaps (i + 1) bs)

/-- Whatever is in the buffer, the text is read as the bytes. -/
def ReadsBack (text : CStr) (bs : List Ut8) : Prop :=
  ∀ out : Nat → Ut8, ∃ out' : Nat → Ut8,
    rHexStr2bin (some text) (some out) = some ((bs.length : Int), some out') ∧
    ∀ j (h : j < bs.length), out' j = bs[j]

/-- The comment closes where `strstr` finds its own star and a slash. -/
def BlockComment.SlashFirst (comment : BlockComment) : Prop := comment.body.head? = some '/'

/-- The comment has a text in which no other comment begins. -/
def BlockComment.Bare (comment : BlockComment) : Prop :=
  '/' ∉ comment.body.tail ∧ '#' ∉ comment.body.tail

/-- The block comments of a gap. -/
def Gap.comments (gap : Gap) : List BlockComment :=
  gap.filterMap (fun s => match s.1 with
    | .block comment => some comment
    | _ => none)

theorem skipHexPrefix_gap {gap : Gap} {str : CStr} (h : skipHexPrefix str = str) :
    skipHexPrefix (gapText gap ++ str) = gapText gap ++ str := by
  cases gap with
  | nil => exact h
  | cons s gap =>
    obtain ⟨separator, prefixed⟩ := s
    cases separator <;> rfl

/-- A separator whose end the scanner finds takes one round. -/
theorem hexTurn_separator (next : Option CStr → Nat → Option (Nat → Ut8) → Option HexScan) (nibbles : Nat)
    (out : Option (Nat → Ut8)) {separator : Separator} (str : CStr)
    (h : ∀ comment, separator = .block comment → ¬comment.SlashFirst) :
    hexTurn next (separator.text ++ str) nibbles out = next (some str) nibbles out := by
  cases separator with
  | space => exact hexTurn_other next nibbles out str (by decide)
  | tab => exact hexTurn_other next nibbles out str (by decide)
  | newline => exact hexTurn_other next nibbles out str (by decide)
  | hash comment =>
    have hline : '\n' ∉ '#' :: comment.text := by simp [comment.oneLine]
    have hfind := strchr_append hline str
    simp only [Separator.text, List.cons_append, List.append_assoc, List.nil_append] at hfind ⊢
    rw [hexTurn_other _ _ _ _ (by decide), if_pos (.inl rfl), hfind]
    rfl
  | slashes comment =>
    have hline : '\n' ∉ '/' :: '/' :: comment.text := by simp [comment.oneLine]
    have hfind := strchr_append hline str
    simp only [Separator.text, List.cons_append, List.append_assoc, List.nil_append] at hfind ⊢
    rw [hexTurn_other _ _ _ _ (by decide), if_pos (.inr ⟨rfl, rfl⟩), hfind]
    rfl
  | block comment =>
    have hopen : ¬['*', '/'] <:+: '/' :: '*' :: comment.body := by
      intro hin
      rcases List.infix_cons_iff.mp hin with hp | hin
      · exact absurd (List.cons_prefix_cons.mp hp).1 (by decide)
      · rcases List.infix_cons_iff.mp hin with hp | hin
        · obtain ⟨t, ht⟩ := (List.cons_prefix_cons.mp hp).2
          exact h comment rfl (by rw [BlockComment.SlashFirst, ← ht]; rfl)
        · exact comment.closed hin
    have hfind := strstr_pair (by decide : '*' ≠ '/') hopen str
    simp only [Separator.text, List.cons_append, List.append_assoc, List.nil_append] at hfind ⊢
    rw [hexTurn_other _ _ _ _ (by decide), if_neg (by simp), if_pos ⟨rfl, rfl⟩, hfind]
    rfl

theorem hexTurn_gap_cons {separator : Separator} (prefixed : Bool) (gap : Gap) (fuel nibbles : Nat)
    (out : Option (Nat → Ut8)) {str : CStr} (hstr : skipHexPrefix str = str)
    (h : ∀ comment, separator = .block comment → ¬comment.SlashFirst) :
    hexTurn (hexStr2binLoop (fuel + 1)) (gapText ((separator, prefixed) :: gap) ++ str) nibbles out =
      hexTurn (hexStr2binLoop fuel) (gapText gap ++ str) nibbles out := by
  have hskip : skipHexPrefix ((if prefixed then ['0', 'x'] else []) ++ (gapText gap ++ str)) = gapText gap ++ str := by
    cases prefixed with
    | false => exact skipHexPrefix_gap hstr
    | true => rfl
  have htext : gapText ((separator, prefixed) :: gap) ++ str =
      separator.text ++ ((if prefixed then ['0', 'x'] else []) ++ (gapText gap ++ str)) := by
    simp [gapText]
  rw [htext, hexTurn_separator _ _ _ _ h, hexStr2binLoop_some, hskip]

theorem comments_cons (separator : Separator) (prefixed : Bool) (gap : Gap) (comment : BlockComment) :
    comment ∈ Gap.comments ((separator, prefixed) :: gap) ↔ separator = .block comment ∨ comment ∈ gap.comments := by
  cases separator <;> simp [Gap.comments, eq_comm]

theorem hexTurn_gap {gap : Gap} (fuel nibbles : Nat) (out : Option (Nat → Ut8)) {str : CStr}
    (hstr : skipHexPrefix str = str) (h : ∀ comment ∈ gap.comments, ¬comment.SlashFirst) :
    hexTurn (hexStr2binLoop (gap.length + fuel)) (gapText gap ++ str) nibbles out =
      hexTurn (hexStr2binLoop fuel) str nibbles out := by
  induction gap with
  | nil => rw [List.length_nil, Nat.zero_add]; rfl
  | cons s gap ih =>
    obtain ⟨separator, prefixed⟩ := s
    simp only [comments_cons] at h
    rw [List.length_cons, Nat.add_right_comm, hexTurn_gap_cons _ _ _ _ _ hstr (fun c hc => h c (.inl hc)),
      ih (fun c hc => h c (.inr hc))]

/-- Behind the marks of a comment that opens with a slash the scanner is in its text. -/
theorem hexTurn_slash_first (next : Option CStr → Nat → Option (Nat → Ut8) → Option HexScan) (nibbles : Nat)
    (out : Option (Nat → Ut8)) {comment : BlockComment} (str : CStr) (h : comment.SlashFirst) :
    hexTurn next ((Separator.block comment).text ++ str) nibbles out =
      next (some (comment.body.tail ++ '*' :: ('/' :: str))) nibbles out := by
  obtain ⟨r, hr⟩ : ∃ r, comment.body = '/' :: r := by
    cases hbody : comment.body with
    | nil => exact absurd hbody comment.nonempty
    | cons c r =>
      rw [BlockComment.SlashFirst, hbody, List.head?_cons, Option.some.injEq] at h
      exact ⟨r, by rw [h]⟩
  rw [Separator.text, hr]
  simp only [List.cons_append, List.append_assoc, List.nil_append, List.tail_cons]
  rw [hexTurn_other _ _ _ _ (by decide), if_neg (by simp), if_pos ⟨rfl, rfl⟩]
  simp [strstr]

/-- A star that no comment hides makes the string invalid. -/
theorem hexTurn_star {next : Option CStr → Nat → Option (Nat → Ut8) → Option HexScan} {fuel : Nat} {t : CStr}
    (hnext : ∀ (r : CStr) (nibbles : Nat) (out : Option (Nat → Ut8)), r.length < fuel → '/' ∉ r → '#' ∉ r →
      ∃ out', next (some (r ++ '*' :: t)) nibbles out = some (none, out'))
    {r : CStr} (nibbles : Nat) (out : Option (Nat → Ut8)) (hlen : r.length ≤ fuel) (hslash : '/' ∉ r) (hhash : '#' ∉ r) :
    ∃ out', hexTurn next (r ++ '*' :: t) nibbles out = some (none, out') := by
  induction r generalizing nibbles out with
  | nil => exact ⟨out, hexTurn_other next nibbles out t (by decide)⟩
  | cons c r ih =>
    rw [List.mem_cons, not_or] at hslash hhash
    rw [List.length_cons] at hlen
    rw [List.cons_append]
    cases hc : digitValue c with
    | some d =>
      obtain ⟨out', hstore⟩ : ∃ out', storeDigit out (nibbles / 2) c = some out' := by
        cases out <;> simp [storeDigit, rHexToByte_eq, hc]
      rw [hexTurn_digit _ _ _ _ hstore]
      exact ih _ _ (by omega) hslash.2 hhash.2
    | none =>
      rw [hexTurn_other _ _ _ _ hc, if_neg (by simp [Ne.symm hslash.1, Ne.symm hhash.1]),
        if_neg (by simp [Ne.symm hslash.1])]
      split_ifs
      · exact ⟨out, rfl⟩
      · exact hnext r nibbles out (by omega) hslash.2 hhash.2

theorem skipHexPrefix_star (r t : CStr) : ∃ r', r' <:+ r ∧ skipHexPrefix (r ++ '*' :: t) = r' ++ '*' :: t := by
  unfold skipHexPrefix
  split
  · rename_i str heq
    match r with
    | [] => exact absurd (List.cons.inj heq).1 (by decide)
    | [c] => exact absurd (List.cons.inj (List.cons.inj heq).2).1 (by decide)
    | c :: d :: r =>
      refine ⟨r, ⟨[c, d], rfl⟩, ?_⟩
      exact (List.cons.inj (List.cons.inj heq).2).2.symm
  · exact ⟨r, List.suffix_rfl, rfl⟩

theorem hexStr2binLoop_star {fuel : Nat} (t : CStr) {r : CStr} (nibbles : Nat) (out : Option (Nat → Ut8))
    (hlen : r.length < fuel) (hslash : '/' ∉ r) (hhash : '#' ∉ r) :
    ∃ out', hexStr2binLoop fuel (some (r ++ '*' :: t)) nibbles out = some (none, out') := by
  induction fuel generalizing r nibbles out with
  | zero => exact absurd hlen (Nat.not_lt_zero _)
  | succ fuel ih =>
    obtain ⟨r', hsuffix, hskip⟩ := skipHexPrefix_star r t
    have hle := hsuffix.length_le
    rw [hexStr2binLoop_some, hskip]
    exact hexTurn_star (fun r nibbles out hlen hslash hhash => ih nibbles out hlen hslash hhash) nibbles out (by omega)
      (fun hin => hslash (hsuffix.subset hin)) (fun hin => hhash (hsuffix.subset hin))

theorem Separator.text_pos (separator : Separator) : 0 < separator.text.length := by
  cases separator <;> simp [Separator.text]

theorem gap_length_le (gap : Gap) : gap.length ≤ (gapText gap).length := by
  induction gap with
  | nil => simp
  | cons s gap ih =>
    have hpos := s.1.text_pos
    simp only [gapText, List.flatMap_cons, List.length_append, List.length_cons] at ih ⊢
    omega

/-- The text from a later byte on is read into the cells from that byte's on. -/
theorem hexTurn_spaced {gaps : Nat → Gap} {bs : List Ut8} {fuel i : Nat} (m : Nat → Ut8) (hi : 0 < i)
    (hfuel : (spacedHex gaps i bs).length ≤ fuel)
    (h : ∀ k < bs.length, ∀ comment ∈ (gaps (i + k)).comments, ¬comment.SlashFirst) :
    ∃ m' : Nat → Ut8, hexTurn (hexStr2binLoop fuel) (spacedHex gaps i bs) (2 * i) (some m) =
        some (some (2 * (i + bs.length)), some m') ∧
      (∀ j < i, m' j = m j) ∧ ∀ j (hj : j < bs.length), m' (i + j) = bs[j] := by
  induction bs generalizing i m fuel with
  | nil => exact ⟨m, rfl, fun _ _ => rfl, fun _ hj => absurd hj (Nat.not_lt_zero _)⟩
  | cons b bs ih =>
    have hgap := gap_length_le (gaps i)
    have hplain : ∀ comment ∈ (gaps i).comments, ¬comment.SlashFirst := h 0 (by simp)
    have hrest : ∀ k < bs.length, ∀ comment ∈ (gaps (i + 1 + k)).comments, ¬comment.SlashFirst := by
      intro k hk
      rw [Nat.add_assoc, Nat.add_comm 1 k]
      exact h (k + 1) (by simpa using hk)
    simp only [spacedHex, if_neg (Nat.ne_of_gt hi), List.length_append] at hfuel
    obtain ⟨left, rfl⟩ := Nat.exists_eq_add_of_le (by omega : (gaps i).length ≤ fuel)
    obtain ⟨m', hrun, hbefore, hafter⟩ := ih (Function.update m i b) (by omega : 0 < i + 1)
      (by omega : (spacedHex gaps (i + 1) bs).length ≤ left) hrest
    refine ⟨m', ?_, ?_, ?_⟩
    · rw [spacedHex, if_neg (Nat.ne_of_gt hi), hexTurn_gap _ _ _ (skipHexPrefix_byte false _ _) hplain, hexTurn_byte, hrun,
        List.length_cons, Nat.add_assoc, Nat.add_comm 1]
    · intro j hj
      rw [hbefore j (by omega), Function.update_of_ne (by omega)]
    · intro j hj
      cases j with
      | zero => rw [Nat.add_zero, hbefore i (by omega), Function.update_self, List.getElem_cons_zero]
      | succ j =>
        have hcell := hafter j (by simpa using hj)
        rw [Nat.add_assoc, Nat.add_comm 1] at hcell
        rw [hcell, List.getElem_cons_succ]

/-- The first comment that opens with a slash ends the scan, if no other comment begins in it. -/
theorem hexTurn_gap_invalid {gap : Gap} {fuel : Nat} (nibbles : Nat) (out : Option (Nat → Ut8)) {str : CStr}
    (hstr : skipHexPrefix str = str) (hfuel : (gapText gap).length ≤ fuel)
    (hbad : ∃ comment ∈ gap.comments, comment.SlashFirst)
    (hbare : ∀ comment ∈ gap.comments, comment.SlashFirst → comment.Bare) :
    ∃ out', hexTurn (hexStr2binLoop fuel) (gapText gap ++ str) nibbles out = some (none, out') := by
  induction gap generalizing fuel with
  | nil => simp [Gap.comments] at hbad
  | cons s gap ih =>
    obtain ⟨separator, prefixed⟩ := s
    have htext : gapText ((separator, prefixed) :: gap) =
        separator.text ++ ((if prefixed then ['0', 'x'] else []) ++ gapText gap) := by
      simp [gapText]
    simp only [comments_cons] at hbad hbare
    by_cases hfirst : ∃ comment, separator = .block comment ∧ comment.SlashFirst
    · obtain ⟨comment, rfl, hslash⟩ := hfirst
      obtain ⟨hno, hnohash⟩ := hbare comment (.inl rfl) hslash
      have hlen : comment.body.tail.length < fuel := by
        rw [htext, List.length_append] at hfuel
        simp only [Separator.text, List.length_cons, List.length_append] at hfuel
        simp only [List.length_tail]
        omega
      rw [htext, List.append_assoc, hexTurn_slash_first _ _ _ _ hslash]
      exact hexStr2binLoop_star _ nibbles out hlen hno hnohash
    · have hplain : ∀ comment, separator = .block comment → ¬comment.SlashFirst :=
        fun comment hc hslash => hfirst ⟨comment, hc, hslash⟩
      have hpos := separator.text_pos
      rw [htext, List.length_append, List.length_append] at hfuel
      obtain ⟨fuel, rfl⟩ := Nat.exists_eq_add_of_le' (by omega : 1 ≤ fuel)
      obtain ⟨comment, hmem, hslash⟩ := hbad
      rw [hexTurn_gap_cons _ _ _ _ _ hstr hplain]
      apply ih (by omega)
      · rcases hmem with hc | hmem
        · exact absurd hslash (hplain comment hc)
        · exact ⟨comment, hmem, hslash⟩
      · exact fun c hc => hbare c (.inr hc)

theorem hexTurn_spaced_invalid {gaps : Nat → Gap} {bs : List Ut8} {fuel i : Nat} (m : Nat → Ut8) (hi : 0 < i)
    (hfuel : (spacedHex gaps i bs).length ≤ fuel)
    (hbad : ∃ k < bs.length, ∃ comment ∈ (gaps (i + k)).comments, comment.SlashFirst)
    (hbare : ∀ k < bs.length, ∀ comment ∈ (gaps (i + k)).comments, comment.SlashFirst → comment.Bare) :
    ∃ out', hexTurn (hexStr2binLoop fuel) (spacedHex gaps i bs) (2 * i) (some m) = some (none, out') := by
  induction bs generalizing i m fuel with
  | nil =>
    obtain ⟨k, hk, -⟩ := hbad
    exact absurd hk (Nat.not_lt_zero _)
  | cons b bs ih =>
    have hgap := gap_length_le (gaps i)
    have hskip := skipHexPrefix_byte false b (spacedHex gaps (i + 1) bs)
    simp only [spacedHex, if_neg (Nat.ne_of_gt hi), List.length_append] at hfuel ⊢
    by_cases hfirst : ∃ comment ∈ (gaps i).comments, comment.SlashFirst
    · exact hexTurn_gap_invalid _ _ hskip (by omega) hfirst (hbare 0 (by simp))
    · have hplain : ∀ comment ∈ (gaps i).comments, ¬comment.SlashFirst :=
        fun comment hc hslash => hfirst ⟨comment, hc, hslash⟩
      obtain ⟨left, rfl⟩ := Nat.exists_eq_add_of_le (by omega : (gaps i).length ≤ fuel)
      rw [hexTurn_gap _ _ _ hskip hplain, hexTurn_byte]
      have hnext (k : Nat) : i + (k + 1) = i + 1 + k := by omega
      apply ih _ (by omega) (by omega)
      · obtain ⟨k, hk, comment, hmem, hslash⟩ := hbad
        cases k with
        | zero => exact absurd hslash (hplain comment hmem)
        | succ k =>
          rw [hnext] at hmem
          exact ⟨k, by simpa using hk, comment, hmem, hslash⟩
      · intro k hk
        rw [← hnext]
        exact hbare (k + 1) (by simpa using hk)

theorem spacedHex_length_le (gaps : Nat → Gap) (b : Ut8) (bs : List Ut8) :
    (spacedHex gaps 1 bs).length ≤ (spacedHex gaps 0 (b :: bs)).length := by
  rw [spacedHex, if_pos rfl, List.nil_append, List.length_append]
  exact Nat.le_add_left _ _

theorem hexStr2binLoop_start (gaps : Nat → Gap) (b : Ut8) (bs : List Ut8) (fuel : Nat) (out : Nat → Ut8) :
    hexStr2binLoop (fuel + 1) (some (spacedHex gaps 0 (b :: bs))) 0 (some out) =
      hexTurn (hexStr2binLoop fuel) (spacedHex gaps 1 bs) (2 * 1) (some (Function.update out 0 b)) := by
  rw [hexStr2binLoop_some, spacedHex, if_pos rfl, List.nil_append, skipHexPrefix_byte]
  exact hexTurn_byte _ 0 out b _

/-- No comment between the bytes opens with a slash. -/
def PlainGaps (gaps : Nat → Gap) (bs : List Ut8) : Prop :=
  ∀ i, 0 < i → i < bs.length → ∀ comment ∈ (gaps i).comments, ¬comment.SlashFirst

theorem readsBack_of_plain {gaps : Nat → Gap} {bs : List Ut8} (h : PlainGaps gaps bs) :
    ReadsBack (spacedHex gaps 0 bs) bs := by
  intro out
  cases bs with
  | nil => exact ⟨out, rfl, fun _ hj => absurd hj (Nat.not_lt_zero _)⟩
  | cons b bs =>
    have hfuel := spacedHex_length_le gaps b bs
    obtain ⟨m', hrun, hbefore, hafter⟩ := hexTurn_spaced (Function.update out 0 b) Nat.one_pos hfuel
      (fun k hk => h (1 + k) (by omega) (by rw [List.length_cons]; omega))
    have hcount : 2 * (1 + bs.length) / 2 = (b :: bs).length := by
      rw [List.length_cons]
      omega
    refine ⟨m', ?_, ?_⟩
    · simp only [rHexStr2bin, Option.getD_some, hexStr2binLoop_start, hrun, Option.bind_eq_bind, Option.bind_some, hcount]
      rw [if_neg (by omega)]
    · intro j hj
      cases j with
      | zero => rw [hbefore 0 Nat.one_pos, Function.update_self, List.getElem_cons_zero]
      | succ j =>
        have hcell := hafter j (by simpa using hj)
        rw [Nat.add_comm 1] at hcell
        rw [hcell, List.getElem_cons_succ]

theorem not_readsBack_of_bare {gaps : Nat → Gap} {bs : List Ut8} (h : ¬PlainGaps gaps bs)
    (hbare : ∀ i, 0 < i → i < bs.length → ∀ comment ∈ (gaps i).comments, comment.SlashFirst → comment.Bare) :
    ¬ReadsBack (spacedHex gaps 0 bs) bs := by
  intro hread
  obtain ⟨out', hres, -⟩ := hread (fun _ => 0)
  simp only [PlainGaps, not_forall, not_not] at h
  obtain ⟨i, hi, hlt, comment, hmem, hslash⟩ := h
  cases bs with
  | nil => exact absurd hlt (Nat.not_lt_zero _)
  | cons b bs =>
    rw [List.length_cons] at hlt
    have hfuel := spacedHex_length_le gaps b bs
    obtain ⟨k, rfl⟩ := Nat.exists_eq_add_of_le (by omega : 1 ≤ i)
    obtain ⟨end', hrun⟩ := hexTurn_spaced_invalid (Function.update (fun _ => 0) 0 b) Nat.one_pos hfuel
      ⟨k, by omega, comment, hmem, hslash⟩
      (fun k hk => hbare (1 + k) (by omega) (by rw [List.length_cons]; omega))
    simp only [rHexStr2bin, Option.getD_some, hexStr2binLoop_start, hrun, Option.bind_eq_bind, Option.bind_some,
      Option.some.injEq, Prod.mk.injEq, List.length_cons] at hres
    omega

theorem spacedHex_nil (i : Nat) (bs : List Ut8) : spacedHex (fun _ => []) i bs = bs.flatMap (printByte false) := by
  induction bs generalizing i with
  | nil => rfl
  | cons b bs ih => simp [spacedHex, gapText, ih]

theorem rHexBin2str_eq (bs : List Ut8) :
    rHexBin2str bs bs.length = if bs.length < 1073741824 then
      some ((bs.length : Int), bs.flatMap (printByte false) ++ ['\x00'])
    else none := by
  have hnonneg : ¬(bs.length : Int) < 0 := by omega
  rw [rHexBin2str, if_neg hnonneg, Int.toNat_natCast, if_pos (Nat.le_refl _), List.take_length]
  by_cases hsmall : bs.length < 1073741824
  · rw [if_neg (by omega), if_pos hsmall]
  · rw [if_pos (by omega), if_neg hsmall]

/-- The printed bytes are read back, as many of them as an `int` index can print; with separators between
them as well if no comment opens with a slash; and where one does, only a comment that begins in its text
can save the others. -/
theorem hex_roundTrip (bs : List Ut8) (gaps : Nat → Gap) :
    ((∃ text, rHexBin2str bs bs.length = some ((bs.length : Int), text ++ ['\x00']) ∧
      spacedHex (fun _ => []) 0 bs = text ∧ ReadsBack text bs) ↔ bs.length < 1073741824) ∧
    (bs.length < 1073741824 →
      (PlainGaps gaps bs → ReadsBack (spacedHex gaps 0 bs) bs) ∧
      (ReadsBack (spacedHex gaps 0 bs) bs → PlainGaps gaps bs ∨
        ∃ i, 0 < i ∧ i < bs.length ∧ ∃ comment ∈ (gaps i).comments, comment.SlashFirst ∧ ¬comment.Bare)) := by
  rw [rHexBin2str_eq]
  refine ⟨⟨?_, ?_⟩, fun _ => ⟨readsBack_of_plain, ?_⟩⟩
  · rintro ⟨text, htext, -⟩
    by_contra hlarge
    rw [if_neg hlarge] at htext
    exact nomatch htext
  · intro hsmall
    refine ⟨bs.flatMap (printByte false), if_pos hsmall, spacedHex_nil 0 bs, ?_⟩
    rw [← spacedHex_nil 0 bs]
    apply readsBack_of_plain
    intro i _ _ comment hmem
    simp [Gap.comments] at hmem
  · intro hread
    by_contra hnot
    rw [not_or] at hnot
    refine not_readsBack_of_bare hnot.1 (fun i hi hlt comment hmem hslash => ?_) hread
    by_contra hbare
    exact hnot.2 ⟨i, hi, hlt, comment, hmem, hslash, hbare⟩

/-- Between two bytes the comment with a slash as its text makes the string invalid. -/
theorem hex_comment_breaks :
    ¬ReadsBack (spacedHex (fun _ => [(.block ⟨['/'], by decide, by decide⟩, false)]) 0 [0x41, 0x42]) [0x41, 0x42] := by
  apply not_readsBack_of_bare
  · intro h
    exact h 1 (by decide) (by decide) ⟨['/'], by decide, by decide⟩ (by simp [Gap.comments]) rfl
  · intro i _ _ comment hmem _
    simp only [Gap.comments, List.filterMap_cons, List.filterMap_nil, List.mem_singleton] at hmem
    rw [hmem]
    exact ⟨by decide, by decide⟩

end Radare
