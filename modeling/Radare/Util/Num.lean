import Mathlib.Tactic.IntervalCases
import Radare.Framework.MachineInt

namespace Radare

/-- A C string is the list of its characters before the terminator. -/
abbrev CStr := List Char

/-- Value of a digit of a base up to sixteen. -/
def digitValue (c : Char) : Option Nat :=
  if '0' ≤ c ∧ c ≤ '9' then some (c.toNat - 48)
  else if 'a' ≤ c ∧ c ≤ 'f' then some (c.toNat - 87)
  else if 'A' ≤ c ∧ c ≤ 'F' then some (c.toNat - 55)
  else none

/-- The conversions `%02x` and `%02X` of `printf` for a byte. -/
def printByte (upper : Bool) (b : Ut8) : CStr :=
  let digit (n : Nat) : Char := if upper then n.digitChar.toUpper else n.digitChar
  [digit (b.toNat / 16), digit (b.toNat % 16)]

def isSpace (c : Char) : Bool :=
  c = ' ' || (9 ≤ c.toNat && c.toNat ≤ 13)

/-- Reads the longest run of digits of the base and returns its value and the rest. -/
def scanDigits (base : Nat) : CStr → Nat → Nat × CStr
  | [], acc => (acc, [])
  | c :: cs, acc =>
    match digitValue c with
    | some d => if d < base then scanDigits base cs (acc * base + d) else (acc, c :: cs)
    | none => (acc, c :: cs)

def startsWithDigit (base : Nat) : CStr → Bool
  | [] => false
  | c :: _ => match digitValue c with
    | some d => d < base
    | none => false

def scanSign : CStr → Bool × CStr
  | '-' :: cs => (true, cs)
  | '+' :: cs => (false, cs)
  | cs => (false, cs)

/-- The optional `0x` of base sixteen counts only in front of a digit. -/
def scanHexPrefix (base : Nat) : CStr → CStr
  | '0' :: x :: cs =>
    if base = 16 ∧ (x = 'x' ∨ x = 'X') ∧ startsWithDigit 16 cs then cs else '0' :: x :: cs
  | cs => cs

/-- Sign, magnitude and rest of an integer as the `strto*` family reads it. -/
def scanInteger (base : Nat) (s : CStr) : Option (Bool × Nat × CStr) :=
  let (neg, t) := scanSign (s.dropWhile isSpace)
  let t := scanHexPrefix base t
  if startsWithDigit base t then
    let (v, rest) := scanDigits base t 0
    some (neg, v, rest)
  else none

/-- `strtoull` with its end pointer; overflow saturates and a sign negates modulo `2^64`. -/
def strtoull (base : Nat) (s : CStr) : Ut64 × CStr :=
  match scanInteger base s with
  | none => (0, s)
  | some (neg, v, rest) =>
    if 2 ^ 64 ≤ v then (ut64Max, rest)
    else (if neg then -BitVec.ofNat 64 v else BitVec.ofNat 64 v, rest)

/-- `strtoll`, saturating at both ends. -/
def strtoll (s : CStr) : Ut64 :=
  match scanInteger 10 s with
  | none => 0
  | some (neg, v, _) =>
    BitVec.ofInt 64 (if neg then max (-2 ^ 63) (-(v : Int)) else min (2 ^ 63 - 1) (v : Int))

/-- The conversion `%04x` of `sscanf` into a `ut32`, with the rest of the input. -/
def scanHex4 (s : CStr) : Option (Ut32 × CStr) :=
  let t := s.dropWhile isSpace
  match scanInteger 16 (t.take 4) with
  | none => none
  | some (neg, v, rest) =>
    some (if neg then -BitVec.ofNat 32 v else BitVec.ofNat 32 v, rest ++ t.drop 4)

def scanLiteral (lit s : CStr) : Option CStr :=
  if lit.isPrefixOf s then some (s.drop lit.length) else none

/-- `char len = strlen (str)` keeps the low byte as a signed number. -/
def charLen (s : CStr) : Int := ((s.length : Int) + 128) % 256 - 128

/-- The `1 << j` of the binary literals is an `int` shift. -/
def intBit (j : Nat) : Ut64 := ((1#32) <<< (j % 32)).signExtend 64

/-- Reads the digits of a binary literal from its last one, up to the first other character. -/
def scanBits : CStr → Nat → Ut64 → Ut64
  | [], _, ret => ret
  | c :: cs, j, ret =>
    if c = '1' then scanBits cs (j + 1) (ret ||| intBit j)
    else if c = '0' then scanBits cs (j + 1) ret
    else ret

def segmentValue (s a : Ut32) : Ut64 := ((s <<< 4) + a).setWidth 64

/-- The `xxxx:yyyy`, `0xxxxx:0xyyyy` and `0xxxxx:yyyy` forms. -/
def numSegment (str : CStr) : Option Ut64 :=
  let len := charLen str
  if 3 < len ∧ str[4]? = some ':' then do
    let (s, _) ← scanHex4 str
    let (a, _) ← scanHex4 (str.drop 5)
    some (segmentValue s a)
  else if 6 < len ∧ str[6]? = some ':' then do
    let t ← scanLiteral ['0', 'x'] str
    let (s, t) ← scanHex4 t
    let t ← scanLiteral [':'] t
    let (a, _) ← ((scanLiteral ['0', 'x'] t).bind scanHex4).or (scanHex4 t)
    some (segmentValue s a)
  else none

def numPlain (str : CStr) : Ut64 :=
  if str[0]? = some '0' ∧ str[1]? = some 'b' then scanBits (str.drop 1).reverse 0 0
  else if str[0]? = some (Char.ofNat 39) then
    ((str[1]?).map (fun c => BitVec.ofNat 64 (c.toNat % 256))).getD 0
  else if str[0]? = some '0' ∧ str[1]? = some 'x' then (strtoull 16 (str.drop 2)).1
  else
    let len := charLen str
    let last := (str[if 0 < len then len.toNat - 1 else 0]?).getD ' '
    let lch := if str[0]? = some '0' ∧ last ≠ 'b' ∧ last ≠ 'h' then 'o' else last
    if lch = 'h' then (strtoull 16 str).1
    else if lch = 'o' then (strtoull 8 str).1
    else if lch = 'b' then scanBits str.dropLast.reverse 0 0
    else if lch = 'K' ∨ lch = 'k' then strtoll str * 1024
    else if lch = 'M' ∨ lch = 'm' then strtoll str * 1048576
    else if lch = 'G' ∨ lch = 'g' then strtoll str * 1073741824
    else (strtoull 10 str).1

/-- `r_num_get (NULL, str)`: no callback resolves names. -/
def rNumGet (str : CStr) : Ut64 :=
  let str := str.dropWhile (· = ' ')
  match str with
  | [] => 0
  | [_] => numPlain str
  | [_, _] => numPlain str
  | a :: b :: c :: _ =>
    if a = Char.ofNat 39 ∧ c = Char.ofNat 39 then (BitVec.ofNat 8 b.toNat).signExtend 64
    else (numSegment str).getD (numPlain str)

/-- The text `0x%llx` of a number. -/
def hexLiteral (n : Ut64) : CStr := '0' :: 'x' :: Nat.toDigits 16 n.toNat

/-- A character that is none of the digits. -/
theorem digit_ne {c d : Char} {a : Nat} (h : digitValue c = some a) (hd : digitValue d = none) :
    c ≠ d := by
  intro heq
  rw [heq, hd] at h
  cases h

theorem digitValue_lt {c : Char} {a : Nat} (h : digitValue c = some a) : a < 16 := by
  unfold digitValue at h
  split_ifs at h with h1 h2 h3
  · have hle : c.toNat ≤ '9'.toNat := h1.2
    have h9 : '9'.toNat = 57 := rfl
    rw [Option.some.injEq] at h
    omega
  · have hle : c.toNat ≤ 'f'.toNat := h2.2
    have hf : 'f'.toNat = 102 := rfl
    rw [Option.some.injEq] at h
    omega
  · have hle : c.toNat ≤ 'F'.toNat := h3.2
    have hf : 'F'.toNat = 70 := rfl
    rw [Option.some.injEq] at h
    omega

theorem digit_not_space {c : Char} {a : Nat} (h : digitValue c = some a) : isSpace c = false := by
  rw [isSpace, Bool.or_eq_false_iff, decide_eq_false_iff_not]
  constructor
  · exact digit_ne h (by decide)
  · have h0 : '0'.toNat = 48 := rfl
    have ha : 'a'.toNat = 97 := rfl
    have hA : 'A'.toNat = 65 := rfl
    have hge : 48 ≤ c.toNat := by
      unfold digitValue at h
      split_ifs at h with h1 h2 h3
      · have hle : '0'.toNat ≤ c.toNat := h1.1
        omega
      · have hle : 'a'.toNat ≤ c.toNat := h2.1
        omega
      · have hle : 'A'.toNat ≤ c.toNat := h3.1
        omega
    rw [Bool.and_eq_false_iff]
    right
    rw [decide_eq_false_iff_not]
    omega

theorem scanSign_digit {c : Char} {a : Nat} (h : digitValue c = some a) (cs : CStr) :
    scanSign (c :: cs) = (false, c :: cs) := by
  unfold scanSign
  split
  · rename_i heq
    exact absurd (List.cons.inj heq).1 (digit_ne h (by decide))
  · rename_i heq
    exact absurd (List.cons.inj heq).1 (digit_ne h (by decide))
  · rfl

/-- Digits hold no `x`. -/
theorem scanHexPrefix_digits {base : Nat} {s : CStr} (h : ∀ c ∈ s, (digitValue c).isSome) :
    scanHexPrefix base s = s := by
  unfold scanHexPrefix
  split
  · rename_i x cs
    obtain ⟨a, ha⟩ := Option.isSome_iff_exists.mp (h x (by simp))
    have hx : x ≠ 'x' := digit_ne ha (by decide)
    have hX : x ≠ 'X' := digit_ne ha (by decide)
    rw [if_neg (by simp [hx, hX])]
  · rfl

/-- A run of digits of the base is read as a whole. -/
theorem scanInteger_digits {base v : Nat} {s : CStr} (h : ∀ c ∈ s, (digitValue c).isSome)
    (hstart : startsWithDigit base s = true) (hscan : scanDigits base s 0 = (v, [])) :
    scanInteger base s = some (false, v, []) := by
  cases s with
  | nil => exact absurd hstart (by simp [startsWithDigit])
  | cons c cs =>
    obtain ⟨a, ha⟩ := Option.isSome_iff_exists.mp (h c List.mem_cons_self)
    have hblank : (c :: cs).dropWhile isSpace = c :: cs := List.dropWhile_cons_of_neg (by simp [digit_not_space ha])
    rw [scanInteger, hblank]
    simp only [scanSign_digit ha, scanHexPrefix_digits h, if_pos hstart, hscan]

theorem digitValue_print (upper : Bool) {n : Nat} (h : n < 16) :
    digitValue (if upper then n.digitChar.toUpper else n.digitChar) = some n := by
  cases upper <;> interval_cases n <;> rfl

theorem digitValue_digitChar (d : Nat) (hd : d < 16) : digitValue d.digitChar = some d := by
  interval_cases d <;> rfl

theorem scanDigits_digitChar (base d acc : Nat) (cs : CStr) (hb : base ≤ 16) (hd : d < base) :
    scanDigits base (d.digitChar :: cs) acc = scanDigits base cs (acc * base + d) := by
  rw [scanDigits, digitValue_digitChar d (by omega)]
  simp [hd]

/-- Reading the digits of `n` back gives `n`. -/
theorem scanDigits_toDigits (base n : Nat) (cs : CStr) (h1 : 1 < base) (hb : base ≤ 16) :
    scanDigits base (Nat.toDigits base n ++ cs) 0 = scanDigits base cs n := by
  induction n using Nat.strongRecOn generalizing cs with
  | ind n ih =>
    by_cases hn : n < base
    · rw [Nat.toDigits_of_lt_base hn]
      simpa using scanDigits_digitChar base n 0 cs hb hn
    · have hq : 0 < n / base := Nat.div_pos (by omega) (by omega)
      have hr : n % base < base := Nat.mod_lt _ (by omega)
      have he : base * (n / base) + n % base = n := Nat.div_add_mod n base
      have hs := Nat.toDigits_append_toDigits h1 hq hr
      rw [he, Nat.toDigits_of_lt_base hr] at hs
      rw [← hs, List.append_assoc, ih (n / base) (Nat.div_lt_self (by omega) h1)]
      simp only [List.cons_append, List.nil_append]
      rw [scanDigits_digitChar base _ _ cs hb hr]
      congr 1
      rw [Nat.mul_comm]
      exact he

theorem toDigits_mem {b n : Nat} (hb : 1 < b) {c : Char} (h : c ∈ Nat.toDigits b n) :
    ∃ d < b, c = Nat.digitChar d := by
  induction n using Nat.strongRecOn with
  | ind n ih =>
    by_cases hn : n < b
    · rw [Nat.toDigits_of_lt_base hn] at h
      exact ⟨n, hn, by simpa using h⟩
    · have hr : n % b < b := Nat.mod_lt _ (by omega)
      have hq : 0 < n / b := Nat.div_pos (by omega) (by omega)
      have hs := Nat.toDigits_append_toDigits hb hq hr
      rw [Nat.div_add_mod, Nat.toDigits_of_lt_base hr] at hs
      rw [← hs, List.mem_append] at h
      rcases h with h | h
      · exact ih (n / b) (Nat.div_lt_self (by omega) hb) h
      · exact ⟨n % b, hr, by simpa using h⟩

theorem toDigits_digit {b n : Nat} (hb : 1 < b) (hb' : b ≤ 16) {c : Char} (h : c ∈ Nat.toDigits b n) :
    ∃ d < b, digitValue c = some d := by
  obtain ⟨d, hd, rfl⟩ := toDigits_mem hb h
  exact ⟨d, hd, digitValue_digitChar d (by omega)⟩

/-- A numeral of any length is read as a whole. -/
theorem scanInteger_toDigits {b : Nat} (hb : 1 < b) (hb' : b ≤ 16) (n : Nat) :
    scanInteger b (Nat.toDigits b n) = some (false, n, []) := by
  have hstart : startsWithDigit b (Nat.toDigits b n) = true := by
    obtain ⟨c, cs, hc⟩ := List.exists_cons_of_ne_nil (Nat.toDigits_ne_nil (n := n) (b := b))
    obtain ⟨d, hlt, hd⟩ := toDigits_digit hb hb' (n := n) (c := c) (by rw [hc]; exact List.mem_cons_self)
    rw [hc]
    simp only [startsWithDigit, hd]
    exact decide_eq_true hlt
  have hscan : scanDigits b (Nat.toDigits b n) 0 = (n, []) := by
    have h := scanDigits_toDigits b n [] hb hb'
    rwa [List.append_nil, scanDigits] at h
  refine scanInteger_digits (fun c hc => ?_) hstart hscan
  obtain ⟨d, -, hd⟩ := toDigits_digit hb hb' hc
  rw [hd]
  rfl

theorem strtoull_toDigits {b n : Nat} (hb : 1 < b) (hb' : b ≤ 16) (hn : n < 2 ^ 64) :
    (strtoull b (Nat.toDigits b n)).1 = BitVec.ofNat 64 n := by
  simp only [strtoull, scanInteger_toDigits hb hb']
  rw [if_neg (by omega)]
  simp

theorem hexLiteral_getElem?_ne_colon (n : Ut64) (i : Nat) : (hexLiteral n)[i]? ≠ some ':' := by
  intro h
  have hm : ':' ∈ hexLiteral n := List.mem_of_getElem? h
  simp only [hexLiteral, List.mem_cons] at hm
  rcases hm with hm | hm | hm
  · exact absurd hm (by decide)
  · exact absurd hm (by decide)
  · obtain ⟨d, -, hd⟩ := toDigits_digit (b := 16) (by decide) (by decide) hm
    exact digit_ne hd (by decide) rfl

/-- A number printed by `0x%llx` is read back unchanged. -/
theorem rNumGet_hexLiteral (n : Ut64) : rNumGet (hexLiteral n) = n := by
  obtain ⟨c, cs, hc⟩ := List.exists_cons_of_ne_nil (Nat.toDigits_ne_nil (n := n.toNat) (b := 16))
  have hseg : numSegment (hexLiteral n) = none := by
    simp [numSegment, hexLiteral_getElem?_ne_colon]
  have hplain : numPlain (hexLiteral n) = n := by
    have h := strtoull_toDigits (b := 16) (by decide) (by decide) n.isLt
    rw [BitVec.ofNat_toNat, BitVec.setWidth_eq] at h
    simpa [numPlain, hexLiteral] using h
  have hdrop : (hexLiteral n).dropWhile (· = ' ') = hexLiteral n := by simp [hexLiteral]
  rw [rNumGet, hdrop]
  simp only [hexLiteral, hc]
  rw [if_neg (fun h => absurd h.1 (by decide)), ← hc]
  change (numSegment (hexLiteral n)).getD (numPlain (hexLiteral n)) = n
  rw [hseg, hplain]
  rfl

end Radare
