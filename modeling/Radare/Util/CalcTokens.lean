import Radare.Util.Calc

namespace Radare.Calc

inductive CalcOp where
  | add
  | sub
  | mul
  | div
  | mod
  | and
  | orr
  | xor
  deriving DecidableEq

namespace CalcOp

def char : CalcOp → Char
  | add => '+'
  | sub => '-'
  | mul => '*'
  | div => '/'
  | mod => '%'
  | and => '&'
  | orr => '|'
  | xor => '^'

def token : CalcOp → RNumCalcToken
  | add => .rncPlus
  | sub => .rncMinus
  | mul => .rncMul
  | div => .rncDiv
  | mod => .rncMod
  | and => .rncAnd
  | orr => .rncOrr
  | xor => .rncXor

theorem token_injective {op op' : CalcOp} (h : op.token = op'.token) : op = op' := by
  cases op <;> cases op' <;> first | rfl | cases h

/-- The level of the operator: the operators of a term bind tighter. -/
def level : CalcOp → Nat
  | mul => 1
  | div => 1
  | mod => 1
  | _ => 0

/-- The arithmetic modulo `2^64`, without a sign. -/
def value : CalcOp → Ut64 → Ut64 → Ut64
  | add, a, b => a + b
  | sub, a, b => a - b
  | mul, a, b => a * b
  | div, a, b => a / b
  | mod, a, b => a % b
  | and, a, b => a &&& b
  | orr, a, b => a ||| b
  | xor, a, b => a ^^^ b

def apply : CalcOp → RNumCalcValue → RNumCalcValue → RNumCalcValue
  | add => nadd
  | sub => nsub
  | mul => nmul
  | div => ndiv
  | mod => nmod
  | and => nand
  | orr => norr
  | xor => nxor

theorem apply_n (op : CalcOp) (a b : RNumCalcValue) (h : op = div ∨ op = mod → b.n ≠ 0) :
    (op.apply a b).n = op.value a.n b.n := by
  cases op with
  | div => exact if_neg (h (Or.inl rfl))
  | mod => exact if_neg (h (Or.inr rfl))
  | _ => rfl

end CalcOp

/-- Expressions, as they are written. -/
inductive CalcTree where
  | lit (n : Nat)
  | paren (t : CalcTree)
  | bin (op : CalcOp) (l r : CalcTree)

def wrap (b : Bool) (s : CStr) : CStr := if b then '(' :: (s ++ [')']) else s

namespace CalcTree

def level : CalcTree → Nat
  | lit _ => 2
  | paren _ => 2
  | bin op _ _ => op.level

/-- Parentheses stand where the operand does not bind tight enough. -/
def text : CalcTree → CStr
  | lit n => Nat.toDigits 10 n
  | paren t => wrap true t.text
  | bin op l r =>
    wrap (decide (l.level < op.level)) l.text ++ (' ' :: op.char :: ' ' :: wrap (decide (r.level < op.level + 1)) r.text)

/-- The text of an operand of this level. -/
def textAt (level : Nat) (t : CalcTree) : CStr := wrap (decide (t.level < level)) t.text

theorem text_bin (op : CalcOp) (l r : CalcTree) :
    (bin op l r).text = l.textAt op.level ++ (' ' :: op.char :: ' ' :: r.textAt (op.level + 1)) := rfl

theorem textAt_of_le {t : CalcTree} {level : Nat} (h : level ≤ t.level) : t.textAt level = t.text := by
  simp [textAt, wrap, Nat.not_lt.mpr h]

theorem textAt_of_lt {t : CalcTree} {level : Nat} (h : t.level < level) : t.textAt level = '(' :: (t.text ++ [')']) := by
  simp [textAt, wrap, h]

def value : CalcTree → Ut64
  | lit n => BitVec.ofNat 64 n
  | paren t => t.value
  | bin op l r => op.value l.value r.value

/-- What the two arithmetics of the calculator make of the tree. -/
def pair : CalcTree → RNumCalcValue
  | lit n => nset (BitVec.ofNat 64 n)
  | paren t => t.pair
  | bin op l r => op.apply l.pair r.pair

/-- The literals satisfy a property. -/
def Literals (p : Nat → Prop) : CalcTree → Prop
  | lit n => p n
  | paren t => t.Literals p
  | bin _ l r => l.Literals p ∧ r.Literals p

/-- The divisors of the given operators satisfy a property. -/
def Divisors (ops : CalcOp → Prop) (p : CalcTree → Prop) : CalcTree → Prop
  | lit _ => True
  | paren t => t.Divisors ops p
  | bin op l r => l.Divisors ops p ∧ r.Divisors ops p ∧ (ops op → p r)

theorem Divisors.mono {ops ops' : CalcOp → Prop} {p : CalcTree → Prop} (hops : ∀ op, ops' op → ops op) {t : CalcTree}
    (h : t.Divisors ops p) : t.Divisors ops' p := by
  induction t with
  | lit n => trivial
  | paren t ih => exact ih h
  | bin op l r hl hr => exact ⟨hl h.1, hr h.2.1, fun hop => h.2.2 (hops op hop)⟩

/-- No divisor is zero modulo `2^64`. -/
def NoZeroDivisor (t : CalcTree) : Prop := t.Divisors (fun op => op = .div ∨ op = .mod) (fun r => r.value ≠ 0)

/-- No divisor of the given operators has a shadow of zero. -/
def ShadowsFine (ops : CalcOp → Prop) (t : CalcTree) : Prop := t.Divisors ops (fun r => r.pair.dZero = false)

/-- The integer half of the calculator is right. -/
theorem pair_n {t : CalcTree} (h : t.NoZeroDivisor) : t.pair.n = t.value := by
  induction t with
  | lit n => rfl
  | paren t ih => exact ih h
  | bin op l r hl hr =>
    obtain ⟨h1, h2, hne⟩ := h
    have hr' := hr h2
    have hop := op.apply_n l.pair r.pair fun hdiv => hr'.symm ▸ hne hdiv
    rwa [hl h1, hr'] at hop

end CalcTree

section Literals

/-- The characters of a decimal literal. -/
theorem literal_mem {n : Nat} {c : Char} (h : c ∈ Nat.toDigits 10 n) :
    c ∈ ['0', '1', '2', '3', '4', '5', '6', '7', '8', '9'] := by
  obtain ⟨d, hd, rfl⟩ := toDigits_mem (by decide) h
  interval_cases d <;> decide

/-- What holds of each of the ten digits holds of a character that is one of them. -/
theorem digit_cases {P : Char → Prop} {c : Char} (hc : c ∈ ['0', '1', '2', '3', '4', '5', '6', '7', '8', '9'])
    (h0 : P '0') (h1 : P '1') (h2 : P '2') (h3 : P '3') (h4 : P '4') (h5 : P '5') (h6 : P '6') (h7 : P '7') (h8 : P '8')
    (h9 : P '9') : P c := by
  simp only [List.mem_cons, List.not_mem_nil, or_false] at hc
  rcases hc with rfl | rfl | rfl | rfl | rfl | rfl | rfl | rfl | rfl | rfl <;> assumption

theorem literal_length {n : Nat} (h : n < 2 ^ 64) : (Nat.toDigits 10 n).length ≤ 20 :=
  (Nat.length_toDigits_le_iff (by decide) (by decide)).mpr (lt_trans h (by decide))

/-- A literal has no leading zero. -/
theorem literal_head_ne_zero {n : Nat} (h : 0 < n) : (Nat.toDigits 10 n)[0]? ≠ some '0' := by
  induction n using Nat.strongRecOn with
  | ind n ih =>
    by_cases hn : n < 10
    · rw [Nat.toDigits_of_lt_base hn]
      interval_cases n <;> decide
    · have hq : 0 < n / 10 := Nat.div_pos (by omega) (by decide)
      have hs := Nat.toDigits_append_toDigits (b := 10) (by decide) hq (Nat.mod_lt n (by decide))
      rw [Nat.div_add_mod] at hs
      obtain ⟨c, cs, hc⟩ := List.exists_cons_of_ne_nil (Nat.toDigits_ne_nil (n := n / 10) (b := 10))
      have hhead := ih (n / 10) (by omega) hq
      rw [hc] at hhead
      rw [← hs, hc]
      exact hhead

/-- A character that is no digit does not stand in a literal. -/
theorem literal_getElem_ne {c : Char} (hc : c ∉ ['0', '1', '2', '3', '4', '5', '6', '7', '8', '9']) (n i : Nat) :
    (Nat.toDigits 10 n)[i]? ≠ some c :=
  fun h => hc (literal_mem (List.mem_of_getElem? h))

theorem literal_cons (n : Nat) : ∃ c cs, Nat.toDigits 10 n = c :: cs ∧ c ∈ ['0', '1', '2', '3', '4', '5', '6', '7', '8', '9'] := by
  obtain ⟨c, cs, hc⟩ := List.exists_cons_of_ne_nil (Nat.toDigits_ne_nil (n := n) (b := 10))
  exact ⟨c, cs, hc, literal_mem (n := n) (by rw [hc]; exact List.mem_cons_self)⟩

theorem strtoull_saturates {n : Nat} (h : 2 ^ 64 ≤ n) : (strtoull 10 (Nat.toDigits 10 n)).1 = ut64Max := by
  simp only [strtoull, scanInteger_toDigits (b := 10) (by decide) (by decide)]
  rw [if_pos h]

theorem numSegment_literal (n : Nat) : numSegment (Nat.toDigits 10 n) = none := by
  have hcolon := literal_getElem_ne (c := ':') (by decide) n
  simp [numSegment, hcolon]

/-- A numeral has no radix letter and no prefix. -/
theorem numPlain_numeral {n : Nat} (hn : 0 < n) : numPlain (Nat.toDigits 10 n) = (strtoull 10 (Nat.toDigits 10 n)).1 := by
  have hzero := literal_head_ne_zero hn
  have hquote := literal_getElem_ne (c := Char.ofNat 39) (by decide) n 0
  have hlast : ∀ i : Nat, ((Nat.toDigits 10 n)[i]?).getD ' ' ∉ ['h', 'o', 'b', 'K', 'k', 'M', 'm', 'G', 'g'] := by
    intro i hmem
    cases hget : (Nat.toDigits 10 n)[i]? with
    | none =>
      rw [hget] at hmem
      exact absurd hmem (by decide)
    | some c =>
      rw [hget, Option.getD_some] at hmem
      have hdigit := literal_mem (List.mem_of_getElem? hget)
      revert hdigit
      simp only [List.mem_cons, List.not_mem_nil, or_false] at hmem
      rcases hmem with rfl | rfl | rfl | rfl | rfl | rfl | rfl | rfl | rfl <;> decide
  have hlast' := hlast (if 0 < charLen (Nat.toDigits 10 n) then (charLen (Nat.toDigits 10 n)).toNat - 1 else 0)
  simp only [List.mem_cons, List.not_mem_nil, or_false, not_or] at hlast'
  obtain ⟨hh, ho, hb, hK, hk, hM, hm, hG, hg⟩ := hlast'
  simp only [numPlain, hzero, hquote, false_and, if_false, hh, ho, hb, hK, hk, hM, hm, hG, hg, or_self]

theorem numPlain_literal {n : Nat} (h : n < 2 ^ 64) : numPlain (Nat.toDigits 10 n) = BitVec.ofNat 64 n := by
  rcases Nat.eq_zero_or_pos n with hn | hn
  · rw [hn]
    decide
  · rw [numPlain_numeral hn, strtoull_toDigits (b := 10) (by decide) (by decide) h]

end Literals

/-- A literal that fits the word, and that the callback does not resolve to another value. -/
def Fits (callback : Option (CStr → Option Ut64)) (n : Nat) : Prop :=
  n < 2 ^ 64 ∧ ∀ v, (callback.bind fun callback => callback (Nat.toDigits 10 n)) = some v → v = BitVec.ofNat 64 n

/-- The callback that there is, if there is a `num`. -/
def callbackOf (num : Option RNum) : Option (Option (CStr → Option Ut64)) := num.map fun num => num.callback

theorem rNumGetWith_frame (num : Option RNum) (str : CStr) :
    ((rNumGetWith num str).2.map fun num => (num.callback, num.dbz)) = num.map fun num => (num.callback, num.dbz) := by
  rw [rNumGetWith]
  split
  · rfl
  · split
    · rfl
    · split
      · rfl
      · split
        · rfl
        · cases num <;> rfl

/-- A numeral is what the callback makes of it, and else what it says. -/
theorem rNumGetWith_numeral (num : Option RNum) (n : Nat) :
    (rNumGetWith num (Nat.toDigits 10 n)).1 =
      ((callbackOf num).join.bind fun callback => callback (Nat.toDigits 10 n)).getD (numPlain (Nat.toDigits 10 n)) := by
  obtain ⟨c, cs, hc, hmem⟩ := literal_cons n
  have hblank : (Nat.toDigits 10 n).dropWhile (· = ' ') = Nat.toDigits 10 n := by
    rw [hc]
    apply List.dropWhile_cons_of_neg
    apply digit_cases hmem <;> decide
  have hquote := literal_getElem_ne (c := Char.ofNat 39) (by decide) n 0
  have hjoin : (num.bind fun num => num.callback.bind fun callback => callback (Nat.toDigits 10 n)) =
      (callbackOf num).join.bind fun callback => callback (Nat.toDigits 10 n) := by
    cases num <;> rfl
  rw [rNumGetWith, hblank, if_neg Nat.toDigits_ne_nil, hjoin]
  cases (callbackOf num).join.bind fun callback => callback (Nat.toDigits 10 n) with
  | some v => rfl
  | none =>
    dsimp only
    rw [if_neg (fun hq => hquote hq.1), numSegment_literal]
    rfl

theorem rNumGetWith_literal {num : Option RNum} {n : Nat} (h : Fits (callbackOf num).join n) :
    (rNumGetWith num (Nat.toDigits 10 n)).1 = BitVec.ofNat 64 n := by
  obtain ⟨hn, hcallback⟩ := h
  rw [rNumGetWith_numeral]
  cases hget : (callbackOf num).join.bind fun callback => callback (Nat.toDigits 10 n) with
  | some v => exact hcallback v hget
  | none => exact numPlain_literal hn

theorem putback_pending (nc : RNumCalc) (unread : CStr) : (nc.putback unread).pending = unread := by
  cases unread <;> rfl

/-- What reading a token does not touch. -/
def CalcState.frame (st : CalcState) : Int × Option String × Option (Option (CStr → Option Ut64) × Int) :=
  (st.nc.errors, st.nc.calcErr, st.num.map fun num => (num.callback, num.dbz))

/-- `st'` comes of reading a token in `st`. -/
structure Reads (st st' : CalcState) (tok : RNumCalcToken) (input : CStr) : Prop where
  token : st'.nc.currTok = tok
  pending : st'.nc.pending = input
  frame : st'.frame = st.frame

theorem callbackOf_frame {st st' : CalcState} (h : st'.frame = st.frame) : callbackOf st'.num = callbackOf st.num := by
  have hnum := congrArg (fun f => f.2.2.map Prod.fst) h
  simpa [CalcState.frame, callbackOf, Function.comp_def] using hnum

section Tokens

variable (scanDouble : CStr → Option Float) (st : CalcState)

/-- A numeral up to a character that is none of a number, cut to what the buffer holds. -/
theorem cinGetNum_numeral (n : Nat) {rest : CStr} (hin : st.nc.pending = Nat.toDigits 10 n ++ rest)
    (hrest : ∀ c, rest.head? = some c → isNumberChar c = false) :
    cinGetNum scanDouble st =
      (true, ⟨(rNumGetWith st.num ((Nat.toDigits 10 n).take 1024)).2,
        { st.nc.putback rest with numberValue := nset (rNumGetWith st.num ((Nat.toDigits 10 n).take 1024)).1 }⟩) := by
  have hnumber : ∀ c ∈ Nat.toDigits 10 n, isNumberChar c = true := by
    intro c hc
    apply digit_cases (literal_mem hc) <;> decide
  have htake : rest.takeWhile isNumberChar = [] ∧ rest.dropWhile isNumberChar = rest := by
    cases rest with
    | nil => exact ⟨rfl, rfl⟩
    | cons c cs =>
      have hc := hrest c rfl
      exact ⟨List.takeWhile_cons_of_neg (by simp [hc]), List.dropWhile_cons_of_neg (by simp [hc])⟩
  have hpoint : '.' ∉ (Nat.toDigits 10 n).take 1024 :=
    fun hmem => absurd (literal_mem (List.mem_of_mem_take hmem)) (by decide)
  rw [cinGetNum, hin, List.takeWhile_append_of_pos hnumber, List.dropWhile_append_of_pos hnumber, htake.1, htake.2,
    List.append_nil]
  exact if_neg fun hd => hpoint hd.2

theorem getToken_numeral (n : Nat) {rest : CStr} (hin : st.nc.pending.dropWhile isBlank = Nat.toDigits 10 n ++ rest)
    (hrest : ∀ c, rest.head? = some c → isNumberChar c = false) :
    Reads st (getToken scanDouble st) .rncNumber rest ∧
      (getToken scanDouble st).nc.numberValue = nset (rNumGetWith st.num ((Nat.toDigits 10 n).take 1024)).1 := by
  obtain ⟨c, cs, hc, hmem⟩ := literal_cons n
  have hplain : ¬(c = ';' ∨ c = '\n') ∧ c ≠ '+' ∧ c ≠ '~' ∧ c ≠ '-' ∧ charToken c = none ∧
      ((decide ('0' ≤ c) && decide (c ≤ '9')) || decide (c = '.')) = true := by
    apply digit_cases hmem <;> decide
  obtain ⟨hend, hplus, htilde, hminus, htoken, hdigit⟩ := hplain
  have hread := cinGetNum_numeral scanDouble { st with nc := { st.nc with oc := some c, rest := cs ++ rest } } n
    (by rw [hc]; rfl) hrest
  have heq : getToken scanDouble st =
      ⟨(rNumGetWith st.num ((Nat.toDigits 10 n).take 1024)).2,
        { st.nc.putback rest with
          numberValue := nset (rNumGetWith st.num ((Nat.toDigits 10 n).take 1024)).1, currTok := .rncNumber }⟩ := by
    have hin' : st.nc.pending.dropWhile isBlank = c :: (cs ++ rest) := by
      rw [hin, hc]
      rfl
    rw [getToken, hin']
    dsimp only
    rw [if_neg hend, if_neg hplus, if_neg htilde, if_neg hminus, htoken]
    dsimp only
    rw [if_pos hdigit, hread]
    rfl
  rw [heq]
  refine ⟨⟨rfl, putback_pending st.nc rest, ?_⟩, rfl⟩
  simp only [CalcState.frame, RNumCalc.putback, rNumGetWith_frame]

theorem getToken_literal {n : Nat} (h : Fits (callbackOf st.num).join n) {rest : CStr}
    (hin : st.nc.pending.dropWhile isBlank = Nat.toDigits 10 n ++ rest)
    (hrest : ∀ c, rest.head? = some c → isNumberChar c = false) :
    Reads st (getToken scanDouble st) .rncNumber rest ∧
      (getToken scanDouble st).nc.numberValue = nset (BitVec.ofNat 64 n) := by
  have hlen : (Nat.toDigits 10 n).length ≤ 1024 := (literal_length h.1).trans (by decide)
  have htoken := getToken_numeral scanDouble st n hin hrest
  rwa [List.take_of_length_le hlen, rNumGetWith_literal h] at htoken

theorem getToken_op (o : CalcOp) {more : CStr} (hin : st.nc.pending.dropWhile isBlank = o.char :: ' ' :: more) :
    Reads st (getToken scanDouble st) o.token (' ' :: more) := by
  constructor <;> rw [getToken, hin] <;> cases o <;> rfl

theorem getToken_open {more : CStr} (hin : st.nc.pending.dropWhile isBlank = '(' :: more) :
    Reads st (getToken scanDouble st) .rncLeftp more := by
  constructor <;> rw [getToken, hin] <;> rfl

end Tokens

/-- What stands behind an operand: its first token and the text behind that. -/
inductive Follow : CStr → RNumCalcToken → CStr → Prop
  | done : Follow [] .rncEnd []
  | close (more : CStr) : Follow (')' :: more) .rncRightp more
  | op (o : CalcOp) (more : CStr) : Follow (' ' :: o.char :: ' ' :: more) o.token (' ' :: more)

theorem Follow.stop {rest more : CStr} {tok : RNumCalcToken} (h : Follow rest tok more) :
    ∀ c, rest.head? = some c → isNumberChar c = false := by
  intro c hc
  cases h with
  | done => cases hc
  | close =>
    cases hc
    decide
  | op =>
    cases hc
    decide

theorem Follow.getToken (scanDouble : CStr → Option Float) {st : CalcState} {rest more : CStr} {tok : RNumCalcToken}
    (h : Follow rest tok more) (hin : st.nc.pending = rest) : Reads st (getToken scanDouble st) tok more := by
  cases h with
  | done => constructor <;> rw [Calc.getToken, hin] <;> rfl
  | close => constructor <;> rw [Calc.getToken, hin] <;> rfl
  | op o more =>
    apply getToken_op
    rw [hin]
    cases o <;> rfl

/-- No text of an operand begins with a blank. -/
theorem textAt_head (level : Nat) (t : CalcTree) : ∃ c cs, t.textAt level = c :: cs ∧ isBlank c = false := by
  by_cases hparen : t.level < level
  · exact ⟨_, _, CalcTree.textAt_of_lt hparen, by decide⟩
  rw [CalcTree.textAt_of_le (Nat.le_of_not_lt hparen)]
  clear hparen
  induction t with
  | lit n =>
    obtain ⟨c, cs, hc, hmem⟩ := literal_cons n
    refine ⟨c, cs, hc, ?_⟩
    apply digit_cases hmem <;> decide
  | paren t => exact ⟨_, _, rfl, by decide⟩
  | bin op l r ihl =>
    rw [CalcTree.text_bin]
    by_cases hl : l.level < op.level
    · exact ⟨_, _, by rw [CalcTree.textAt_of_lt hl]; rfl, by decide⟩
    · obtain ⟨c, cs, hc, hblank⟩ := ihl
      exact ⟨c, _, by rw [CalcTree.textAt_of_le (Nat.le_of_not_lt hl), hc]; rfl, hblank⟩

theorem textAt_blank (level : Nat) (t : CalcTree) (rest : CStr) :
    (' ' :: (t.textAt level ++ rest)).dropWhile isBlank = t.textAt level ++ rest ∧
      (t.textAt level ++ rest).dropWhile isBlank = t.textAt level ++ rest := by
  obtain ⟨c, cs, hc, hblank⟩ := textAt_head level t
  have hdrop : (t.textAt level ++ rest).dropWhile isBlank = t.textAt level ++ rest := by
    rw [hc]
    exact List.dropWhile_cons_of_neg (by simp [hblank])
  exact ⟨hdrop, hdrop⟩

end Radare.Calc
