import Radare.Util.Str

namespace Radare.Calc

/-- An integer and its shadow in floating point. -/
structure RNumCalcValue where
  d : Float
  n : Ut64

def toDouble (v : Ut64) : Float := (UInt64.ofBitVec v).toFloat

/-- The test `!v.d`. -/
def RNumCalcValue.dZero (v : RNumCalcValue) : Bool := v.d == 0

def nset (v : Ut64) : RNumCalcValue := ⟨toDouble v, v⟩

/-- C leaves the conversion of a value above `2^64` open; `Float.toUInt64` takes the greatest integer. -/
def nsetf (v : Float) : RNumCalcValue := ⟨v, v.toUInt64.toBitVec⟩

def naddi (n : RNumCalcValue) (v : Ut64) : RNumCalcValue := ⟨n.d + toDouble v, n.n + v⟩

def nneg (n : RNumCalcValue) : RNumCalcValue := ⟨n.d, ~~~n.n⟩

/-- The bit operations take over the shadow of their second operand. -/
def norr (n v : RNumCalcValue) : RNumCalcValue := ⟨v.d, n.n ||| v.n⟩

def nxor (n v : RNumCalcValue) : RNumCalcValue := ⟨v.d, n.n ^^^ v.n⟩

def nand (n v : RNumCalcValue) : RNumCalcValue := ⟨v.d, n.n &&& v.n⟩

def nadd (n v : RNumCalcValue) : RNumCalcValue := ⟨n.d + v.d, n.n + v.n⟩

def nsub (n v : RNumCalcValue) : RNumCalcValue := ⟨n.d - v.d, n.n - v.n⟩

def nmul (n v : RNumCalcValue) : RNumCalcValue := ⟨n.d * v.d, n.n * v.n⟩

/-- The shadow of a shift is a sum; the processor takes the count modulo 64. -/
def nshl (n v : RNumCalcValue) : RNumCalcValue := ⟨n.d + v.d, n.n <<< (v.n.toNat % 64)⟩

def nshr (n v : RNumCalcValue) : RNumCalcValue := ⟨n.d + v.d, n.n >>> (v.n.toNat % 64)⟩

def nmod (n v : RNumCalcValue) : RNumCalcValue :=
  ⟨if v.dZero then 0 else n.d - n.d / v.d, if v.n = 0 then 0 else n.n % v.n⟩

def ndiv (n v : RNumCalcValue) : RNumCalcValue :=
  ⟨if v.dZero then 0 else n.d / v.d, if v.n = 0 then 0 else n.n / v.n⟩

inductive RNumCalcToken where
  | rncName
  | rncNumber
  | rncEnd
  | rncInc
  | rncDec
  | rncPlus
  | rncMinus
  | rncMul
  | rncDiv
  | rncMod
  | rncNeg
  | rncAnd
  | rncOrr
  | rncXor
  | rncPrint
  | rncAssign
  | rncLeftp
  | rncRightp
  | rncShl
  | rncShr
  deriving DecidableEq

/-- The characters that are tokens by themselves. -/
def charToken (c : Char) : Option RNumCalcToken :=
  if c = '^' then some .rncXor
  else if c = '&' then some .rncAnd
  else if c = '|' then some .rncOrr
  else if c = '*' then some .rncMul
  else if c = '%' then some .rncMod
  else if c = '/' then some .rncDiv
  else if c = '(' then some .rncLeftp
  else if c = ')' then some .rncRightp
  else if c = '<' then some .rncShl
  else if c = '>' then some .rncShr
  else if c = '=' then some .rncAssign
  else none

/-- `rest` is `calc_buf` from `calc_i` on; `oc` is the character put back. -/
structure RNumCalc where
  currTok : RNumCalcToken
  numberValue : RNumCalcValue
  stringValue : CStr
  errors : Int
  oc : Option Char
  calcErr : Option String
  rest : CStr

/-- The characters that `cin_get` gives, one after another. -/
def RNumCalc.pending (nc : RNumCalc) : CStr := nc.oc.toList ++ nc.rest

/-- `callback` resolves names from their text alone and leaves `nc` as it is, unlike one that calls `r_num_calc` again on
the same `RNum`; it answers `none` where it leaves `ok` at zero. -/
structure RNum where
  callback : Option (CStr → Option Ut64)
  value : Ut64
  fvalue : Float
  dbz : Int

structure CalcState where
  num : Option RNum
  nc : RNumCalc

def error (st : CalcState) (s : String) : CalcState :=
  { st with nc := { st.nc with errors := st.nc.errors + 1, calcErr := some s } }

/-- `r_num_get`, with the callback of `num`; the quoted and the segmented forms do not reach `num->value`. -/
def rNumGetWith (num : Option RNum) (str : CStr) : Ut64 × Option RNum :=
  let str := str.dropWhile (· = ' ')
  if str = [] then (0, num)
  else
    match num.bind fun num => num.callback.bind fun callback => callback str with
    | some ret => (ret, num)
    | none =>
      if str[0]? = some (Char.ofNat 39) ∧ str[2]? = some (Char.ofNat 39) then (rNumGet str, num)
      else
        match numSegment str with
        | some ret => (ret, num)
        | none => (numPlain str, num.map fun num => { num with value := numPlain str })

def isAlnum (c : Char) : Bool :=
  (decide ('0' ≤ c) && decide (c ≤ '9')) || (decide ('a' ≤ c) && decide (c ≤ 'z')) || (decide ('A' ≤ c) && decide (c ≤ 'Z'))

/-- The input behind the characters that were read: the last one is put back. -/
def RNumCalc.putback (nc : RNumCalc) (unread : CStr) : RNumCalc :=
  { nc with oc := unread.head?, rest := unread.tail }

/-- White space but for the end of a line. -/
def isBlank (c : Char) : Bool := c ≠ '\n' && isSpace c

def isNumberChar (c : Char) : Bool := c = ':' || c = '.' || isAlnum c

section
variable (scanDouble : CStr → Option Float)

/-- `cin_get_num`: the characters that fit `str`; `scanDouble` stands for the conversion `%lf` of `sscanf`. -/
def cinGetNum (st : CalcState) : Bool × CalcState :=
  let str := (st.nc.pending.takeWhile isNumberChar).take 1024
  let nc := st.nc.putback (st.nc.pending.dropWhile isNumberChar)
  let (v, num) := rNumGetWith st.num str
  let nc := { nc with numberValue := nset v }
  if (str.head?.map fun c => decide ('0' ≤ c) && decide (c ≤ '9')).getD false ∧ '.' ∈ str then
    match scanDouble str with
    | none => (false, ⟨num, nc⟩)
    | some d => (true, ⟨num, { nc with numberValue := nsetf d }⟩)
  else (true, ⟨num, nc⟩)

def isValidChar (c : Char) : Bool := isAlnum c || c ∈ [':', '$', '.', '_', '?', '\\', ' ', '[', ']', '\x7d', '\x7b']

/-- The name that begins with `ch`. At the end of the input there is no character behind it, and none is put back. -/
def nameToken (nc : RNumCalc) (ch : Char) (input : CStr) : RNumCalc :=
  let inName : Char → Bool := if ch = '[' then fun c => c ≠ ']' else isValidChar
  let body := input.takeWhile inName
  let behind := input.dropWhile inName
  let last := behind.head?
  let name := if ch = '[' then ch :: body ++ last.toList else ch :: body
  { nc with
    stringValue := name.take 1023
    oc := if last = some (Char.ofNat 39) then none else last
    rest := behind.tail
    currTok := .rncName }

/-- `get_token`. Behind `+`, `-` and `~` one more character is read. -/
def getToken (st : CalcState) : CalcState :=
  match st.nc.pending.dropWhile isBlank with
  | [] => { st with nc := { st.nc with oc := none, rest := [], currTok := .rncEnd } }
  | ch :: input =>
    let taken (tok : RNumCalcToken) (rest : CStr) : CalcState :=
      { st with nc := { st.nc with oc := none, rest := rest, currTok := tok } }
    let read (tok : RNumCalcToken) : CalcState := { st with nc := { st.nc.putback input with currTok := tok } }
    if ch = ';' ∨ ch = '\n' then taken .rncEnd input
    else if ch = '+' then if input.head? = some '+' then taken .rncInc input.tail else read .rncPlus
    else if ch = '~' then if input.head? = some '-' then taken .rncNeg input.tail else read .rncNeg
    else if ch = '-' then if input.head? = some '-' then taken .rncDec input.tail else read .rncMinus
    else
      match charToken ch with
      | some tok => taken tok input
      | none =>
        if (decide ('0' ≤ ch) && decide (ch ≤ '9')) || ch = '.' then
          match cinGetNum scanDouble { st with nc := { st.nc with oc := some ch, rest := input } } with
          | (false, st) => error st "invalid number conversion"
          | (true, st) => { st with nc := { st.nc with currTok := .rncNumber } }
        else { st with nc := nameToken st.nc ch input }

/-- The operators of `expr`. -/
def exprOp : RNumCalcToken → Option (RNumCalcValue → RNumCalcValue → RNumCalcValue)
  | .rncShl => some nshl
  | .rncShr => some nshr
  | .rncPlus => some nadd
  | .rncMinus => some nsub
  | .rncXor => some nxor
  | .rncOrr => some norr
  | .rncAnd => some nand
  | _ => none

mutual

def expr : Nat → Bool → CalcState → Option (RNumCalcValue × CalcState)
  | 0, _, _ => none
  | fuel + 1, get, st => do
    let (left, st) ← term fuel get st
    exprLoop fuel left st

def exprLoop : Nat → RNumCalcValue → CalcState → Option (RNumCalcValue × CalcState)
  | 0, _, _ => none
  | fuel + 1, left, st =>
    match exprOp st.nc.currTok with
    | none => some (left, st)
    | some op => do
      let (v, st) ← term fuel true st
      exprLoop fuel (op left v) st

def term : Nat → Bool → CalcState → Option (RNumCalcValue × CalcState)
  | 0, _, _ => none
  | fuel + 1, get, st => do
    let (left, st) ← prim fuel get st
    termLoop fuel left st

/-- A division by a zero, or by a shadow of zero, ends the term with the divisor. -/
def termLoop : Nat → RNumCalcValue → CalcState → Option (RNumCalcValue × CalcState)
  | 0, _, _ => none
  | fuel + 1, left, st =>
    if st.nc.currTok = .rncMul then do
      let (d, st) ← prim fuel true st
      termLoop fuel (nmul left d) st
    else if st.nc.currTok = .rncMod then do
      let (d, st) ← prim fuel true st
      if d.dZero then some (d, st) else termLoop fuel (nmod left d) st
    else if st.nc.currTok = .rncDiv then do
      let (d, st) ← prim fuel true st
      match st.num with
      | none => termLoop fuel (ndiv left d) st
      | some num =>
        if d.dZero ∨ d.n = 0 then some (d, { st with num := some { num with dbz := 1 } })
        else termLoop fuel (ndiv left d) st
    else some (left, st)

/-- The increments behind a name are computed and dropped. -/
def prim : Nat → Bool → CalcState → Option (RNumCalcValue × CalcState)
  | 0, _, _ => none
  | fuel + 1, get, st =>
    let st := if get then getToken scanDouble st else st
    match st.nc.currTok with
    | .rncNumber => some (st.nc.numberValue, getToken scanDouble st)
    | .rncName =>
      let str := rStrChop st.nc.stringValue
      let (v, num) := rNumGetWith st.num str
      let st := getToken scanDouble ⟨num, { st.nc with stringValue := str }⟩
      if st.nc.currTok = .rncAssign then expr fuel true st else some (nset v, st)
    | .rncNeg =>
      let st := getToken scanDouble st
      some (nneg st.nc.numberValue, st)
    | .rncInc => do
      let (v, st) ← prim fuel true st
      some (naddi v 1, st)
    | .rncDec => do
      let (v, st) ← prim fuel true st
      some (naddi v (-1), st)
    | .rncOrr => do
      let (v, st) ← prim fuel true st
      some (norr ⟨0, 0⟩ v, st)
    | .rncMinus => do
      let (v, st) ← prim fuel true st
      some (nsub ⟨0, 0⟩ v, st)
    | .rncLeftp => do
      let (v, st) ← expr fuel true st
      if st.nc.currTok = .rncRightp then some (v, getToken scanDouble st) else some (v, error st " ')' expected")
    | _ => some (⟨0, 0⟩, st)

end

/-- `r_num_calc` with an error pointer; `nc` is what `num->nc` or the local holds before. -/
def rNumCalc (fuel : Nat) (num : Option RNum) (nc : RNumCalc) (str : CStr) : Option (Ut64 × CalcState) :=
  if str = [] then some (0, ⟨num, nc⟩)
  else do
    let num := num.map fun num => { num with dbz := 0 }
    let nc : RNumCalc :=
      { nc with currTok := .rncPrint, numberValue := ⟨0, 0⟩, errors := 0, oc := none, calcErr := none, rest := str }
    let (n, st) ← expr scanDouble fuel false (getToken scanDouble ⟨num, nc⟩)
    some (n.n, { st with num := st.num.map fun num => { num with fvalue := n.d } })

end

end Radare.Calc
