import Radare.Util.Calc

namespace Radare.CalcScan

open Calc (RNumCalcValue RNumCalcToken RNum rNumGetWith isNumberChar isValidChar charToken exprOp
  nset nsetf naddi nneg norr nsub nmul nmod ndiv)

/-- `calcI` counts the characters taken from the text; the index `calc_i` is an `int`. -/
structure RNumCalc where
  currTok : RNumCalcToken
  numberValue : RNumCalcValue
  stringValue : CStr
  errors : Int
  oc : Option Char
  calcErr : Option String
  calcBuf : CStr
  calcI : Nat

/-- The indices at which a run reads `calc_buf` and stores into `str` and into `string_value`, and the input that each
call of `get_token` finds. -/
structure Accesses where
  reads : List Int
  str : List Nat
  stringValue : List Nat
  calls : List CStr

structure CalcState where
  num : Option RNum
  nc : RNumCalc
  log : Accesses

/-- The part of the text with an index that does not overflow. -/
def RNumCalc.text (nc : RNumCalc) : CStr := nc.calcBuf.take (2 ^ 31)

/-- The characters that `cin_get` gives, one after another. -/
def CalcState.pending (st : CalcState) : CStr := st.nc.oc.toList ++ st.nc.text.drop st.nc.calcI

def error (st : CalcState) (s : String) : CalcState :=
  { st with nc := { st.nc with errors := st.nc.errors + 1, calcErr := some s } }

def cinPutback (st : CalcState) (c : Option Char) : CalcState := { st with nc := { st.nc with oc := c } }

/-- `cin_get`; at the terminator it stores a zero and answers that there is nothing. Where the index is negative, C leaves
the character open, and here there is none. -/
def cinGet (st : CalcState) : Option Char × CalcState :=
  match st.nc.oc with
  | some c => (some c, { st with nc := { st.nc with oc := none } })
  | none =>
    let st := { st with log := { st.log with reads := st.log.reads ++ [wrapInt st.nc.calcI] } }
    match st.nc.text[st.nc.calcI]? with
    | some c => (some c, { st with nc := { st.nc with calcI := st.nc.calcI + 1 } })
    | none => (none, st)

theorem cinGet_pending {st st' : CalcState} {c : Char} (h : cinGet st = (some c, st')) : st.pending = c :: st'.pending := by
  obtain ⟨num, ⟨tok, number, string, errors, oc, err, buf, i⟩, log⟩ := st
  cases oc with
  | some d =>
    obtain ⟨hd, rfl⟩ := Prod.mk.inj h
    obtain rfl := Option.some.inj hd
    rfl
  | none =>
    simp only [cinGet] at h
    split at h
    · rename_i d hget
      obtain ⟨hd, rfl⟩ := Prod.mk.inj h
      obtain rfl := Option.some.inj hd
      obtain ⟨hi, rfl⟩ := List.getElem?_eq_some_iff.mp hget
      exact List.drop_eq_getElem_cons hi
    · cases (Prod.mk.inj h).1

/-- The loop in front of a token. -/
def skipBlanks (st : CalcState) : Option Char × CalcState :=
  match _h : cinGet st with
  | (none, st') => (none, st')
  | (some ch, st') => if Calc.isBlank ch then skipBlanks st' else (some ch, st')
termination_by st.pending.length
decreasing_by
  rw [cinGet_pending _h]
  exact Nat.lt_succ_self _

def storeStr (st : CalcState) (i : Nat) : CalcState := { st with log := { st.log with str := st.log.str ++ [i] } }

/-- The loop of `cin_get_num`; `str` holds `i` characters. -/
def numLoop (str : CStr) (st : CalcState) : CStr × CalcState :=
  match _h : cinGet st with
  | (none, st') => (str, st')
  | (some c, st') =>
    if isNumberChar c = false then (str, cinPutback st' (some c))
    else if str.length < 1024 then numLoop (str ++ [c]) (storeStr st' str.length)
    else numLoop str st'
termination_by st.pending.length
decreasing_by
  all_goals
    rw [cinGet_pending _h]
    exact Nat.lt_succ_self _

section
variable (scanDouble : CStr → Option Float)

/-- `cin_get_num`. The zero behind the characters is stored without a test. -/
def cinGetNum (st : CalcState) : Bool × CalcState :=
  let (str, st) := numLoop [] (storeStr st 0)
  let st := storeStr st str.length
  let (v, num) := rNumGetWith st.num str
  let st : CalcState := { st with num := num, nc := { st.nc with numberValue := nset v } }
  if (str.head?.map fun c => decide ('0' ≤ c) && decide (c ≤ '9')).getD false ∧ '.' ∈ str then
    match scanDouble str with
    | none => (false, st)
    | some d => (true, { st with nc := { st.nc with numberValue := nsetf d } })
  else (true, st)

/-- `stringValueAppend`; `x` is `none` for the zero. `stringValue` keeps the characters up to the index `i`. -/
def stringValueAppend (x : Option Char) (i : Nat) (st : CalcState) : Nat × CalcState :=
  let stored (i : Nat) (value : CStr) : CalcState :=
    { st with
      nc := { st.nc with stringValue := value }
      log := { st.log with stringValue := st.log.stringValue ++ [i] } }
  if i < 1023 then (i + 1, stored i (st.nc.stringValue.take i ++ x.toList))
  else (i, stored 1023 (st.nc.stringValue.take 1023))

theorem stringValueAppend_pending (x : Option Char) (i : Nat) (st : CalcState) :
    (stringValueAppend x i st).2.pending = st.pending := by
  unfold stringValueAppend
  split <;> rfl

/-- The loops over a name: the character behind it, or the state in which the name is refused. -/
def nameLoop (inName : Char → Bool) (i : Nat) (st : CalcState) : Except CalcState (Option Char × Nat × CalcState) :=
  match _h : cinGet st with
  | (none, st') => .ok (none, i, st')
  | (some ch, st') =>
    if inName ch = false then .ok (some ch, i, st')
    else if 1024 ≤ i then .error (error st' "string too long")
    else nameLoop inName (stringValueAppend (some ch) i st').1 (stringValueAppend (some ch) i st').2
termination_by st.pending.length
decreasing_by
  rw [cinGet_pending _h, stringValueAppend_pending]
  exact Nat.lt_succ_self _

def setToken (st : CalcState) (tok : RNumCalcToken) : CalcState := { st with nc := { st.nc with currTok := tok } }

/-- The name that begins with `ch`; a quote behind it is not put back. -/
def nameToken (ch : Char) (st : CalcState) : CalcState :=
  let (i, st) := stringValueAppend (some ch) 0 st
  match nameLoop (if ch = '[' then fun c => c ≠ ']' else isValidChar) i st with
  | .error st => st
  | .ok (last, i, st) =>
    let (i, st) := if ch = '[' then stringValueAppend last i st else (i, st)
    let (_, st) := stringValueAppend none i st
    setToken (if last = some (Char.ofNat 39) then st else cinPutback st last) .rncName

/-- Behind `+`, `-` and `~` one more character is read. -/
def pairToken (second : Char) (pair single : RNumCalcToken) (st : CalcState) : CalcState :=
  match cinGet st with
  | (some c, st) => if c = second then setToken st pair else setToken (cinPutback st (some c)) single
  | (none, st) => setToken (cinPutback st none) single

/-- The characters that begin a number. -/
def startsNumber (c : Char) : Bool := (decide ('0' ≤ c) && decide (c ≤ '9')) || c = '.'

/-- A call of `get_token` is on record. -/
def called (st : CalcState) : CalcState := { st with log := { st.log with calls := st.log.calls ++ [st.pending] } }

def getToken (st : CalcState) : CalcState :=
  match skipBlanks (called st) with
  | (none, st) => setToken st .rncEnd
  | (some ch, st) =>
    if ch = ';' ∨ ch = '\n' then setToken st .rncEnd
    else if ch = '+' then pairToken '+' .rncInc .rncPlus st
    else if ch = '~' then pairToken '-' .rncNeg .rncNeg st
    else if ch = '-' then pairToken '-' .rncDec .rncMinus st
    else
      match charToken ch with
      | some tok => setToken st tok
      | none =>
        if startsNumber ch then
          match cinGetNum scanDouble (cinPutback st (some ch)) with
          | (false, st) => error st "invalid number conversion"
          | (true, st) => setToken st .rncNumber
        else nameToken ch st

/-- `r_num_get` of the name in `string_value`, where `r_str_chop` leaves it without blanks around it. -/
def resolveName (st : CalcState) : Ut64 × CalcState :=
  let str := rStrChop st.nc.stringValue
  let (v, num) := rNumGetWith st.num str
  (v, ⟨num, { st.nc with stringValue := str }, st.log⟩)

mutual

def expr : Nat → Bool → CalcState → Option (RNumCalcValue × CalcState)
  | 0, _, _ => none
  | fuel + 1, get, st => do
    let (left, st) ← term fuel get st
    exprLoop fuel left st

def exprLoop : Nat → RNumCalcValue → CalcState → Option (RNumCalcValue × CalcState)
  | 0, _, _ => none
  | fuel + 1, left, st =>
    match exprOp st.nc.currTok with
    | none => some (left, st)
    | some op => do
      let (v, st) ← term fuel true st
      exprLoop fuel (op left v) st

def term : Nat → Bool → CalcState → Option (RNumCalcValue × CalcState)
  | 0, _, _ => none
  | fuel + 1, get, st => do
    let (left, st) ← prim fuel get st
    termLoop fuel left st

def termLoop : Nat → RNumCalcValue → CalcState → Option (RNumCalcValue × CalcState)
  | 0, _, _ => none
  | fuel + 1, left, st =>
    if st.nc.currTok = .rncMul then do
      let (d, st) ← prim fuel true st
      termLoop fuel (nmul left d) st
    else if st.nc.currTok = .rncMod then do
      let (d, st) ← prim fuel true st
      if d.dZero then some (d, st) else termLoop fuel (nmod left d) st
    else if st.nc.currTok = .rncDiv then do
      let (d, st) ← prim fuel true st
      match st.num with
      | none => termLoop fuel (ndiv left d) st
      | some num =>
        if d.dZero ∨ d.n = 0 then some (d, { st with num := some { num with dbz := 1 } })
        else termLoop fuel (ndiv left d) st
    else some (left, st)

def prim : Nat → Bool → CalcState → Option (RNumCalcValue × CalcState)
  | 0, _, _ => none
  | fuel + 1, get, st =>
    let st := if get then getToken scanDouble st else st
    match st.nc.currTok with
    | .rncNumber => some (st.nc.numberValue, getToken scanDouble st)
    | .rncName =>
      let (v, st) := resolveName st
      let st := getToken scanDouble st
      if st.nc.currTok = .rncAssign then expr fuel true st else some (nset v, st)
    | .rncNeg =>
      let st := getToken scanDouble st
      some (nneg st.nc.numberValue, st)
    | .rncInc => do
      let (v, st) ← prim fuel true st
      some (naddi v 1, st)
    | .rncDec => do
      let (v, st) ← prim fuel true st
      some (naddi v (-1), st)
    | .rncOrr => do
      let (v, st) ← prim fuel true st
      some (norr ⟨0, 0⟩ v, st)
    | .rncMinus => do
      let (v, st) ← prim fuel true st
      some (nsub ⟨0, 0⟩ v, st)
    | .rncLeftp => do
      let (v, st) ← expr fuel true st
      if st.nc.currTok = .rncRightp then some (v, getToken scanDouble st) else some (v, error st " ')' expected")
    | _ => some (⟨0, 0⟩, st)

end

/-- The state in which `r_num_calc` asks for the first token. The test for an empty text has read its first character. -/
def startState (num : Option RNum) (nc : RNumCalc) (str : CStr) : CalcState :=
  ⟨num.map fun num => { num with dbz := 0 },
    { nc with
      currTok := .rncPrint, numberValue := ⟨0, 0⟩, errors := 0, oc := none, calcErr := none, calcBuf := str, calcI := 0 },
    ⟨[0], [], [], []⟩⟩

def rNumCalc (fuel : Nat) (num : Option RNum) (nc : RNumCalc) (str : CStr) : Option (Ut64 × CalcState) :=
  if str = [] then some (0, ⟨num, nc, ⟨[0], [], [], []⟩⟩)
  else do
    let (n, st) ← expr scanDouble fuel false (getToken scanDouble (startState num nc str))
    some (n.n, { st with num := st.num.map fun num => { num with fvalue := n.d } })

end

end Radare.CalcScan
