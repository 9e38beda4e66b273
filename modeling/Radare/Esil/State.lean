import Radare.Framework.Memory
import Radare.Util.Num

namespace Radare

structure RRegItem where
  name : CStr
  size : Nat

/-- The settings of the analysis module that the emulator reads. -/
structure RAnal where
  bits : Int
  bigEndian : Bool
  esilGotoLimit : Int

/-- The recorder of the ESIL to REIL translation, as far as `runword` drives it. -/
structure RAnalReil where
  addr : Ut64
  skip : Bool
  cmdCount : Int
  ifBuf : CStr

/-- The emulator state. The stack is listed from its top; `mem` and `reg` are the memory and
the register file behind the callbacks. -/
structure Esil (R : Type) where
  anal : Option RAnal
  stack : List CStr
  stacksize : Int
  skip : Bool
  nowrite : Bool
  iotrap : Bool
  repeatFlag : Bool
  parseStop : Int
  parseGoto : Int
  parseGotoCount : Int
  address : Ut64
  delay : Int
  jumpTarget : Ut64
  jumpTargetSet : Int
  trap : Int
  trapCode : Ut32
  old : Ut64
  cur : Ut64
  lastsz : Ut8
  reil : Option RAnalReil
  mem : Ut64 → Ut8
  reg : R

/-- An operation returns its `int` result and the new state. -/
abbrev EsilOp (R : Type) := Esil R → Int × Esil R

/-- Everything the emulator calls: the register interface, the command table keyed by the hash
of the word, and the optional hooks. A hook answers `none` where the C hook returns zero.
`uninit` stands for the bytes an uninitialised local buffer happens to hold. -/
structure EsilEnv (R : Type) where
  regGet : R → CStr → Option RRegItem
  regGetValue : R → RRegItem → Ut64
  regSetValue : R → RRegItem → Ut64 → R
  ops : Ut32 → Option (EsilOp R)
  hookCommand : Option (Esil R → CStr → Int × Esil R)
  hookFlagRead : Option (Esil R → CStr → Option Ut64 × Esil R)
  hookRegRead : Option (Esil R → CStr → Option (Ut64 × Int) × Esil R)
  hookRegWrite : Option (Esil R → CStr → Ut64 → Int × Ut64 × Esil R)
  hookMemRead : Option (Esil R → Ut64 → List Ut8 → Option (List Ut8) × Esil R)
  hookMemWrite : Option (Esil R → Ut64 → List Ut8 → Int × Esil R)
  uninit : List Ut8

inductive ParmType where
  | invalid
  | internal
  | reg
  | num
  deriving DecidableEq

section
variable {R : Type}

def esilGotoLimitDefault : Int := 4096

/-- A zeroed state over the given memory and registers; stacks below three entries are refused. -/
def rAnalEsilNew (stacksize : Int) (iotrap : Bool) (mem : Ut64 → Ut8) (reg : R) :
    Option (Esil R) :=
  if stacksize < 3 then none
  else some
    { anal := none, stack := [], stacksize := stacksize, skip := false, nowrite := false,
      iotrap := iotrap, repeatFlag := false, parseStop := 0, parseGoto := 0,
      parseGotoCount := esilGotoLimitDefault, address := 0, delay := 0, jumpTarget := 0,
      jumpTargetSet := 0, trap := 0, trapCode := 0, old := 0, cur := 0, lastsz := 0,
      reil := none, mem := mem, reg := reg }

def Esil.bits (e : Esil R) : Int := (e.anal.map RAnal.bits).getD 0

def Esil.bigEndian (e : Esil R) : Bool := (e.anal.map RAnal.bigEndian).getD false

/-- The shift count of a 64-bit shift is taken modulo 64. -/
def genmask (bits : Int) : Ut64 :=
  let m := (2#64 <<< (bits % 64).toNat) - 1
  if m = 0 then ut64Max else m

def rAnalEsilPush (e : Esil R) (str : CStr) : Bool × Esil R :=
  if str = [] ∨ (e.stack.length : Int) > e.stacksize - 1 then (false, e)
  else (true, { e with stack := str :: e.stack })

/-- A null pointer is not pushed. -/
def rAnalEsilPushOpt (e : Esil R) : Option CStr → Bool × Esil R
  | none => (false, e)
  | some str => rAnalEsilPush e str

def rAnalEsilPushnum (e : Esil R) (num : Ut64) : Bool × Esil R :=
  rAnalEsilPush e (hexLiteral num)

def rAnalEsilPop (e : Esil R) : Option CStr × Esil R :=
  match e.stack with
  | [] => (none, e)
  | s :: rest => (some s, { e with stack := rest })

def isDigitChar (c : Char) : Bool := '0' ≤ c && c ≤ '9'

def isParmNumber (str : CStr) : Bool :=
  match str with
  | [] => false
  | c :: cs =>
    ['0', 'x'].isPrefixOf str || ((isDigitChar c || c = '-') && cs.all isDigitChar)

variable (env : EsilEnv R)

def rAnalEsilGetParmType (e : Esil R) (str : CStr) : ParmType :=
  match str with
  | [] => .invalid
  | c :: cs =>
    if c = '$' ∧ cs ≠ [] then .internal
    else if isParmNumber str then .num
    else if (env.regGet e.reg str).isSome then .reg
    else .invalid

def esilInternalBorrowCheck (e : Esil R) (bit : Ut8) : Bool :=
  let bit := ((bit &&& 0x3f) + 0x3f) &&& 0x3f
  (e.old &&& genmask bit.toNat) < (e.cur &&& genmask bit.toNat)

def esilInternalCarryCheck (e : Esil R) (bit : Ut8) : Bool :=
  (e.cur &&& genmask bit.toNat) < (e.old &&& genmask bit.toNat)

def esilInternalParityCheck (e : Esil R) : Bool :=
  let lsb := e.cur &&& 0xff
  (((lsb * 0x0101010101010101) &&& 0x8040201008040201) % 0x1FF) &&& 1 = 0

def esilInternalSignCheck (e : Esil R) : Bool :=
  if e.lastsz = 0 then false
  else (e.cur >>> ((e.lastsz.toNat - 1) % 64)) &&& 1 ≠ 0

def esilInternalOverflowCheck (e : Esil R) : Bool :=
  if e.lastsz.toNat < 2 then false
  else esilInternalCarryCheck e (e.lastsz - 1) ^^ esilInternalCarryCheck e (e.lastsz - 2)

def boolNum (b : Bool) : Ut64 := if b then 1 else 0

/-- The internal variables `$…`; `none` is the return value false. -/
def esilInternalRead (e : Esil R) (str : CStr) : Option Ut64 × Esil R :=
  let hooked := match env.hookFlagRead with
    | none => (none, e)
    | some hook => hook e (str.drop 1)
  match hooked with
  | (some num, e) => (some num, e)
  | (none, e) =>
    let bit := (rNumGet (str.drop 2)).setWidth 8
    let num := match str[1]? with
      | some '$' => some e.address
      | some 'z' => some (boolNum (e.cur &&& genmask ((e.lastsz.toNat : Int) - 1) = 0))
      | some 'b' => some (boolNum (esilInternalBorrowCheck e bit))
      | some 'c' => some (boolNum (esilInternalCarryCheck e bit))
      | some 'o' => some (boolNum (esilInternalOverflowCheck e))
      | some 'p' => some (boolNum (esilInternalParityCheck e))
      | some 'r' => some (BitVec.ofInt 64 (e.bits.tdiv 8))
      | some 's' => some (boolNum (esilInternalSignCheck e))
      | some 'd' => if str[2]? = some 's' then some (BitVec.ofInt 64 e.delay) else none
      | some 'j' =>
        if str[2]? = some 't' then some e.jumpTarget
        else if str[2]? = some 's' then some (BitVec.ofInt 64 e.jumpTargetSet)
        else none
      | _ =>
        let (imm, rest) := strtoull 10 (str.drop 1)
        if rest = str.drop 1 then none else some imm
    (num, e)

/-- The case `j` falls through into the failing default. -/
def esilInternalWrite (e : Esil R) (str : CStr) (num : Ut64) : Bool × Esil R :=
  match str[1]?, str[2]? with
  | some 'd', some 's' => (true, { e with delay := wrapInt num.toInt })
  | some 'j', some 't' => (false, { e with jumpTarget := num, jumpTargetSet := 1 })
  | some 'j', some 's' => (false, { e with jumpTargetSet := wrapInt num.toInt })
  | _, _ => (false, e)

def isInternalName : CStr → Bool
  | '$' :: _ :: _ => true
  | _ => false

/-- Value and size of a register or of an internal variable. -/
def rAnalEsilRegRead (e : Esil R) (regname : CStr) : Option (Ut64 × Int) × Esil R :=
  if isInternalName regname then
    let (num, e) := esilInternalRead env e regname
    (num.map (fun n => (n, e.bits)), e)
  else
    let hooked := match env.hookRegRead with
      | none => (none, e)
      | some hook => hook e regname
    match hooked with
    | (some r, e) => (some r, e)
    | (none, e) =>
      ((env.regGet e.reg regname).map (fun reg => (env.regGetValue e.reg reg, (reg.size : Int))), e)

def rAnalEsilRegReadNocallback (e : Esil R) (regname : CStr) : Option (Ut64 × Int) × Esil R :=
  rAnalEsilRegRead { env with hookRegRead := none } e regname

def rAnalEsilRegWrite (e : Esil R) (dst : CStr) (num : Ut64) : Int × Esil R :=
  let (ret, num, e) := match env.hookRegWrite with
    | none => (0, num, e)
    | some hook => hook e dst num
  let (ret, e) :=
    if ret = 0 ∧ isInternalName dst then
      let (ok, e) := esilInternalWrite e dst num
      (if ok then 1 else 0, e)
    else (ret, e)
  if ret ≠ 0 then (ret, e)
  else match env.regGet e.reg dst with
    | some reg => (1, { e with reg := env.regSetValue e.reg reg num })
    | none => (0, e)

/-- Value and size of a stack entry; an entry that is nothing known stops the parser. -/
def rAnalEsilGetParmSize (e : Esil R) (str : CStr) : Option (Ut64 × Int) × Esil R :=
  match rAnalEsilGetParmType env e str with
  | .internal =>
    let (num, e) := esilInternalRead env e str
    (num.map (fun n => (n, e.bits)), e)
  | .num => (some (rNumGet str, e.bits), e)
  | .reg => rAnalEsilRegRead env e str
  | .invalid => (none, { e with parseStop := 1 })

def rAnalEsilGetParm (e : Esil R) (str : CStr) : Option Ut64 × Esil R :=
  let (r, e) := rAnalEsilGetParmSize env e str
  (r.map Prod.fst, e)

def isnum (str : CStr) : Option Ut64 :=
  match str with
  | [] => none
  | c :: _ => if isDigitChar c then some (rNumGet str) else none

def isregornum (e : Esil R) (str : CStr) : Option Ut64 × Esil R :=
  match rAnalEsilRegRead env e str with
  | (some r, e) => (some r.1, e)
  | (none, e) => (isnum str, e)

/-- Pops a register or a number. -/
def popRN (e : Esil R) : Option Ut64 × Esil R :=
  match rAnalEsilPop e with
  | (none, e) => (none, e)
  | (some str, e) => isregornum env e str

def esilInternalSizeofReg (e : Esil R) (r : CStr) : Ut8 :=
  match env.regGet e.reg r with
  | some ri => BitVec.ofNat 8 ri.size
  | none => 0

end

/-- An emulator without registers, commands and hooks: every word is pushed. -/
def bareEnv : EsilEnv Unit where
  regGet _ _ := none
  regGetValue _ _ := 0
  regSetValue r _ _ := r
  ops _ := none
  hookCommand := none
  hookFlagRead := none
  hookRegRead := none
  hookRegWrite := none
  hookMemRead := none
  hookMemWrite := none
  uninit := []

def bareEsil (limit : Int) : Esil Unit :=
  { anal := some ⟨64, false, limit⟩, stack := [], stacksize := 32, skip := false,
    nowrite := false, iotrap := false, repeatFlag := false, parseStop := 0, parseGoto := 0,
    parseGotoCount := esilGotoLimitDefault, address := 0, delay := 0, jumpTarget := 0,
    jumpTargetSet := 0, trap := 0, trapCode := 0, old := 0, cur := 0, lastsz := 0,
    reil := none, mem := fun _ => 0, reg := () }

end Radare
