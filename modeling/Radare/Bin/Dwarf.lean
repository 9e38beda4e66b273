import Radare.Framework.Leb128
import Radare.Util.Endian
import Radare.Util.Uleb128

namespace Radare.LineProgram

open Framework.Leb128

/-- The parameters of a header that the opcodes depend on. -/
structure Params where
  minInstLen : Nat
  lineBase : Int
  lineRange : Nat
  opcodeBase : Nat

/-- The opcodes of a program up to its `end_sequence`. Operands are the bytes they are written as,
and an extended opcode has the bytes of its length first. -/
inductive Op where
  | special (opcode : Ut8)
  | copy
  | advancePc (operand : List Ut8)
  | advanceLine (operand : List Ut8)
  | setFile (operand : List Ut8)
  | setColumn (operand : List Ut8)
  | negateStmt
  | setBasicBlock
  | constAddPc
  | fixedAdvancePc (operand : List Ut8)
  | setAddress (length address : List Ut8)
  | setDiscriminator (length operand : List Ut8)
  | defineFile (length name directory time size : List Ut8)

/-- The length counts the opcode and its operands. -/
def IsLength (length : List Ut8) (operands : Nat) : Prop :=
  IsLeb length ∧ ulebValue length = operands + 1

def Op.WellFormed (hdr : Params) : Op → Prop
  | special opcode => hdr.opcodeBase ≤ opcode.toNat
  | copy | negateStmt | setBasicBlock | constAddPc => True
  | advancePc u | advanceLine u | setFile u | setColumn u => IsLeb u
  | fixedAdvancePc u => u.length = 2
  | setAddress length address => IsLength length address.length ∧ address ≠ []
  | setDiscriminator length u => IsLength length u.length ∧ IsLeb u
  | defineFile length name directory time size =>
    IsLength length (name.length + 1 + directory.length + time.length + size.length) ∧
      0#8 ∉ name ∧ IsLeb directory ∧ IsLeb time ∧ IsLeb size

def extended (length : List Ut8) (opcode : Ut8) (operands : List Ut8) : List Ut8 :=
  0 :: (length ++ opcode :: operands)

def Op.encode : Op → List Ut8
  | special opcode => [opcode]
  | copy => [1]
  | advancePc u => 2 :: u
  | advanceLine u => 3 :: u
  | setFile u => 4 :: u
  | setColumn u => 5 :: u
  | negateStmt => [6]
  | setBasicBlock => [7]
  | constAddPc => [8]
  | fixedAdvancePc u => 9 :: u
  | setAddress length address => extended length 2 address
  | setDiscriminator length u => extended length 4 u
  | defineFile length name directory time size =>
    extended length 3 (name ++ 0 :: (directory ++ time ++ size))

/-- A program ends with `end_sequence`, whose length is written as `length`. -/
def encode (ops : List Op) (length : List Ut8) : List Ut8 :=
  ops.flatMap Op.encode ++ extended length 1 []

/-- The row of the matrix; a file number that is not in the table names no file. -/
structure Row where
  address : Int
  file : Option (List Ut8)
  line : Int

/-- The registers the rows are made of, with the file table. -/
structure State where
  address : Int
  file : Nat
  line : Int
  files : List (List Ut8)

def State.init (files : List (List Ut8)) : State where
  address := 0
  file := 1
  line := 1
  files := files

def State.row (s : State) : Row where
  address := s.address
  file := if s.file = 0 then none else s.files[s.file - 1]?
  line := s.line

def Params.adjusted (hdr : Params) (opcode : Nat) : Nat := opcode - hdr.opcodeBase

/-- The operation advance of a special opcode. -/
def Params.operationAdvance (hdr : Params) (opcode : Nat) : Nat :=
  hdr.adjusted opcode / hdr.lineRange

def State.advance (s : State) (delta : Int) : State := { s with address := s.address + delta }

def exec (hdr : Params) (s : State) : Op → State
  | .special opcode =>
    { s with
      address := s.address + hdr.minInstLen * hdr.operationAdvance opcode.toNat
      line := s.line + (hdr.lineBase + (hdr.adjusted opcode.toNat % hdr.lineRange : Nat)) }
  | .advancePc u => s.advance (hdr.minInstLen * ulebValue u)
  | .advanceLine u => { s with line := s.line + slebValue u }
  | .setFile u => { s with file := ulebValue u }
  | .constAddPc => s.advance (hdr.minInstLen * hdr.operationAdvance 255)
  | .fixedAdvancePc u => s.advance (leNat u)
  | .setAddress _ address => { s with address := leNat address }
  | .defineFile _ name _ _ _ => { s with files := s.files ++ [name] }
  | .copy | .setColumn _ | .negateStmt | .setBasicBlock | .setDiscriminator _ _ => s

/-- Special opcodes and `copy` append the row they leave. -/
def appends : Op → Bool
  | .special _ | .copy => true
  | _ => false

def emitted (hdr : Params) (s : State) (op : Op) : List Row :=
  if appends op then [(exec hdr s op).row] else []

/-- The rows of a program, the one of its `end_sequence` last. -/
def rows (hdr : Params) (s : State) : List Op → List Row
  | [] => [s.row]
  | op :: ops => emitted hdr s op ++ rows hdr (exec hdr s op) ops

end Radare.LineProgram

namespace Radare.Dwarf

/-- `bits` is `o->info->bits`, where the object has an info. -/
structure RBinFile where
  bits : Option Nat
  sdbAddrinfo : Bool

structure RBin where
  cur : Option RBinFile

/-- `fileNames` are the names in `file_names`, which is null where there are none. -/
structure RBinDwarfLNPHeader where
  minInstLen : Ut8
  defaultIsStmt : Ut8
  lineBase : Ut8
  lineRange : Ut8
  opcodeBase : Ut8
  fileNames : List (List Ut8)

structure RBinDwarfSMRegisters where
  address : Ut64
  file : Ut64
  line : Ut64
  column : Ut64
  isStmt : Ut8
  basicBlock : Ut8
  endSequence : Ut8
  prologueEnd : Ut8
  epilogueBegin : Ut8
  isa : Ut64
  discriminator : Ut64

/-- The arguments of a call of `add_sdb_addrline`. -/
structure AddrLine where
  addr : Ut64
  file : List Ut8
  line : Ut64

/-- The registers and the calls made so far. -/
structure State where
  regs : RBinDwarfSMRegisters
  calls : List AddrLine

/-- What a parser answers: the cursor as the bytes behind it, `none` for the null pointer. -/
abbrev Parsed := Option (List Ut8) × State

/-- The macro `READ` with the distance to `buf_end`. A read behind the bytes is undefined. -/
def read (size : Nat) (avail : Int) (buf : List Ut8) : Option (Ut64 × List Ut8) :=
  if (size : Int) < avail then
    if size ≤ buf.length then some (BitVec.ofNat 64 (leNat (buf.take size)), buf.drop size) else none
  else some (0, buf.drop size)

/-- The string at the cursor with its length, if a zero ends it. -/
def strlen (buf : List Ut8) : Option Nat :=
  if 0#8 ∈ buf then some (buf.takeWhile (· ≠ 0)).length else none

/-- The guarded call that three of the opcodes make. The index is cut to an `int`. -/
def addRow (binfile : RBinFile) (hdr : RBinDwarfLNPHeader) (st : State) : State :=
  let idx := ((st.regs.file - 1).setWidth 32).toInt
  if binfile.sdbAddrinfo ∧ 0 ≤ idx then
    match hdr.fileNames[idx.toNat]? with
    | some name => { st with calls := st.calls ++ [⟨st.regs.address, name, st.regs.line⟩] }
    | none => st
  else st

def addrSize (binfile : RBinFile) : Nat :=
  match binfile.bits with
  | none => 4
  | some bits => if bits = 0 then 4 else bits / 8

def setAddress (st : State) (addr : Ut64) : State :=
  { st with regs := { st.regs with address := addr } }

/-- `r_bin_dwarf_parse_ext_opcode`. -/
def parseExtOpcode (a : RBin) (obuf : List Ut8) (len : Int) (hdr : RBinDwarfLNPHeader) (st : State) :
    Option Parsed :=
  match a.cur with
  | none => some (none, st)
  | some binfile =>
    match rLeb128 obuf with
    | none | some (_, []) => none
    | some (_, opcode :: buf) =>
      if opcode = 1 then
        some (some buf,
          addRow binfile hdr { st with regs := { st.regs with endSequence := 1 } })
      else if opcode = 2 then
        let size := if addrSize binfile = 8 then 8 else 4
        (read size (len - 1) buf).map (fun (addr, buf) => (some buf, setAddress st addr))
      else if opcode = 3 then
        (strlen buf).bind (fun n =>
          -- only the directory of the file is read
          if 1 < len - 1 - (n + 1) then
            (rUleb128 (buf.drop (n + 1))).map (fun (_, buf) => (some buf, st))
          else some (some (buf.drop (n + 1)), st))
      else if opcode = 4 then
        (rUleb128 buf).map (fun (addr, buf) =>
          (some buf, { st with regs := { st.regs with discriminator := addr } }))
      else some (some buf, st)

/-- `r_bin_dwarf_parse_spec_opcode`; a `char` is signed. -/
def parseSpecOpcode (a : RBin) (obuf : List Ut8) (hdr : RBinDwarfLNPHeader) (st : State)
    (opcode : Ut8) : Option Parsed :=
  let adjOpcode := opcode - hdr.opcodeBase
  if hdr.lineRange = 0 then some (none, st)
  else
    let st := { st with
      regs := { st.regs with
        address := st.regs.address + (adjOpcode / hdr.lineRange).setWidth 64
        line := st.regs.line +
          BitVec.ofInt 64 (hdr.lineBase.toInt + (adjOpcode % hdr.lineRange).toNat) } }
    let st :=
      match a.cur with
      | none => st
      | some binfile => addRow binfile hdr st
    some (some obuf, { st with
      regs := { st.regs with basicBlock := 0, prologueEnd := 0, epilogueBegin := 0, discriminator := 0 } })

/-- `r_bin_dwarf_parse_std_opcode`. -/
def parseStdOpcode (a : RBin) (obuf : List Ut8) (len : Int) (hdr : RBinDwarfLNPHeader) (st : State)
    (opcode : Ut8) : Option Parsed :=
  match a.cur with
  | none => some (none, st)
  | some binfile =>
    if opcode = 1 then
      let st := addRow binfile hdr st
      some (some obuf, { st with regs := { st.regs with basicBlock := 0 } })
    else if opcode = 2 then
      (rUleb128 obuf).map (fun (addr, buf) =>
        (some buf, setAddress st (st.regs.address + addr * hdr.minInstLen.setWidth 64)))
    else if opcode = 3 then
      (rLeb128 obuf).map (fun (sbuf, buf) =>
        (some buf, { st with regs := { st.regs with line := st.regs.line + sbuf } }))
    else if opcode = 4 then
      (rUleb128 obuf).map (fun (addr, buf) =>
        (some buf, { st with regs := { st.regs with file := addr } }))
    else if opcode = 5 then
      (rUleb128 obuf).map (fun (addr, buf) =>
        (some buf, { st with regs := { st.regs with column := addr } }))
    else if opcode = 6 then
      some (some obuf,
        { st with regs := { st.regs with isStmt := if st.regs.isStmt ≠ 0 then 0 else 1 } })
    else if opcode = 7 then
      some (some obuf, { st with regs := { st.regs with basicBlock := 1 } })
    else if opcode = 8 then
      let adjOpcode := 255#8 - hdr.opcodeBase
      let opAdvance := if 0 < hdr.lineRange then (adjOpcode / hdr.lineRange).setWidth 64 else 0
      some (some obuf, setAddress st (st.regs.address + opAdvance))
    else if opcode = 9 then
      (read 2 len obuf).map (fun (operand, buf) =>
        (some buf, setAddress st (st.regs.address + operand)))
    else if opcode = 10 then
      some (some obuf, { st with regs := { st.regs with prologueEnd := 0xff } })
    else if opcode = 11 then
      some (some obuf, { st with regs := { st.regs with epilogueBegin := 0xff } })
    else if opcode = 12 then
      (rUleb128 obuf).map (fun (addr, buf) =>
        (some buf, { st with regs := { st.regs with isa := addr } }))
    else some (some obuf, st)

/-- The loop of `r_bin_dwarf_parse_opcodes`. A round reads a byte, so there are enough rounds if
there is one for each byte. -/
def parseOpcodesLoop (a : RBin) (hdr : RBinDwarfLNPHeader) :
    Nat → Int → List Ut8 → State → Option Parsed
  | 0, _, _, _ => none
  | rounds + 1, len, buf, st =>
    match buf with
    | opcode :: extOpcode :: rest =>
      let buf := extOpcode :: rest
      let len := len - 1
      if opcode = 0 then
        (parseExtOpcode a buf len hdr st).bind (fun (next, st) =>
          if extOpcode = 1 then some (next, st)
          else
            match next with
            | none => some (none, st)
            | some buf => parseOpcodesLoop a hdr rounds (wrapInt buf.length) buf st)
      else
        (if hdr.opcodeBase ≤ opcode then parseSpecOpcode a buf hdr st opcode
          else parseStdOpcode a buf len hdr st opcode).bind (fun (next, st) =>
          match next with
          | none => some (none, st)
          | some buf => parseOpcodesLoop a hdr rounds (wrapInt buf.length) buf st)
    | _ => some (some buf, st)

/-- `r_bin_dwarf_parse_opcodes` on the bytes up to `obuf + len`. -/
def parseOpcodes (a : RBin) (obuf : List Ut8) (hdr : RBinDwarfLNPHeader) (st : State) :
    Option Parsed :=
  if obuf.length < 8 then some (none, st)
  else parseOpcodesLoop a hdr obuf.length obuf.length obuf st

/-- `r_bin_dwarf_set_regs_default`. -/
def setRegsDefault (hdr : RBinDwarfLNPHeader) (regs : RBinDwarfSMRegisters) : RBinDwarfSMRegisters :=
  { regs with
    address := 0
    file := 1
    line := 1
    column := 0
    isStmt := hdr.defaultIsStmt
    basicBlock := 0
    endSequence := 0 }

end Radare.Dwarf
