import Radare.Util.Endian
import Radare.Util.Num
import Mathlib.Logic.Function.Basic

namespace Radare.Reg

inductive RRegisterType where
  | gpr | drx | fpu | mmx | xmm | flg | seg
  deriving DecidableEq

structure RRegItem where
  name : CStr
  type : RRegisterType
  size : Int
  offset : Int
  packedSize : Int
  flags : Option CStr
  deriving DecidableEq

/-- `RRegArena`; its size is that of the bytes. -/
structure RRegArena where
  bytes : List Ut8

def RRegArena.size (a : RRegArena) : Int := a.bytes.length

/-- `RRegSet`. Arenas are known by number, from `next` on free; `pool` lists them from the head.
An arena that was freed holds nothing. -/
structure RRegSet where
  heap : Nat → RRegArena
  next : Nat
  arena : Nat
  pool : List Nat
  regs : List RRegItem

/-- `regset->arena`. -/
def RRegSet.cur (s : RRegSet) : RRegArena := s.heap s.arena

def RRegSet.setCur (s : RRegSet) (a : RRegArena) : RRegSet := { s with heap := Function.update s.heap s.arena a }

structure RReg where
  regProfileStr : Option CStr
  bigEndian : Bool
  regset : RRegisterType → RRegSet

def RReg.setArena (reg : RReg) (type : RRegisterType) (a : RRegArena) : RReg :=
  { reg with regset := Function.update reg.regset type ((reg.regset type).setCur a) }

/-- `BITS2BYTES`, on an `int`. -/
def bits2bytes (x : Int) : Int := x.tdiv 8 + if x.tmod 8 ≠ 0 then 1 else 0

theorem bits2bytes_nat (n : Nat) : bits2bytes n = (((n + 7) / 8 : Nat) : Int) := by
  have hdiv : (n : Int).tdiv 8 = ((n / 8 : Nat) : Int) := rfl
  have hmod : (n : Int).tmod 8 = ((n % 8 : Nat) : Int) := rfl
  rw [bits2bytes, hdiv, hmod]
  split_ifs with h <;> omega

/-- Memory of an arena; `none` outside of it. -/
def loadBytes (bytes : List Ut8) (off : Int) (n : Nat) : Option (List Ut8) :=
  if 0 ≤ off ∧ off + n ≤ bytes.length then some ((bytes.drop off.toNat).take n) else none

def storeBytes (bytes : List Ut8) (off : Int) (src : List Ut8) : Option (List Ut8) :=
  if 0 ≤ off ∧ off + src.length ≤ bytes.length then
    some (bytes.take off.toNat ++ src ++ bytes.drop (off.toNat + src.length))
  else none

def rMemCopybits (dst : List Ut8) (off : Int) (src : List Ut8) (bits : Nat) : Option (List Ut8) := do
  let bytes := bits / 8
  let dst ← storeBytes dst off (src.take bytes)
  if bits % 8 = 0 then some dst
  else
    let srcmask := (255 : Ut8) <<< (8 - bits % 8)
    let d ← loadBytes dst (off + bytes) 1
    let s ← src[bytes]?
    storeBytes dst (off + bytes) (d.map (fun b => b &&& ~~~srcmask ||| s &&& srcmask))

/-- `1 << (offset % 8)`, which a negative offset leaves undefined. -/
def bitMask (offset : Int) : Option Ut8 :=
  if 0 ≤ offset.tmod 8 then some ((1 : Ut8) <<< (offset.tmod 8).toNat) else none

/-- `r_read_ble16`, `r_read_ble32` and `r_read_ble64`. -/
def readBle (bigEndian : Bool) (bs : List Ut8) : Ut64 := BitVec.ofNat 64 (leNat (orient bigEndian bs))

/-- `r_reg_get_value`. What `r_reg_get_longdouble` makes of the bytes is `longDouble`. -/
def rRegGetValue (longDouble : List Ut8 → Int → Ut64) (reg : RReg) (item : RRegItem) : Option Ut64 := do
  let arena := (reg.regset item.type).cur
  let off := bits2bytes item.offset
  if item.size = 1 then
    let b ← loadBytes arena.bytes (item.offset.tdiv 8) 1
    let mask ← bitMask item.offset
    some (if leNat b &&& mask.toNat ≠ 0 then 1 else 0)
  else if item.size = 4 then
    if 0 ≤ arena.size - off - 1 then (loadBytes arena.bytes off 1).map (fun b => readBle false b &&& 15) else some 0
  else if item.size = 8 then
    if 0 ≤ arena.size - off - 1 then (loadBytes arena.bytes off 1).map (readBle false) else some 0
  else if item.size = 16 then
    if 0 ≤ arena.size - off - 2 then (loadBytes arena.bytes off 2).map (readBle reg.bigEndian) else some 0
  else if item.size = 32 then
    if off + 4 ≤ arena.size then (loadBytes arena.bytes off 4).map (readBle reg.bigEndian) else some 0
  else if item.size = 64 then
    if off + 8 ≤ arena.size then (loadBytes arena.bytes off 8).map (readBle reg.bigEndian) else some 0
  else if item.size = 80 ∨ item.size = 96 then some (longDouble arena.bytes off)
  else some 0

/-- The bytes that `r_reg_set_value` copies. With 80 and 96 bits they are what the stack holds,
over what `r_reg_set_longdouble` has put there. -/
def valueBytes (stack : Nat → Ut8) (bigEndian : Bool) (size : Int) (value : Ut64) : Option (List Ut8) :=
  if size = 80 ∨ size = 96 then some ((List.range 12).map stack)
  else if size = 64 then some (orient bigEndian (leBytes 8 value.toNat))
  else if size = 32 then some (orient bigEndian (leBytes 4 value.toNat))
  else if size = 16 then some (orient bigEndian (leBytes 2 value.toNat))
  else if size = 8 then some (leBytes 1 value.toNat)
  else none

/-- `r_reg_set_value`. -/
def rRegSetValue (stack : Nat → Ut8) (reg : RReg) (item : RRegItem) (value : Ut64) : Option (RReg × Bool) :=
  let arena := (reg.regset item.type).cur
  if item.size = 1 then do
    let b ← loadBytes arena.bytes (item.offset.tdiv 8) 1
    let mask ← bitMask item.offset
    let b := b.map (fun c => if value ≠ 0 then c &&& (255 ^^^ mask) ||| mask else c &&& (255 ^^^ mask))
    let bytes ← storeBytes arena.bytes (item.offset.tdiv 8) b
    some (reg.setArena item.type ⟨bytes⟩, true)
  else
    match valueBytes stack reg.bigEndian item.size value with
    | none => some (reg, false)
    | some src =>
      if 0 ≤ arena.size - bits2bytes item.offset - bits2bytes item.size then do
        let bytes ← rMemCopybits arena.bytes (bits2bytes item.offset) src item.size.toNat
        some (reg.setArena item.type ⟨bytes⟩, true)
      else some (reg, false)

/-- `r_reg_arena_new`; `malloc (size + 8)` gives nothing when the sum is past the `int` range. -/
def rRegArenaNew (size : Int) : Option RRegArena :=
  let size := if size < 1 then 1 else size
  if wrapInt (size + 8) < 0 then none else some ⟨List.replicate size.toNat 0⟩

def RRegSet.push (s : RRegSet) : RRegSet :=
  match rRegArenaNew s.cur.size with
  | none => s
  | some b =>
    let bytes := s.cur.bytes.take b.bytes.length ++ List.replicate (b.bytes.length - s.cur.bytes.length) 0
    { s with
      heap := Function.update s.heap s.next ⟨bytes⟩, next := s.next + 1, pool := s.pool ++ [s.next], arena := s.next }

def rRegArenaPush (reg : RReg) : RReg := { reg with regset := fun i => (reg.regset i).push }

def RRegSet.pop (s : RRegSet) : RRegSet :=
  if s.pool.length < 2 then s
  else
    { s with
      heap := Function.update s.heap (s.pool.getLast?.getD 0) ⟨[]⟩, pool := s.pool.dropLast,
      arena := s.pool.dropLast.getLast?.getD 0 }

def rRegArenaPop (reg : RReg) : RReg := { reg with regset := fun i => (reg.regset i).pop }

def RRegSet.zero (s : RRegSet) : RRegSet := s.setCur ⟨List.replicate s.cur.bytes.length 0⟩

def rRegArenaZero (reg : RReg) : RReg := { reg with regset := fun i => (reg.regset i).zero }

/-- `r_reg_set_bytes`: a longer buffer makes the arena longer, but only as many bytes as it had
before are copied. -/
def rRegSetBytes (reg : RReg) (type : RRegisterType) (buf : List Ut8) : RReg × Bool :=
  if buf.length < 1 then (reg, false)
  else
    let size := (reg.regset type).cur.bytes.length
    (reg.setArena type
      ⟨buf.take (min size buf.length) ++ List.replicate (max size buf.length - min size buf.length) 0⟩, true)

/-- The size that `r_reg_fit_arena` finds. -/
def fitSize (regs : List RRegItem) : Int :=
  regs.foldl (fun newsize r => max (bits2bytes (wrapInt (r.offset + r.size))) newsize) 0

def RRegSet.fit (s : RRegSet) : RRegSet :=
  if fitSize s.regs < 1 then s.setCur ⟨[]⟩ else s.setCur ⟨List.replicate (fitSize s.regs).toNat 0⟩

def rRegFitArena (reg : RReg) : RReg := { reg with regset := fun i => (reg.regset i).fit }

/-- A set of `r_reg_new`, whose first arena is not in the pool. -/
def RRegSet.first : RRegSet :=
  { heap := Function.update (fun _ => ⟨[]⟩) 0 ⟨[0]⟩, next := 1, arena := 0, pool := [], regs := [] }

def rRegNew : RReg := rRegArenaPush { regProfileStr := none, bigEndian := false, regset := fun _ => RRegSet.first }

/-- The table `types`; `all` has the number -1, and is refused like an unknown name. -/
def rRegTypeByName (str : CStr) : Option RRegisterType :=
  [("gpr".toList, RRegisterType.gpr), ("drx".toList, .drx), ("fpu".toList, .fpu), ("mmx".toList, .mmx),
    ("xmm".toList, .xmm), ("flg".toList, .flg), ("seg".toList, .seg)].lookup str

/-- The names of the roles, by two characters. -/
def roleNames : List CStr :=
  ["ZF", "SF", "CF", "OF", "PC", "SR", "LR", "SP", "BP", "SN", "A0", "A1", "A2", "A3", "A4", "A5", "A6", "R0", "R1",
    "R2", "R3"].map String.toList

/-- Whether `r_reg_get_name_idx` knows the name. -/
def isRole (type : CStr) : Bool := roleNames.any (fun r => r.isPrefixOf type)

/-- `strtoul` with base 0. -/
def strtoul0 (s : CStr) : Ut64 × CStr :=
  let t := (scanSign (s.dropWhile isSpace)).2
  match t with
  | '0' :: x :: rest =>
    if (x = 'x' ∨ x = 'X') ∧ startsWithDigit 16 rest then strtoull 16 s else strtoull 8 s
  | '0' :: [] => strtoull 8 s
  | _ => strtoull 10 s

/-- `parse_size`, in bits, and what is left of the text. -/
def parseSize (s : CStr) : Ut64 × CStr :=
  match s with
  | '.' :: rest => strtoull 10 rest
  | _ =>
    if '.' ∈ s then
      let r := strtoul0 (s.takeWhile (· ≠ '.'))
      let t := strtoul0 ((s.dropWhile (· ≠ '.')).drop 1)
      ((r.1 <<< 3) + t.1, t.2)
    else
      let r := strtoul0 s
      (r.1 <<< 3, r.2)

/-- The conversion of a `ut64` to an `int`. -/
def toInt (x : Ut64) : Int := wrapInt x.toNat

def parseAlias (tok : List CStr) : Option String :=
  match tok with
  | [first, _] => if isRole (first.drop 1) then none else some "Invalid alias"
  | _ => some "Invalid syntax"

/-- `r_reg_get (reg, name, R_REG_TYPE_ALL)` finds a register. -/
def RReg.knows (reg : RReg) (name : CStr) : Bool :=
  [RRegisterType.gpr, .drx, .fpu, .mmx, .xmm, .flg, .seg].any
    (fun i => (reg.regset i).regs.any (fun r => r.name == name))

def RReg.append (reg : RReg) (item : RRegItem) : RReg :=
  { reg with
    regset := Function.update reg.regset item.type
      { reg.regset item.type with regs := (reg.regset item.type).regs ++ [item] } }

/-- The part of `parse_def` behind the tests on the number of words. -/
def defItem (reg : RReg) (type name size offset packed : CStr) (flags : Option CStr) : Except String RReg :=
  match rRegTypeByName type with
  | none => .error "Invalid register type"
  | some type =>
    let size := parseSize size
    if size.2 ≠ [] ∨ toInt size.1 = 0 then .error "Invalid size"
    else
      let offset := parseSize offset
      if offset.2 ≠ [] then .error "Invalid offset"
      else
        let packed := parseSize packed
        if packed.2 ≠ [] then .error "Invalid packed size"
        else if reg.knows name then .error "Duplicate register definition"
        else .ok (reg.append
          { name := name, type := type, size := toInt size.1, offset := toInt offset.1
            packedSize := toInt packed.1, flags := flags })

def parseDef (reg : RReg) (tok : List CStr) : Except String RReg :=
  match tok with
  | [type, name, size, offset, packed] => defItem reg type name size offset packed none
  | [type, name, size, offset, packed, flags] => defItem reg type name size offset packed (some flags)
  | _ => .error "Invalid syntax"

def isGraph (c : Char) : Bool := 33 ≤ c.toNat && c.toNat ≤ 126

/-- The rest from the next end of a line on; there is none behind the terminator. -/
def skipToEol (p : CStr) : Option CStr := if '\n' ∈ p then some (p.dropWhile (· ≠ '\n')) else none

/-- The words of a line, at most eight of them, and the rest of the text. -/
def lineWords : Nat → CStr → List CStr → Option (CStr × List CStr)
  | 0, p, tok => some (p, tok)
  | fuel + 1, p, tok =>
    if p = [] then some (p, tok)
    else do
      let p := p.dropWhile (fun c => c = ' ' ∨ c = '\t')
      let p ← if p.head? = some '#' then skipToEol p else some p
      if p.head? = some '\n' then some (p, tok)
      else
        let word := (p.take 127).takeWhile isGraph
        let p := p.drop word.length
        if 7 < tok.length then some (p, tok) else lineWords fuel p (tok ++ [word])

/-- The lines of a profile. Every round takes a character. -/
def parseLines : Nat → CStr → RReg → Option (Except String RReg)
  | 0, _, _ => none
  | fuel + 1, p, reg => do
    let next (p : CStr) (reg : RReg) : Option (Except String RReg) :=
      match p with
      | [] => some (.ok reg)
      | _ :: rest => parseLines fuel rest reg
    if p.head? = some '#' then
      let p ← skipToEol p
      next p reg
    else
      let r ← lineWords 9 p []
      match r.2 with
      | [] => next r.1 reg
      | first :: tok =>
        if first.head? = some '=' then
          match parseAlias (first :: tok) with
          | some e => some (.error e)
          | none => next r.1 reg
        else
          match parseDef reg (first :: tok) with
          | .error e => some (.error e)
          | .ok reg => next r.1 reg

/-- `r_reg_free_internal`. -/
def rRegFreeInternal (reg : RReg) : RReg :=
  { reg with regProfileStr := none, regset := fun i => { reg.regset i with regs := [] } }

/-- `r_reg_set_profile_string`; `none` when a comment has no end. -/
def rRegSetProfileString (reg : RReg) (str : CStr) : Option (RReg × Bool) :=
  if reg.regProfileStr = some str then some (reg, true)
  else do
    let reg := { rRegFreeInternal (rRegArenaPop reg) with regProfileStr := some str }
    match ← parseLines (str.length + 1) str reg with
    | .error _ => some (rRegFreeInternal reg, false)
    | .ok reg => some (rRegArenaPush (rRegFitArena reg), true)

end Radare.Reg
