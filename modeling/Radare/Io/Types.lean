import Radare.Framework.MachineInt

namespace Radare

/-- A `malloc://` file. Its size is kept in 32 bits. -/
structure RIOMalloc where
  buf : List Ut8
  offset : Ut64
  size_lt : buf.length < 4294967296

structure RIODesc where
  fd : Int
  data : RIOMalloc

structure RIOMap where
  fd : Int
  delta : Ut64
  fromAddr : Ut64
  toAddr : Ut64

structure RIOSection where
  offset : Ut64
  vaddr : Ut64
  size : Ut64
  vsize : Ut64
  rwx : Nat
  fd : Int := 0

/-- An item of the write cache; both buffers have the item's size. -/
structure RIOCache where
  fromAddr : Ut64
  toAddr : Ut64
  data : List Ut8
  odata : List Ut8
  written : Bool
  sizes : odata.length = data.length

def RIOCache.size (c : RIOCache) : Nat := c.data.length

/-- A place in the seek history. -/
structure RIOUndos where
  off : Ut64
  cursor : Int
  deriving DecidableEq

def rIoUndos : Int := 64

/-- A recorded write with the bytes before and after it, `len` of each. -/
structure RIOUndoWrite where
  set : Bool
  off : Ut64
  o : List Ut8
  n : List Ut8
  sizes : o.length = n.length

structure RIOUndo where
  sEnable : Bool
  wEnable : Bool
  wList : List RIOUndoWrite
  idx : Int
  undos : Int
  redos : Int
  seek : Vector RIOUndos 64

/-- The undo state of a zeroed `RIO`. -/
def RIOUndo.zero : RIOUndo where
  sEnable := false
  wEnable := false
  wList := []
  idx := 0
  undos := 0
  redos := 0
  seek := Vector.replicate 64 ⟨0, 0⟩

/-- The fields of the I/O state that its read, write, seek, map, section, cache and undo functions use.
`desc` is the place of the current descriptor in `files`; `writeMask` is the mask when
`write_mask_fd` is not `-1`. -/
structure RIO where
  off : Ut64
  va : Bool
  raw : Bool
  vio : Bool
  sectonly : Bool
  bufferEnabled : Bool
  debug : Bool
  cached : Int
  oxff : Ut8
  raised : Int
  enforceRwx : Nat
  writeMask : Option (List Ut8)
  files : List RIODesc
  desc : Option Nat
  maps : List RIOMap
  sections : List RIOSection
  cache : List RIOCache
  undo : RIOUndo := RIOUndo.zero
  ff : Bool := true

/-- An I/O state without files. -/
def emptyIO : RIO where
  off := 0
  va := true
  raw := false
  vio := false
  sectonly := false
  bufferEnabled := false
  debug := false
  cached := 0
  oxff := 0xff
  raised := -1
  enforceRwx := 0
  writeMask := none
  files := []
  desc := none
  maps := []
  sections := []
  cache := []

def rIoExec : Nat := 1

def rIoWriteFlag : Nat := 2

def rIoReadFlag : Nat := 4

def rIoMapFlag : Nat := 16

inductive RIOSeek where
  | set
  | cur
  | fromEnd
  deriving DecidableEq

namespace RIOMalloc

def size (m : RIOMalloc) : Nat := m.buf.length

/-- `__lseek` never leaves the file. -/
def lseek (m : RIOMalloc) (offset : Ut64) (whence : RIOSeek) : Ut64 × RIOMalloc :=
  let size := BitVec.ofNat 64 m.size
  let r := match whence with
    | .set => if offset ≤ size then offset else size
    | .cur => if m.offset + offset ≤ size then m.offset + offset else size
    | .fromEnd => size
  (r, { m with offset := r })

/-- `__read`: the result and the `count` bytes left in the buffer, which starts as `0xff`. -/
def read (m : RIOMalloc) (count : Nat) : Int × List Ut8 :=
  let size := BitVec.ofNat 64 m.size
  if m.offset > size then (-1, List.replicate count 0xff)
  else
    let n := if m.offset + BitVec.ofNat 64 count ≥ size then (size - m.offset).toNat else count
    (wrapInt n, (m.buf.drop m.offset.toNat).take n ++ List.replicate (count - n) 0xff)

/-- `__write` keeps the size of the file. -/
def write (m : RIOMalloc) (bs : List Ut8) : Int × RIOMalloc :=
  let size := BitVec.ofNat 64 m.size
  if m.offset > size then (-1, m)
  else
    let n := min bs.length (m.size - m.offset.toNat)
    if 0 < n then
      (wrapInt n,
        { buf := m.buf.take m.offset.toNat ++ bs.take n ++ m.buf.drop (m.offset.toNat + n)
          offset := m.offset + BitVec.ofNat 64 n
          size_lt := by
            have h := m.size_lt
            have hs : m.size = m.buf.length := rfl
            simp only [List.length_append, List.length_take, List.length_drop]
            omega })
    else (-1, m)

end RIOMalloc

namespace RIO

def curDesc (io : RIO) : Option RIODesc := io.desc.bind (io.files[·]?)

/-- Replaces the file behind the current descriptor. -/
def setData (io : RIO) (m : RIOMalloc) : RIO :=
  { io with
    files := match io.desc with
      | none => io.files
      | some i => io.files.modify i (fun d => { d with data := m }) }

end RIO

/-- The place of the descriptor in `io->files`. -/
def rIoDescGet (io : RIO) (fd : Int) : Option Nat :=
  if fd < 0 then none else io.files.findIdx? (fun d => d.fd = fd)

/-- The current descriptor stays where there is none of that number. -/
def rIoUseFd (io : RIO) (fd : Int) : RIO :=
  match rIoDescGet io fd with
  | none => io
  | some i => { io with desc := some i }

def RIOSection.isMapped (s : RIOSection) : Bool := s.rwx &&& rIoMapFlag ≠ 0

def RIOSection.hasVaddr (s : RIOSection) (vaddr : Ut64) : Bool :=
  vaddr ≥ s.vaddr && vaddr < s.vaddr + s.vsize

def RIOSection.hasPaddr (s : RIOSection) (maddr : Ut64) : Bool :=
  maddr ≥ s.offset && maddr < s.offset + s.size

def rIoSectionVget (io : RIO) (vaddr : Ut64) : Option RIOSection :=
  io.sections.find? (fun s => s.hasVaddr vaddr)

def rIoSectionMgetIn (io : RIO) (maddr : Ut64) : Option RIOSection :=
  io.sections.find? (fun s => s.hasPaddr maddr)

def rIoSectionMgetPrev (io : RIO) (maddr : Ut64) : Option RIOSection :=
  io.sections.reverse.find? (fun s => s.hasPaddr maddr)

def rIoSectionGetRwx (io : RIO) (offset : Ut64) : Nat :=
  match rIoSectionMgetIn io offset with
  | some s => s.rwx
  | none => rIoReadFlag ||| rIoWriteFlag ||| rIoExec

def rIoSectionVaddrToMaddr (io : RIO) (vaddr : Ut64) : Ut64 :=
  match io.sections.find? (fun s => s.isMapped && s.hasVaddr vaddr) with
  | some s => vaddr - s.vaddr + s.offset
  | none => ut64Max

/-- An address outside the mapped sections stands for itself. -/
def rIoSectionVaddrToMaddrTry (io : RIO) (vaddr : Ut64) : Ut64 :=
  let res := rIoSectionVaddrToMaddr io vaddr
  if res = ut64Max then vaddr else res

def rIoSectionMaddrToVaddr (io : RIO) (offset : Ut64) : Ut64 :=
  match rIoSectionMgetPrev io offset with
  | some s => s.vaddr + offset - s.offset
  | none => ut64Max

/-- With permissions asked for, the answer is the part of them the section has. -/
def sectionExists (s : Option RIOSection) (hasperm : Nat) : Bool :=
  match s with
  | some s => hasperm = 0 || s.rwx &&& hasperm ≠ 0
  | none => false

def rIoSectionExistsForPaddr (io : RIO) (paddr : Ut64) (hasperm : Nat) : Bool :=
  sectionExists (rIoSectionMgetIn io paddr) hasperm

def rIoSectionExistsForVaddr (io : RIO) (vaddr : Ut64) (hasperm : Nat) : Bool :=
  sectionExists (rIoSectionVget io vaddr) hasperm

/-- One section of the scan. The end of a section is compared, its start is stored. -/
def sectionNextStep (o newsec : Ut64) (s : RIOSection) : Ut64 :=
  let newsec := if s.vaddr > o ∧ s.vaddr < newsec then s.vaddr else newsec
  let addr := s.vaddr + s.vsize
  if addr > o ∧ addr < newsec then s.vaddr else newsec

def rIoSectionNext (io : RIO) (o : Ut64) : Ut64 := io.sections.foldl (sectionNextStep o) ut64Max

/-- The three ways a block counts as lying in a range. -/
def inRange (lo hi addr endaddr : Ut64) : Bool :=
  (lo ≤ addr && addr < hi) || (lo < endaddr && endaddr < hi) || (addr ≤ lo && hi ≤ endaddr)

/-- The loop variable survives the loop: an unmapped last section is returned. -/
def firstInVaddrRange (addr endaddr : Ut64) : List RIOSection → Option RIOSection →
    Option RIOSection
  | [], s => s
  | s :: rest, _ =>
    if !s.isMapped then firstInVaddrRange addr endaddr rest (some s)
    else if inRange s.vaddr (s.vaddr + s.vsize) addr endaddr then some s
    else firstInVaddrRange addr endaddr rest none

def rIoSectionGetFirstInVaddrRange (io : RIO) (addr endaddr : Ut64) : Option RIOSection :=
  firstInVaddrRange addr endaddr io.sections none

namespace RIOUndo

def slot (u : RIOUndo) (i : Int) : RIOUndos := u.seek[i.toNat]?.getD ⟨0, 0⟩

def setSlot (u : RIOUndo) (i : Int) (e : RIOUndos) : RIOUndo :=
  { u with seek := u.seek.setIfInBounds i.toNat e }

/-- Moves one entry back. The offset is stored when no redo needs the slot. -/
def sundo (u : RIOUndo) (offset : Ut64) : RIOUndo :=
  let u := if u.redos = 0 then u.setSlot u.idx ⟨offset, 0⟩ else u
  { u with
    idx := Int.tmod (u.idx - 1 + rIoUndos) rIoUndos
    undos := u.undos - 1
    redos := u.redos + 1 }

def sundoRedo (u : RIOUndo) : RIOUndo :=
  { u with
    idx := Int.tmod (u.idx + 1) rIoUndos
    undos := u.undos + 1
    redos := u.redos - 1 }

/-- The test that drops a push. It reads the slot before `idx`, used or not, and nothing when
`idx` is the first slot. -/
def repeatsSlot (u : RIOUndo) (e : RIOUndos) : Bool := u.idx > 0 && u.slot (u.idx - 1) = e

def sundoPush (u : RIOUndo) (e : RIOUndos) : RIOUndo :=
  let u := u.setSlot u.idx e
  { u with
    idx := Int.tmod (u.idx + 1) rIoUndos
    undos := if u.undos < rIoUndos - 1 then u.undos + 1 else u.undos
    redos := 0 }

def sundoReset (u : RIOUndo) : RIOUndo := { u with idx := 0, undos := 0, redos := 0 }

def init (u : RIOUndo) : RIOUndo := { u.sundoReset with wEnable := false, wList := [] }

def enable (u : RIOUndo) (s w : Bool) : RIOUndo := { u with sEnable := s, wEnable := w }

end RIOUndo

def rIoSundoReset (io : RIO) : RIO := { io with undo := io.undo.sundoReset }

def rIoUndoInit (io : RIO) : RIO := { io with undo := io.undo.init }

def rIoUndoEnable (io : RIO) (s w : Bool) : RIO := { io with undo := io.undo.enable s w }

/-- The seek that undo and redo end with, and the slot they return. -/
def seekToSlot (io : RIO) (u : RIOUndo) : RIOUndos × RIO :=
  let undo := u.slot u.idx
  (undo, { io with undo := u, off := rIoSectionVaddrToMaddrTry io undo.off })

/-- `none` is a `NULL` result; it leaves the state as it is. -/
def rIoSundo (io : RIO) (offset : Ut64) : Option (RIOUndos × RIO) :=
  if !io.undo.sEnable || io.undo.undos = 0 then none
  else some (seekToSlot io (io.undo.sundo offset))

def rIoSundoRedo (io : RIO) : Option (RIOUndos × RIO) :=
  if !io.undo.sEnable || io.undo.redos = 0 then none
  else some (seekToSlot io io.undo.sundoRedo)

def rIoSundoPush (io : RIO) (off : Ut64) (cursor : Int) : RIO :=
  if !io.undo.sEnable then io
  else if io.undo.repeatsSlot ⟨off, cursor⟩ then io
  else { io with undo := io.undo.sundoPush ⟨off, cursor⟩ }

end Radare
