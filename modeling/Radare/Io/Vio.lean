import Radare.Io.Read

namespace Radare

def rFail : Int := -1

def rError : Int := -2

/-- A block is listed once for each way it lies in the range. -/
def listed {α : Type} (x : α) (lo hi addr endaddr : Ut64) : List α :=
  (if lo ≤ addr ∧ addr < hi then [x] else []) ++
  (if lo < endaddr ∧ endaddr < hi then [x] else []) ++
  (if addr ≤ lo ∧ hi ≤ endaddr then [x] else [])

def rIoSectionGetInVaddrRange (io : RIO) (addr endaddr : Ut64) : List RIOSection :=
  io.sections.flatMap (fun s =>
    if s.isMapped then listed s s.vaddr (s.vaddr + s.vsize) addr endaddr else [])

def rIoMapGetMapsInRange (io : RIO) (addr endaddr : Ut64) : List RIOMap :=
  io.maps.flatMap (fun m => listed m m.fromAddr m.toAddr addr endaddr)

def rIoMapGetMapsInRangePrepend (io : RIO) (addr endaddr : Ut64) : List RIOMap :=
  io.maps.foldl (fun maps m =>
    let maps := if m.fromAddr ≤ addr ∧ addr < m.toAddr then maps ++ [m] else maps
    let maps := if m.fromAddr < endaddr ∧ endaddr < m.toAddr then m :: maps else maps
    if addr ≤ m.fromAddr ∧ m.toAddr ≤ endaddr then m :: maps else maps) []

def rIoMapResolve (io : RIO) (fd : Int) : Option RIOMap := io.maps.find? (fun m => m.fd = fd)

def rIoMapResolveInRange (io : RIO) (addr endaddr : Ut64) (fd : Int) : Option RIOMap :=
  (rIoMapGetMapsInRangePrepend io addr endaddr).find? (fun m => m.fd = fd)

/-- `r_io_pread`: the result and the bytes it stores. -/
def rIoPread (readers : RIOReaders) (io : RIO) (paddr : Ut64) (len : Nat) : Int × List Ut8 × RIO :=
  if paddr = ut64Max then
    if io.ff then (len, List.replicate len 0xff, io) else (rFail, [], io)
  else
    let io := (rIoSeek io paddr .set).2
    if io.bufferEnabled then readers.bufferRead io io.off len
    else
      match io.curDesc with
      | none => (0, [], io)
      | some d => ((d.data.read len).1, (d.data.read len).2, io)

/-- Bytes stored through a pointer that is `p` behind the start of the buffer; `none` where it
leaves the buffer. -/
def store (buf : List Ut8) (p : Ut64) (bs : List Ut8) : Option (List Ut8) :=
  if bs = [] then some buf
  else if p.toNat + bs.length ≤ buf.length then some (blit buf p.toNat bs)
  else none

/-- The part of a read that a map holds: how far into the read it starts, and its length. -/
def mapPart (map : RIOMap) (maddr : Ut64) (readBytes : Int) : Option (Ut64 × Int) :=
  let endaddr := maddr + BitVec.ofInt 64 readBytes
  if endaddr > map.toAddr ∧ maddr > map.toAddr then none
  else
    let readBytes := if endaddr > map.toAddr then wrapInt (map.toAddr - maddr).toNat else readBytes
    let endaddr := if endaddr > map.toAddr then map.toAddr else endaddr
    if maddr < map.fromAddr then
      let d := map.fromAddr - maddr
      if endaddr < map.fromAddr ∨ BitVec.ofInt 64 readBytes < d then none
      else some (d, wrapInt (BitVec.ofInt 64 readBytes - d).toNat)
    else some (0, readBytes)

/-- `r_io_mread` into the buffer `buf` at `p`: the result, the buffer and the new state. -/
def rIoMread (readers : RIOReaders) (io : RIO) (fd : Int) (maddr : Ut64) (buf : List Ut8) (p : Ut64)
    (len : Int) : Option (Int × List Ut8 × RIO) :=
  if len < 0 then some (rFail, buf, io)
  else
    let readBytes :=
      if ut64Max - BitVec.ofInt 64 len < maddr then wrapInt (ut64Max - maddr).toNat else len
    match (rIoMapResolveInRange io maddr (maddr + BitVec.ofInt 64 readBytes) fd).or
        (rIoMapResolve io fd) with
    | none => some (rError, buf, io)
    | some map =>
      match mapPart map maddr readBytes with
      | none => some (rFail, buf, io)
      | some (d, readBytes) =>
        match rIoDescGet io fd with
        | none => some (rError, buf, io)
        | some i =>
          let r := rIoPread readers { io with desc := some i } (maddr + d - map.fromAddr + map.delta)
            readBytes.toNat
          (store buf (p + d) r.2.1).map (fun buf => (r.1, buf, { r.2.2 with desc := io.desc }))

/-- The locals of `r_io_vread` that its first loop changes. -/
structure VreadState where
  io : RIO
  buf : List Ut8
  tmpVaddr : Ut64
  tmpLen : Int
  tmpBuf : Ut64
  ranges : List (Ut64 × Ut64)

/-- What lies in front of a section is recorded and passed over. -/
def vreadGap (vaddr : Ut64) (st : VreadState) (s : RIOSection) : VreadState :=
  if s.vaddr > st.tmpVaddr then
    { st with
      ranges := st.ranges ++ [(st.tmpVaddr, s.vaddr)]
      tmpVaddr := s.vaddr
      tmpLen := wrapInt (BitVec.ofInt 64 st.tmpLen - (s.vaddr - vaddr)).toNat
      tmpBuf := st.tmpBuf + (s.vaddr - vaddr) }
  else st

/-- The virtual end address of what is read of a section. -/
def vreadEnd (st : VreadState) (s : RIOSection) : Ut64 :=
  let vendaddr := st.tmpVaddr + BitVec.ofInt 64 st.tmpLen
  if vendaddr > s.vaddr + s.vsize then s.vaddr + s.vsize else vendaddr

/-- How many bytes are asked of a section, `none` behind its physical end. -/
def vreadSize (st : VreadState) (s : RIOSection) : Option Int :=
  let maddr := st.tmpVaddr - s.vaddr + s.offset
  if maddr > s.offset + s.size then none
  else if vreadEnd st s - s.vaddr + s.offset > s.offset + s.size then
    some (wrapInt (s.offset + s.size - maddr).toNat)
  else some (wrapInt (vreadEnd st s - st.tmpVaddr).toNat)

/-- The read of a section and the move behind it. -/
def vreadChunk (readers : RIOReaders) (st : VreadState) (s : RIOSection) : Option VreadState := do
  let r ←
    match vreadSize st s with
    | none => some (0, st.buf, st.io)
    | some n =>
      rIoMread readers st.io s.fd (st.tmpVaddr - s.vaddr + s.offset) st.buf st.tmpBuf n
  some { st with
    io := r.2.2
    buf := r.2.1
    tmpVaddr := vreadEnd st s
    tmpLen := wrapInt (BitVec.ofInt 64 st.tmpLen - (vreadEnd st s - st.tmpVaddr)).toNat
    tmpBuf := st.tmpBuf + (vreadEnd st s - st.tmpVaddr) }

/-- One round of the loop over the sections. -/
def vreadSection (readers : RIOReaders) (vaddr : Ut64) (st : VreadState) (s : RIOSection) :
    Option VreadState :=
  if s.vaddr = 0 then some st
  else vreadChunk readers (vreadGap vaddr st s) s

/-- The maps are read into a part of the buffer one after the other, and the current descriptor over
them. -/
def vreadMaps (readers : RIOReaders) (maps : List RIOMap) (vaddr : Ut64) (p : Ut64) (len : Int)
    (io : RIO) (buf : List Ut8) : Option (List Ut8 × RIO) := do
  let r ← maps.foldlM (fun (r : List Ut8 × RIO) m =>
    (rIoMread readers r.2 m.fd vaddr r.1 p len).map (·.2)) (buf, io)
  match r.2.curDesc with
  | none => some r
  | some d => (rIoMread readers r.2 d.fd vaddr r.1 p len).map (·.2)

/-- One round of the loop over the recorded ranges; the end of the search for maps is a length. -/
def vreadRange (readers : RIOReaders) (vaddr : Ut64) (r : List Ut8 × RIO) (range : Ut64 × Ut64) :
    Option (List Ut8 × RIO) :=
  vreadMaps readers (rIoMapGetMapsInRange r.2 range.1 (range.2 - range.1)) range.1 (range.1 - vaddr)
    (wrapInt (range.2 - range.1).toNat) r.2 r.1

/-- `r_io_vread` into a buffer of `len` bytes: the result, the buffer and the new state; `none` where
it writes outside the buffer. -/
def rIoVread (readers : RIOReaders) (io : RIO) (vaddr : Ut64) (buf : List Ut8) :
    Option (Int × List Ut8 × RIO) :=
  let len := buf.length
  if io.curDesc.isNone then some (rError, buf, io)
  else
    let sections := rIoSectionGetInVaddrRange io vaddr (vaddr + BitVec.ofNat 64 len)
    if sections = [] then
      (vreadMaps readers (rIoMapGetMapsInRange io vaddr (vaddr + BitVec.ofNat 64 len)) vaddr 0 len io
        buf).map (fun r => (1, r))
    else do
      let st ← sections.foldlM (vreadSection readers vaddr) ⟨io, buf, vaddr, len, 0, []⟩
      let r ← st.ranges.foldlM (vreadRange readers vaddr) (st.buf, st.io)
      some (1, r)

end Radare
