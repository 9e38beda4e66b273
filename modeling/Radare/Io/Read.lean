import Radare.Io.Map

namespace Radare

/-- The two readers that `r_io_read_at` hands over to: the one of `io.vio` and the one of
`io.buffer`. They return a result, the bytes and the new state. -/
structure RIOReaders where
  readCr : RIO → Ut64 → Nat → Int × List Ut8 × RIO
  bufferRead : RIO → Ut64 → Nat → Int × List Ut8 × RIO

/-- The bytes `bs` stored at place `w` of a buffer. -/
def blit (buf : List Ut8) (w : Nat) (bs : List Ut8) : List Ut8 :=
  buf.take w ++ bs ++ buf.drop (w + bs.length)

/-- The variables of the read loop. `len` is what is left to read behind the first `w` bytes. -/
structure ReadState where
  io : RIO
  buf : List Ut8
  addr : Ut64
  w : Nat
  len : Nat
  l : Int

namespace ReadState

/-- The address of the next byte. -/
def cursor (st : ReadState) : Ut64 := st.addr + BitVec.ofNat 64 st.w

/-- `w += l; len -= l`. -/
def advance (st : ReadState) (l : Int) : ReadState :=
  { st with w := st.w + l.toNat, len := st.len - l.toNat, l := l }

def fill (st : ReadState) (w n : Nat) : ReadState :=
  { st with buf := blit st.buf w (List.replicate n st.io.oxff) }

end ReadState

/-- What a round of the loop asks for: the next round, the end of the read, or nothing because a
copy out of the cache left its buffer. -/
inductive ReadNext where
  | again (st : ReadState)
  | stop (st : ReadState)
  | overrun

/-- Whether a section or a map knows the address. -/
def rangeExists (io : RIO) (addr : Ut64) : Bool :=
  rIoSectionExistsForPaddr io addr 0 || rIoSectionExistsForVaddr io addr 0 ||
    rIoMapExistsForOffset io addr

/-- The length of the gap in front of the next section or map, `none` where there is none. The
distance is taken from `addr`, and a section in range leaves the length of the last round. -/
def gapLength (st : ReadState) : Option Int :=
  let endaddr := st.addr + BitVec.ofNat 64 st.len + BitVec.ofNat 64 st.w
  match rIoSectionGetFirstInVaddrRange st.io st.cursor endaddr with
  | none =>
    match rIoMapGetFirstMapInRange st.io st.cursor endaddr with
    | none => none
    | some m =>
      if st.len ≤ (m.fromAddr - st.addr).toNat then some st.l
      else some (wrapInt (m.fromAddr - st.addr).toNat)
  | some s =>
    if st.len ≤ (ut64Max - st.addr).toNat then some st.l
    else if st.addr > s.offset then none
    else some (wrapInt (s.offset - st.addr).toNat)

def gapStep (st : ReadState) : ReadNext :=
  match gapLength st with
  | none => .stop st
  | some l => .again (st.advance (if l = 0 then 1 else l))

/-- The end of the chunk as the sections and maps have it. -/
def chunkEnd (io : RIO) (addr : Ut64) : Ut64 :=
  if rIoSectionNext io addr = addr then rIoMapNext io addr else rIoSectionNext io addr

/-- The length of the next chunk before it is cut to what is left. -/
def chunkLength (st : ReadState) : Int :=
  if st.cursor < st.cursor + BitVec.ofNat 64 st.len then
    let room := chunkEnd st.io st.cursor - st.addr + BitVec.ofNat 64 st.w
    if st.len > room.toNat then wrapInt room.toNat else st.len
  else wrapInt (ut64Max - st.addr + 1).toNat

/-- The address that is read. The first chunk takes its address as it is. -/
def chunkPaddr (st : ReadState) : Ut64 :=
  if st.addr ≠ ut64Max then
    if st.w ≠ 0 then rIoSectionVaddrToMaddrTry st.io st.cursor else st.addr
  else 0

/-- Seek to `paddr`, then let the maps select the descriptor and its position again. -/
def chunkSelect (io : RIO) (paddr : Ut64) (w : Nat) : Ut64 × RIO :=
  rIoMapSelect (rIoSeek io paddr .set).2 (paddr - BitVec.ofNat 64 w + BitVec.ofNat 64 w)

/-- The buffer after `l` bytes were read at `w`: filled where the seek failed, and again where
nothing was read. -/
def chunkBuf (st : ReadState) (paddr : Ut64) (l : Nat) : List Ut8 :=
  let ff := List.replicate l st.io.oxff
  let buf := if (rIoSeek st.io paddr .set).1 = ut64Max then blit st.buf st.w ff else st.buf
  let got := rIoReadInternal (chunkSelect st.io paddr st.w).2 l
  if got.1 < 1 then blit (blit buf st.w got.2) st.w ff else blit buf st.w got.2

/-- A short read shortens the chunk, a failed one does not. -/
def chunkRead (st : ReadState) (paddr : Ut64) (l : Nat) : Nat :=
  let got := (rIoReadInternal (chunkSelect st.io paddr st.w).2 l).1
  if got < 1 then l else if got < l then got.toNat else l

def readChunk (st : ReadState) (paddr : Ut64) (l : Nat) : ReadState :=
  { st with
    io := (chunkSelect st.io paddr st.w).2
    addr := paddr - BitVec.ofNat 64 st.w
    buf := chunkBuf st paddr l }

/-- After a chunk the cache is laid over the rest of the buffer. Without a cache, several maps end
the read. -/
def afterChunk (st : ReadState) (l : Nat) (ms : Ut64) : ReadNext :=
  if st.io.cached ≠ 0 then
    match rIoCacheRead st.io st.cursor ((st.buf.drop st.w).take st.len) with
    | none => .overrun
    | some (_, bs) => .again (finish { st with buf := blit st.buf st.w bs })
  else if st.io.maps.length > 1 && !st.io.debug && wrapInt ms.toNat > 0 then
    if rIoSectionMaddrToVaddr st.io st.cursor = ut64Max &&
        rIoSectionVaddrToMaddrTry st.io st.cursor = ut64Max then .stop (st.fill st.w l)
    else .stop st
  else .again (finish st)
where
  finish (st : ReadState) : ReadState :=
    let st := st.advance l
    if st.len > 0 then st.fill st.w st.len else st

/-- A chunk without a length takes all that is left. -/
def chunkAsked (st : ReadState) : Int := if chunkLength st < 1 then st.len else chunkLength st

def chunkStep (st : ReadState) : ReadNext :=
  let sel := if chunkPaddr st = ut64Max then rIoMapSelect st.io st.addr
    else (chunkPaddr st, st.io)
  if sel.1 = ut64Max then .again { st.advance (chunkAsked st) with io := sel.2 }
  else
    let l := if chunkAsked st > st.len then st.len else (chunkAsked st).toNat
    let st := { st with io := (rIoMapSelect sel.2 st.addr).2 }
    afterChunk (readChunk st sel.1 l) (chunkRead st sel.1 l) (chunkSelect st.io sel.1 st.w).1

/-- There are maps, and neither they nor the sections know the next address. -/
def inGap (st : ReadState) : Bool :=
  st.cursor < st.cursor + BitVec.ofNat 64 st.len && !rangeExists st.io st.cursor &&
    rIoMapCount st.io > 0

def readStep (st : ReadState) : ReadNext := if inGap st then gapStep st else chunkStep st

/-- Every round takes at least one byte off `len`, so `len` rounds of fuel are enough. -/
def readLoop : Nat → ReadState → Option ReadState
  | 0, st => some st
  | n + 1, st =>
    if st.len = 0 then some st
    else
      match readStep st with
      | .again st => readLoop n st
      | .stop st => some st
      | .overrun => none

/-- Start, length and skipped bytes of a read with `io.sectonly`; `none` where it ends. -/
def sectonlySkip (io : RIO) (addr : Ut64) (len : Nat) : Option (Ut64 × Nat × Nat) :=
  if io.sectonly && !io.sections.isEmpty && !rIoSectionExistsForVaddr io addr 0 then
    let next := rIoSectionNext io addr
    if next < addr + BitVec.ofNat 64 len ∧ next ≠ 0 then
      some (next, len - (next - addr).toNat, (next - addr).toNat)
    else none
  else some (addr, len, 0)

/-- Result, bytes and new state; `none` where a copy out of the cache would leave its buffer. -/
def rIoReadAt (readers : RIOReaders) (io : RIO) (addr : Ut64) (len : Int) :
    Option (Int × List Ut8 × RIO) :=
  if len < 0 then some (0, [], io)
  else if io.vio then some (readers.readCr io addr len.toNat)
  else
    match sectonlySkip io addr len.toNat with
    | none => some (0, List.replicate len.toNat io.oxff, io)
    | some (addr, n, skipped) =>
      let front := List.replicate skipped io.oxff
      if io.raw then
        let seek := rIoSeek io addr .set
        let got := rIoReadInternal seek.2 n
        some (got.1, front ++ blit (List.replicate n io.oxff) 0 got.2, seek.2)
      else
        let io := { io with off := addr }
        if io.bufferEnabled then
          let r := readers.bufferRead io addr n
          some (r.1, front ++ r.2.1, r.2.2)
        else
          (readLoop n ⟨io, List.replicate n io.oxff, addr, 0, n, 0⟩).map
            (fun st => (len, front ++ st.buf, st.io))

theorem RIOMalloc.read_length (m : RIOMalloc) (count : Nat) (hc : count < 2147483648) :
    (m.read count).2.length = count := by
  have hlt := m.size_lt
  have hs : (BitVec.ofNat 64 m.size).toNat = m.size := by
    rw [BitVec.toNat_ofNat]
    exact Nat.mod_eq_of_lt (by rw [RIOMalloc.size]; omega)
  rw [RIOMalloc.read]
  simp only
  split
  · exact List.length_replicate
  · rename_i hle
    rw [gt_iff_lt, BitVec.lt_def, hs, not_lt] at hle
    have hb : m.buf.length = m.size := rfl
    have hadd : (m.offset + BitVec.ofNat 64 count).toNat = m.offset.toNat + count :=
      toNat_add_ofNat (by omega)
    have hsub : (BitVec.ofNat 64 m.size - m.offset).toNat = m.size - m.offset.toNat := by
      rw [BitVec.toNat_sub_of_le (by rw [BitVec.le_def, hs]; exact hle), hs]
    simp only [List.length_append, List.length_take, List.length_drop, List.length_replicate, hsub,
      ge_iff_le, BitVec.le_def, hs, hadd, hb]
    split <;> omega

theorem blit_length (buf : List Ut8) (w : Nat) (bs : List Ut8) (h : w + bs.length ≤ buf.length) :
    (blit buf w bs).length = buf.length := by
  simp only [blit, List.length_append, List.length_take, List.length_drop]
  omega

/-- Reads go through the loop of `r_io_read_at`. -/
structure PlainPath (io : RIO) : Prop where
  vio : io.vio = false
  raw : io.raw = false
  sectonly : io.sectonly = false
  buffer : io.bufferEnabled = false

/-- The loop's variables at its start. -/
def readStart (io : RIO) (addr : Ut64) (n : Nat) : ReadState :=
  ⟨{ io with off := addr }, List.replicate n io.oxff, addr, 0, n, 0⟩

theorem rIoReadAt_plain (readers : RIOReaders) (io : RIO) (h : PlainPath io) (addr : Ut64)
    (n : Nat) :
    rIoReadAt readers io addr n = (readLoop n (readStart io addr n)).map
      (fun st => ((n : Int), st.buf, st.io)) := by
  have hn : ¬ (n : Int) < 0 := by omega
  simp only [rIoReadAt, readStart, hn, if_false, h.vio, h.raw, h.buffer, Bool.false_eq_true,
    sectonlySkip, h.sectonly, Bool.false_and, Int.toNat_natCast, List.replicate_zero,
    List.nil_append]

/-- Only the top of the address space can be mapped to its top. -/
theorem vaddrToMaddrTry_ne_max (io : RIO) (addr : Ut64) (h : addr ≠ ut64Max) :
    rIoSectionVaddrToMaddrTry io addr ≠ ut64Max := by
  rw [rIoSectionVaddrToMaddrTry]
  split
  · exact h
  · assumption

/-- Readers for an I/O that uses neither `io.vio` nor `io.buffer`. -/
def noReaders : RIOReaders := ⟨fun io _ _ => (0, [], io), fun io _ _ => (0, [], io)⟩

end Radare
