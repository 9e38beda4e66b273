import Radare.Io.Types

namespace Radare

def rIoMapCount (io : RIO) : Nat := io.maps.length

def RIOMap.has (m : RIOMap) (off : Ut64) : Bool := m.fromAddr ≤ off && off < m.toAddr

/-- An empty map catches every address from its start on. -/
def rIoMapGet (io : RIO) (addr : Ut64) : Option RIOMap :=
  io.maps.find? (fun m => (m.fromAddr = m.toAddr && addr ≥ m.fromAddr) || m.has addr)

/-- Only the first map of the descriptor grows. -/
def mapWriteUpdate (fd : Int) (last : Ut64) : List RIOMap → List RIOMap
  | [] => []
  | m :: maps =>
    if m.fd = fd then (if m.toAddr < last then { m with toAddr := last } else m) :: maps
    else m :: mapWriteUpdate fd last maps

def rIoMapWriteUpdate (io : RIO) (fd : Int) (addr len : Ut64) : RIO :=
  { io with maps := mapWriteUpdate fd (addr + len) io.maps }

def rIoMapGetFirstMapInRange (io : RIO) (addr endaddr : Ut64) : Option RIOMap :=
  io.maps.find? (fun m => inRange m.fromAddr m.toAddr addr endaddr)

def mapNextStep (addr next : Ut64) (m : RIOMap) : Ut64 :=
  if m.fromAddr > addr ∧ (next = 0 ∨ m.fromAddr < next) then m.fromAddr else next

def rIoMapNext (io : RIO) (addr : Ut64) : Ut64 := io.maps.foldl (mapNextStep addr) ut64Max

def rIoMapExistsForOffset (io : RIO) (off : Ut64) : Bool := io.maps.any (fun m => m.has off)

/-- A seek goes where the sections put the address. -/
def seekTarget (io : RIO) (offset : Ut64) : Ut64 :=
  if (!io.debug || !io.raw) && io.va && !io.sections.isEmpty then
    if rIoSectionVaddrToMaddrTry io offset ≠ ut64Max then rIoSectionVaddrToMaddrTry io offset
    else offset
  else offset

/-- The descriptor's answer to a seek, and the offset the I/O remembers. -/
def rIoSeek (io : RIO) (offset : Ut64) (whence : RIOSeek) : Ut64 × RIO :=
  if io.bufferEnabled then (offset, { io with off := offset })
  else if seekTarget io offset = ut64Max then (ut64Max, io)
  else
    match io.curDesc with
    | none => (ut64Max, io)
    | some d =>
      let r := d.data.lseek (seekTarget io offset) whence
      (r.1, if whence = .set then { io.setData r.2 with off := seekTarget io offset }
        else io.setData r.2)

/-- What the scan over the maps has found: the last start at or below the address, the physical
address and descriptor of the last map that holds it. -/
structure MapScan where
  prevfrom : Ut64
  paddr : Ut64
  fd : Int
  done : Bool

/-- The scan switches to the descriptor of every map that starts at or below the address, as long
as the starts fall. -/
def mapSelectUse (off : Ut64) (im : RIOMap) (io : RIO) (st : MapScan) : RIO :=
  if off ≥ im.fromAddr ∧ (st.prevfrom ≠ 0 → im.fromAddr < st.prevfrom) then rIoUseFd io im.fd
  else io

def mapSelectNote (off : Ut64) (im : RIOMap) (st : MapScan) : MapScan :=
  { prevfrom := if off ≥ im.fromAddr then im.fromAddr else st.prevfrom
    paddr := if im.has off then off - im.fromAddr + im.delta else st.paddr
    fd := if im.has off then im.fd else st.fd
    done := im.has off || st.done }

/-- A map of the raised descriptor ends the scan. -/
def mapSelectScan (off : Ut64) : List RIOMap → RIO → MapScan → RIO × MapScan
  | [], io, st => (io, st)
  | im :: maps, io, st =>
    if im.has off && im.fd = io.raised then (mapSelectUse off im io st, mapSelectNote off im st)
    else mapSelectScan off maps (mapSelectUse off im io st) (mapSelectNote off im st)

def rIoMapSelect (io : RIO) (off : Ut64) : Ut64 × RIO :=
  let (io, st) := mapSelectScan off io.maps io ⟨0, off, -1, false⟩
  if !st.done then (st.paddr, (rIoSeek (rIoUseFd io st.fd) ut64Max .set).2)
  else if st.fd = -1 then (off, (rIoSeek io off .set).2)
  else
    let io := rIoUseFd io st.fd
    let io := if io.debug then (rIoSeek io off .set).2 else (rIoSeek io st.paddr .set).2
    (st.paddr, rIoUseFd io st.fd)

/-- `r_io_read_internal`: the bytes found and their number, or a result below one. -/
def rIoReadInternal (io : RIO) (len : Nat) : Int × List Ut8 :=
  match io.curDesc with
  | some d => d.data.read len
  | none => (0, [])

/-- Nothing is cached in mode 2, the mode of the functions that write the cache out. -/
def rIoCacheWrite (io : RIO) (addr : Ut64) (buf : List Ut8) : Int × RIO :=
  if io.cached = 2 then (0, io)
  else
    let io := (rIoSeek io addr .set).2
    let odata := ((rIoReadInternal io buf.length).2 ++ List.replicate buf.length 0xff).take buf.length
    let ch : RIOCache :=
      { fromAddr := addr
        toAddr := addr + BitVec.ofNat 64 buf.length
        data := buf
        odata := odata
        written := io.cached = 0
        sizes := by simp [odata] }
    (buf.length, { io with cache := io.cache ++ [ch] })

/-- Whether the ranges meet, and the distance of their starts cut to an `int`. -/
def rRangeOverlap (a0 a1 b0 b1 : Ut64) : Bool × Int :=
  (!(a1 < b0 || a0 > b1), wrapInt (b0 - a0).toNat)

/-- `memcpy` between two buffers; it fails where it would leave one of them. -/
def memcpy (dst : List Ut8) (da : Int) (src : List Ut8) (db l : Int) : Option (List Ut8) :=
  if 0 ≤ da ∧ 0 ≤ db ∧ 0 ≤ l ∧ da + l ≤ dst.length ∧ db + l ≤ src.length then
    some (dst.take da.toNat ++ (src.drop db.toNat).take l.toNat ++ dst.drop (da + l).toNat)
  else none

/-- The window of one item: place in the buffer, place in the item and length. -/
def cacheWindow (ret size : Int) : Int × Int × Int :=
  if ret > 0 then (ret, 0, size)
  else if ret < 0 then (0, wrapInt (-ret), wrapInt (size - wrapInt (-ret)))
  else (0, 0, size)

/-- Clamps the window to the buffer and copies it. The sum `l + da` is an `int`, so it can wrap. -/
def cacheCopy (len covered : Int) (buf data : List Ut8) (da db l : Int) :
    Option (Int × List Ut8) :=
  let l := if wrapInt (l + da) > len then wrapInt (len - da) else l
  if l < 1 then some (wrapInt (covered + 1), buf)
  else (memcpy buf da data db l).map (fun buf => (wrapInt (covered + l), buf))

def cacheReadItem (addr : Ut64) (len : Nat) (covered : Int) (buf : List Ut8) (c : RIOCache) :
    Option (Int × List Ut8) :=
  let overlap := rRangeOverlap addr (addr + BitVec.ofNat 64 len - 1) c.fromAddr c.toAddr
  if overlap.1 then
    let w := cacheWindow overlap.2 c.size
    cacheCopy len covered buf c.data w.1 w.2.1 w.2.2
  else some (covered, buf)

def cacheReadFrom (addr : Ut64) (len : Nat) : List RIOCache → Int → List Ut8 →
    Option (Int × List Ut8)
  | [], covered, buf => some (covered, buf)
  | c :: cs, covered, buf =>
    match cacheReadItem addr len covered buf c with
    | none => none
    | some (covered, buf) => cacheReadFrom addr len cs covered buf

/-- The number of bytes the source calls covered and the buffer it leaves; `none` where a copy
would leave a buffer. -/
def rIoCacheRead (io : RIO) (addr : Ut64) (buf : List Ut8) : Option (Int × List Ut8) :=
  cacheReadFrom addr buf.length io.cache 0 buf

/-- Number and contents of each descriptor, without its position. -/
def RIO.contents (io : RIO) : List (Int × List Ut8) := io.files.map (fun d => (d.fd, d.data.buf))

/-- Only offsets and the choice of the descriptor differ. -/
structure Moved (io io' : RIO) : Prop where
  frame : ∃ off files desc, io' = { io with off := off, files := files, desc := desc }
  contents : io'.contents = io.contents

namespace Moved

variable {io io' io'' : RIO}

theorem refl (io : RIO) : Moved io io := ⟨⟨io.off, io.files, io.desc, rfl⟩, rfl⟩

theorem trans (h : Moved io io') (h' : Moved io' io'') : Moved io io'' := by
  obtain ⟨⟨off, files, desc, rfl⟩, hc⟩ := h
  obtain ⟨⟨off', files', desc', rfl⟩, hc'⟩ := h'
  exact ⟨⟨off', files', desc', rfl⟩, hc'.trans hc⟩

theorem cache (h : Moved io io') : io'.cache = io.cache := by
  obtain ⟨⟨off, files, desc, rfl⟩, -⟩ := h
  rfl

theorem cached (h : Moved io io') : io'.cached = io.cached := by
  obtain ⟨⟨off, files, desc, rfl⟩, -⟩ := h
  rfl

end Moved

/-- A file that only changes its position keeps the contents. -/
theorem setData_moved (io : RIO) {d : RIODesc} (hd : io.curDesc = some d) (m : RIOMalloc)
    (hm : m.buf = d.data.buf) : Moved io (io.setData m) := by
  refine ⟨⟨io.off, _, io.desc, rfl⟩, ?_⟩
  cases hi : io.desc with
  | none => simp only [ RIO.contents, RIO.setData, hi]
  | some i =>
    have hdi : io.files[i]? = some d := by simpa [ RIO.curDesc, hi] using hd
    simp only [ RIO.contents, RIO.setData, hi]
    apply List.ext_getElem?
    intro j
    rw [List.getElem?_map, List.getElem?_map, List.getElem?_modify]
    by_cases hj : i = j
    · subst hj
      simp [hdi, hm]
    · simp [hj]

theorem lseek_buf (m : RIOMalloc) (offset : Ut64) (whence : RIOSeek) :
    (m.lseek offset whence).2.buf = m.buf := rfl

/-- Seeking moves offsets only. -/
theorem rIoSeek_moved (io : RIO) (offset : Ut64) (whence : RIOSeek) :
    Moved io (rIoSeek io offset whence).2 := by
  rw [rIoSeek]
  split
  · exact ⟨⟨offset, io.files, io.desc, rfl⟩, rfl⟩
  · split
    · exact Moved.refl io
    · split
      · exact Moved.refl io
      · rename_i d hd
        have h := setData_moved io hd _ (lseek_buf d.data (seekTarget io offset) whence)
        simp only
        split
        · exact h.trans ⟨⟨_, _, _, rfl⟩, rfl⟩
        · exact h

end Radare
