import Radare.Framework.MachineInt
import Radare.Framework.Windows

namespace Radare

open Framework (window overwrite getElem?_window getElem?_overwrite length_overwrite)

/-- A file whose reads and writes are exact, and the offset of the I/O over it. -/
structure ByteFile where
  content : List Ut8
  off : Ut64
  deriving DecidableEq

namespace ByteFile

def size (f : ByteFile) : Ut64 := BitVec.ofNat 64 f.content.length

/-- New bytes are zero. There is no empty file to resize to. -/
def resize (f : ByteFile) (count : Ut64) : Bool × ByteFile :=
  if count = 0 then (false, f)
  else
    (true, { f with
      content := f.content.take count.toNat ++ List.replicate (count.toNat - f.content.length) 0 })

def seek (f : ByteFile) (off : Ut64) : ByteFile := { f with off := off }

/-- The number of bytes between the offset and the end, `len` at most. -/
def found (f : ByteFile) (len : Int) : Nat := min len.toNat (f.content.length - f.off.toNat)

/-- `len` bytes go to the start of the buffer, `0xff` for those behind the end. A negative `len` reads
nothing. -/
def read (f : ByteFile) (buf : List Ut8) (len : Int) : List Ut8 × ByteFile :=
  (overwrite buf 0 (window f.content f.off.toNat (f.found len) ++ List.replicate (len.toNat - f.found len) 0xff),
    { f with off := f.off + BitVec.ofNat 64 len.toNat })

/-- The file keeps its size. -/
def write (f : ByteFile) (buf : List Ut8) (len : Int) : ByteFile :=
  if 0 < f.found len then
    { content := overwrite f.content f.off.toNat (buf.take (f.found len))
      off := f.off + BitVec.ofNat 64 (f.found len) }
  else f

end ByteFile

/-- `malloc` of `n` bytes, which hold `junk`. -/
def mallocBlock (junk : Nat → Ut8) (n : Ut64) : List Ut8 := (List.range n.toNat).map junk

/-- `r_io_extend` for a plugin without its own; `none` where `memset` leaves the buffer. Lengths reach
the reads and writes as an `int`. -/
def rIoExtend (junk : Nat → Ut8) (io : ByteFile) (size : Ut64) : Option (Bool × ByteFile) :=
  let currOff := io.off
  let curSize := io.size
  if size = 0 then some (false, io)
  else if (io.resize (size + curSize)).1 = false then some (false, io)
  else
    let tmpSize := if curSize < size then size - curSize else curSize - size
    -- shift the bytes over by size
    let r := ((io.resize (size + curSize)).2.seek currOff).read (mallocBlock junk tmpSize) (wrapInt tmpSize.toNat)
    -- move/write the bytes
    let io := (r.2.seek (currOff + size)).write r.1 (wrapInt tmpSize.toNat)
    -- zero out new bytes
    let buffer := if curSize < size then mallocBlock junk size else r.1
    if buffer.length < size.toNat then none
    else
      let buffer := overwrite buffer 0 (List.replicate size.toNat 0)
      let io := (io.seek currOff).write buffer (wrapInt size.toNat)
      some (true, io.seek currOff)

section Bytes

variable (f : ByteFile) {buf : List Ut8} {len : Int}

@[simp] theorem ByteFile.seek_content (off : Ut64) : (f.seek off).content = f.content := rfl

@[simp] theorem ByteFile.seek_off (off : Ut64) : (f.seek off).off = off := rfl

@[simp] theorem ByteFile.read_content (buf : List Ut8) (len : Int) : (f.read buf len).2.content = f.content := rfl

theorem ByteFile.found_le (len : Int) : f.found len ≤ len.toNat ∧ f.found len ≤ f.content.length - f.off.toNat :=
  ⟨Nat.min_le_left _ _, Nat.min_le_right _ _⟩

theorem ByteFile.lt_found {i : Nat} (hi : i < len.toNat) (hin : f.off.toNat + i < f.content.length) :
    i < f.found len := by
  rw [found]
  omega

theorem ByteFile.length_read (hlen : len.toNat ≤ buf.length) : (f.read buf len).1.length = buf.length := by
  have hfound := f.found_le len
  rw [read, length_overwrite]
  simp only [List.length_append, window, List.length_take, List.length_drop, List.length_replicate]
  omega

theorem ByteFile.read_getElem? (hlen : len.toNat ≤ buf.length) {i : Nat} (hi : i < len.toNat)
    (hin : f.off.toNat + i < f.content.length) : (f.read buf len).1[i]? = f.content[f.off.toNat + i]? := by
  have hfound := f.found_le len
  have hlt := f.lt_found hi hin
  have hwin : (window f.content f.off.toNat (f.found len)).length = f.found len :=
    Framework.length_window (by omega)
  rw [read, getElem?_overwrite (by simp only [List.length_append, hwin, List.length_replicate]; omega),
    if_pos (by simp only [List.length_append, hwin, List.length_replicate]; omega), Nat.sub_zero,
    List.getElem?_append_left (by omega), getElem?_window, if_pos hlt]

theorem ByteFile.length_write (hlen : len.toNat ≤ buf.length) :
    (f.write buf len).content.length = f.content.length := by
  have hfound := f.found_le len
  rw [write]
  split_ifs with hpos
  · exact length_overwrite (by rw [List.length_take]; omega)
  · rfl

/-- What a write leaves at a place of the file. -/
theorem ByteFile.write_getElem? (hlen : len.toNat ≤ buf.length) {start i : Nat} (hstart : f.off.toNat = start)
    (hi : i < f.content.length) : (f.write buf len).content[i]? =
      if start ≤ i ∧ i < start + len.toNat then buf[i - start]? else f.content[i]? := by
  subst hstart
  have hfound := f.found_le len
  by_cases hin : f.off.toNat ≤ i ∧ i < f.off.toNat + len.toNat
  · have hlt : i - f.off.toNat < f.found len := f.lt_found (by omega) (by omega)
    have htake : (buf.take (f.found len)).length = f.found len := List.length_take_of_le (by omega)
    rw [write, if_pos (by omega), if_pos hin, getElem?_overwrite (by omega), if_pos (by omega),
      List.getElem?_take_of_lt hlt]
  · rw [if_neg hin, write]
    split_ifs with hpos
    · have htake : (buf.take (f.found len)).length = f.found len := List.length_take_of_le (by omega)
      rw [getElem?_overwrite (by omega), if_neg (by omega)]
    · rfl

theorem ByteFile.length_resize (count : Ut64) (h : count ≠ 0) : (f.resize count).2.content.length = count.toNat := by
  rw [resize, if_neg h]
  simp only [List.length_append, List.length_take, List.length_replicate]
  omega

/-- A byte behind the old end is zero. -/
theorem ByteFile.resize_getElem? (count : Ut64) (h : count ≠ 0) {i : Nat} (hi : i < count.toNat) :
    (f.resize count).2.content[i]? = some (f.content.getD i 0) := by
  rw [resize, if_neg h, List.getD_eq_getElem?_getD]
  by_cases hold : i < f.content.length
  · rw [List.getElem?_append_left (by rw [List.length_take]; omega), List.getElem?_take_of_lt hi,
      List.getElem?_eq_getElem hold]
    rfl
  · rw [List.getElem?_append_right (by rw [List.length_take]; omega), List.length_take,
      List.getElem?_replicate, if_pos (by omega), List.getElem?_eq_none (by omega)]
    rfl

end Bytes

/-- The number of bytes that are moved when `size` bytes come into a file of `n`. -/
def extendTmp (n size : Nat) : Nat := if n < size then size - n else n - size

/-- The file with `size` zero bytes in front of the byte at `off`. -/
def inserted (bs : List Ut8) (off size : Nat) : List Ut8 :=
  bs.take off ++ List.replicate size 0 ++ bs.drop off

/-- `memset` stays in its buffer, the new size fits, and a byte that no read and write reaches is already
the right one: a zero where the new bytes come, and the byte `size` behind it where it should move. -/
structure ExtendFits (bs : List Ut8) (off size : Nat) : Prop where
  room : bs.length < size ∨ 2 * size ≤ bs.length
  total : bs.length + size < 18446744073709551616
  zeros : ∀ i, off + (wrapInt size).toNat ≤ i → i < off + size → bs.getD i 0 = 0
  moves : ∀ i, off + (wrapInt (extendTmp bs.length size)).toNat ≤ i → i < bs.length →
    bs.getD i 0 = bs.getD (i + size) 0

section Run

theorem wrapInt_toNat_le (n : Nat) : (wrapInt n).toNat ≤ n := by
  unfold wrapInt
  omega

theorem length_mallocBlock (junk : Nat → Ut8) (n : Ut64) : (mallocBlock junk n).length = n.toNat := by
  simp [mallocBlock]

theorem inserted_getElem? (bs : List Ut8) {off size i : Nat} (hoff : off ≤ bs.length)
    (hi : i < bs.length + size) : (inserted bs off size)[i]? =
      some (if i < off then bs.getD i 0 else if i < off + size then 0 else bs.getD (i - size) 0) := by
  have htake : (bs.take off).length = off := List.length_take_of_le hoff
  rw [inserted, List.append_assoc, List.getD_eq_getElem?_getD, List.getD_eq_getElem?_getD]
  by_cases hlow : i < off
  · rw [List.getElem?_append_left (by omega), List.getElem?_take_of_lt hlow, if_pos hlow,
      List.getElem?_eq_getElem (by omega)]
    rfl
  · rw [List.getElem?_append_right (by omega), htake, if_neg hlow]
    by_cases hnew : i < off + size
    · rw [List.getElem?_append_left (by simp; omega), List.getElem?_replicate, if_pos (by omega), if_pos hnew]
    · rw [List.getElem?_append_right (by simp; omega), List.length_replicate, List.getElem?_drop, if_neg hnew,
        show off + (i - off - size) = i - size by omega, List.getElem?_eq_getElem (by omega)]
      rfl

variable (junk : Nat → Ut8) (io : ByteFile) {size : Ut64}

theorem toNat_tmpSize (size : Ut64) (hn : io.content.length < 18446744073709551616) :
    (if io.size < size then size - io.size else io.size - size).toNat =
      extendTmp io.content.length size.toNat := by
  have hcur : io.size.toNat = io.content.length := by
    rw [ByteFile.size, BitVec.toNat_ofNat]
    exact Nat.mod_eq_of_lt hn
  rw [extendTmp, ← hcur]
  by_cases hlt : io.size < size
  · rw [if_pos hlt, if_pos (BitVec.lt_def.mp hlt)]
    exact BitVec.toNat_sub_of_le (BitVec.le_of_lt hlt)
  · rw [if_neg hlt, if_neg (fun h => hlt (BitVec.lt_def.mpr h))]
    exact BitVec.toNat_sub_of_le (BitVec.not_lt.mp hlt)

/-- The buffer that is read at one place and written at another. -/
theorem moved_getElem? (f : ByteFile) {buf : List Ut8} {len : Int} (src dst : Ut64) (hlen : len.toNat ≤ buf.length)
    (hle : src.toNat ≤ dst.toNat) {i : Nat} (hi : i < f.content.length) :
    ((((f.seek src).read buf len).2.seek dst).write ((f.seek src).read buf len).1 len).content[i]? =
      if dst.toNat ≤ i ∧ i < dst.toNat + len.toNat then f.content[src.toNat + (i - dst.toNat)]?
      else f.content[i]? := by
  have hread := (f.seek src).length_read hlen
  have hstart : (((f.seek src).read buf len).2.seek dst).off.toNat = dst.toNat := rfl
  rw [ByteFile.write_getElem? _ (by omega) hstart (by simpa using hi)]
  by_cases hin : dst.toNat ≤ i ∧ i < dst.toNat + len.toNat
  · have hplace : i - dst.toNat < len.toNat := by omega
    have hend : src.toNat + (i - dst.toNat) < f.content.length := by omega
    rw [if_pos hin, if_pos hin]
    exact (f.seek src).read_getElem? hlen hplace hend
  · rw [if_neg hin, if_neg hin]
    rfl

theorem length_moved (f : ByteFile) {buf : List Ut8} {len : Int} (src dst : Ut64) (hlen : len.toNat ≤ buf.length) :
    ((((f.seek src).read buf len).2.seek dst).write ((f.seek src).read buf len).1 len).content.length =
      f.content.length := by
  have hread := (f.seek src).length_read hlen
  exact ByteFile.length_write _ (by omega)

/-- What `r_io_extend` leaves when `memset` stays in its buffer. -/
theorem rIoExtend_run (hsize : size ≠ 0) (hcount : size + io.size ≠ 0)
    (hroom : io.size < size ∨ size.toNat ≤ (io.size - size).toNat) :
    ∃ content, rIoExtend junk io size = some (true, ⟨content, io.off⟩) ∧
      content.length = (size + io.size).toNat ∧
      ((io.off + size).toNat = io.off.toNat + size.toNat → ∀ i < (size + io.size).toNat, content[i]? =
        some (if io.off.toNat ≤ i ∧ i < io.off.toNat + (wrapInt size.toNat).toNat then 0
          else if io.off.toNat + size.toNat ≤ i ∧ i < io.off.toNat + size.toNat +
              (wrapInt (if io.size < size then size - io.size else io.size - size).toNat).toNat then
            io.content.getD (i - size.toNat) 0
          else io.content.getD i 0)) := by
  obtain ⟨tmp, htmp⟩ : ∃ tmp, (if io.size < size then size - io.size else io.size - size) = tmp := ⟨_, rfl⟩
  obtain ⟨f, hf⟩ : ∃ f, (io.resize (size + io.size)).2 = f := ⟨_, rfl⟩
  obtain ⟨len, hlen⟩ : ∃ len, wrapInt tmp.toNat = len := ⟨_, rfl⟩
  obtain ⟨r, hr⟩ : ∃ r, (f.seek io.off).read (mallocBlock junk tmp) len = r := ⟨_, rfl⟩
  obtain ⟨buffer, hbuffer⟩ : ∃ buffer, (if io.size < size then mallocBlock junk size else r.1) = buffer := ⟨_, rfl⟩
  have hfits : len.toNat ≤ (mallocBlock junk tmp).length := by
    rw [length_mallocBlock, ← hlen]
    exact wrapInt_toNat_le _
  have hlong : ¬buffer.length < size.toNat := by
    rw [← hbuffer]
    by_cases hlt : io.size < size
    · rw [if_pos hlt, length_mallocBlock]
      exact lt_irrefl _
    · rw [if_neg hlt, ← hr, ByteFile.length_read _ hfits, length_mallocBlock, ← htmp, if_neg hlt]
      exact not_lt.mpr (hroom.resolve_left hlt)
  obtain ⟨g, hg⟩ : ∃ g, (r.2.seek (io.off + size)).write r.1 len = g := ⟨_, rfl⟩
  have hzeros : (wrapInt size.toNat).toNat ≤ (overwrite buffer 0 (List.replicate size.toNat 0)).length := by
    have hle := wrapInt_toNat_le size.toNat
    rw [length_overwrite (by rw [List.length_replicate]; omega)]
    omega
  have hrun : rIoExtend junk io size = some (true,
      ((g.seek io.off).write (overwrite buffer 0 (List.replicate size.toNat 0)) (wrapInt size.toNat)).seek
        io.off) := by
    have htrue : (io.resize (size + io.size)).1 = true := by rw [ByteFile.resize, if_neg hcount]
    rw [rIoExtend]
    dsimp only
    rw [if_neg hsize, if_neg (by rw [htrue]; decide), htmp, hf, hlen, hr,
      hbuffer, if_neg hlong, hg]
  have hlength : g.content.length = (size + io.size).toNat := by
    rw [← hg, ← hr, length_moved f io.off _ hfits, ← hf, ByteFile.length_resize _ _ hcount]
  refine ⟨_, hrun, ?_, ?_⟩
  · rw [ByteFile.length_write _ hzeros]
    exact hlength
  · intro hoff i hi
    have hold : f.content[i]? = some (io.content.getD i 0) := by
      rw [← hf]
      exact io.resize_getElem? _ hcount hi
    have hstart : (g.seek io.off).off.toNat = io.off.toNat := rfl
    change ((g.seek io.off).write _ _).content[i]? = _
    rw [ByteFile.write_getElem? _ hzeros hstart (by simpa using lt_of_lt_of_eq hi hlength.symm),
      ByteFile.seek_content]
    by_cases hnew : io.off.toNat ≤ i ∧ i < io.off.toNat + (wrapInt size.toNat).toNat
    · have hle := wrapInt_toNat_le size.toNat
      rw [if_pos hnew, if_pos hnew, getElem?_overwrite (by rw [List.length_replicate]; omega),
        if_pos (by rw [List.length_replicate]; omega), List.getElem?_replicate, if_pos (by omega)]
    · rw [if_neg hnew, if_neg hnew, ← hg, ← hr, moved_getElem? f io.off _ hfits (by omega) (by
        rw [← hf, ByteFile.length_resize _ _ hcount]; exact hi), hoff, htmp, hlen]
      by_cases hmoved : io.off.toNat + size.toNat ≤ i ∧ i < io.off.toNat + size.toNat + len.toNat
      · rw [if_pos hmoved, if_pos hmoved, ← hf,
          show io.off.toNat + (i - (io.off.toNat + size.toNat)) = i - size.toNat by omega]
        exact io.resize_getElem? _ hcount (by omega)
      · rw [if_neg hmoved, if_neg hmoved, hold]

/-- A buffer that is too short is overrun. -/
theorem rIoExtend_overrun (hsize : size ≠ 0) (hcount : size + io.size ≠ 0)
    (hroom : ¬(io.size < size ∨ size.toNat ≤ (io.size - size).toNat)) : rIoExtend junk io size = none := by
  rw [not_or] at hroom
  obtain ⟨hlt, hshort⟩ := hroom
  have htrue : (io.resize (size + io.size)).1 = true := by rw [ByteFile.resize, if_neg hcount]
  have hfits : (wrapInt (io.size - size).toNat).toNat ≤ (mallocBlock junk (io.size - size)).length := by
    rw [length_mallocBlock]
    exact wrapInt_toNat_le _
  rw [rIoExtend]
  dsimp only
  rw [if_neg hsize, if_neg (by rw [htrue]; decide), if_neg hlt, if_neg hlt, if_pos]
  rw [ByteFile.length_read _ hfits, length_mallocBlock]
  exact not_le.mp hshort

end Run

/-- The bytes are the right ones when `z` of them are cleared and `t` of them are moved. -/
theorem extend_bytes_iff (bs : List Ut8) {off size z t : Nat} (hoff : off ≤ bs.length) (hz : z ≤ size) :
    (∀ i < bs.length + size,
      (if off ≤ i ∧ i < off + z then 0
        else if off + size ≤ i ∧ i < off + size + t then bs.getD (i - size) 0 else bs.getD i 0) =
      if i < off then bs.getD i 0 else if i < off + size then 0 else bs.getD (i - size) 0) ↔
      (∀ i, off + z ≤ i → i < off + size → bs.getD i 0 = 0) ∧
        ∀ i, off + t ≤ i → i < bs.length → bs.getD i 0 = bs.getD (i + size) 0 := by
  constructor
  · intro h
    refine ⟨?_, ?_⟩
    · intro i hlow hhigh
      have hi := h i (by omega)
      rw [if_neg (by omega), if_neg (by omega), if_neg (by omega), if_pos hhigh] at hi
      exact hi
    · intro i hlow hhigh
      have hi := h (i + size) (by omega)
      rw [if_neg (by omega), if_neg (by omega), if_neg (by omega), if_neg (by omega), Nat.add_sub_cancel] at hi
      exact hi.symm
  · intro h i hi
    obtain ⟨hzeros, hmoves⟩ := h
    by_cases hlow : i < off
    · rw [if_neg (by omega), if_neg (by omega), if_pos hlow]
    · rw [if_neg hlow]
      by_cases hnew : i < off + size
      · rw [if_pos hnew]
        by_cases hclear : i < off + z
        · rw [if_pos (by omega)]
        · rw [if_neg (by omega), if_neg (by omega)]
          exact hzeros i (by omega) hnew
      · rw [if_neg hnew, if_neg (by omega)]
        by_cases hmoved : i < off + size + t
        · rw [if_pos (by omega)]
        · have hbyte := hmoves (i - size) (by omega) (by omega)
          rw [if_neg (by omega), hbyte, Nat.sub_add_cancel (by omega)]

/-- `r_io_extend` inserts the zero bytes exactly where the condition is met. -/
theorem extend_inserts_iff (junk : Nat → Ut8) (bs : List Ut8) (off size : Ut64)
    (hbs : bs.length < 18446744073709551616) (hoff : off.toNat ≤ bs.length) (hsize : 0 < size.toNat) :
    rIoExtend junk ⟨bs, off⟩ size = some (true, ⟨inserted bs off.toNat size.toNat, off⟩) ↔
      ExtendFits bs off.toNat size.toNat := by
  obtain ⟨io, hio⟩ : ∃ io : ByteFile, (⟨bs, off⟩ : ByteFile) = io := ⟨_, rfl⟩
  have hcontent : io.content = bs := by rw [← hio]
  have hpos : io.off = off := by rw [← hio]
  have hsize0 : size ≠ 0 := by
    intro h
    rw [h] at hsize
    exact absurd hsize (lt_irrefl _)
  have hcur : io.size.toNat = bs.length := by
    rw [ByteFile.size, hcontent, BitVec.toNat_ofNat]
    exact Nat.mod_eq_of_lt hbs
  have hsizelt := size.isLt
  have hsum : (size + io.size).toNat = (size.toNat + bs.length) % 18446744073709551616 := by
    rw [BitVec.toNat_add, hcur]
  have hinserted : (inserted bs off.toNat size.toNat).length = bs.length + size.toNat := by
    simp only [inserted, List.length_append, List.length_take, List.length_replicate, List.length_drop]
    omega
  have htmp := toNat_tmpSize io size (by rw [hcontent]; exact hbs)
  have hroom : io.size < size ∨ size.toNat ≤ (io.size - size).toNat ↔
      bs.length < size.toNat ∨ 2 * size.toNat ≤ bs.length := by
    rw [BitVec.lt_def, hcur]
    by_cases hlt : bs.length < size.toNat
    · exact iff_of_true (Or.inl hlt) (Or.inl hlt)
    · rw [BitVec.toNat_sub_of_le (by rw [BitVec.le_def]; omega), hcur]
      omega
  rw [hio]
  constructor
  · intro h
    have hcount : size + io.size ≠ 0 := by
      intro hzero
      rw [rIoExtend] at h
      dsimp only at h
      rw [if_neg hsize0, ByteFile.resize, if_pos hzero, if_pos rfl] at h
      cases h
    have hfits : io.size < size ∨ size.toNat ≤ (io.size - size).toNat := by
      by_contra hnot
      rw [rIoExtend_overrun junk io hsize0 hcount hnot] at h
      cases h
    obtain ⟨content, hrun, hlength, hbytes⟩ := rIoExtend_run junk io hsize0 hcount hfits
    rw [hrun, Option.some.injEq, Prod.mk.injEq, ByteFile.mk.injEq] at h
    obtain ⟨-, hsame, -⟩ := h
    rw [hsame, hinserted, hsum] at hlength
    have htotal : bs.length + size.toNat < 18446744073709551616 := by omega
    have hend : (off + size).toNat = off.toNat + size.toNat := by
      rw [BitVec.toNat_add]
      omega
    rw [hpos, htmp, hcontent, hsame] at hbytes
    have hbytes' := (extend_bytes_iff bs hoff (wrapInt_toNat_le size.toNat)).mp (fun i hi => by
      have hi' : i < (size + io.size).toNat := hi.trans_eq (hlength.trans hsum.symm)
      rw [← Option.some.injEq, ← inserted_getElem? bs hoff hi, hbytes hend i hi'])
    exact ⟨hroom.mp hfits, htotal, hbytes'.1, hbytes'.2⟩
  · intro h
    have htotal := h.total
    have hcount : size + io.size ≠ 0 := by
      intro hzero
      rw [hzero, Nat.mod_eq_of_lt (by omega)] at hsum
      have hnone : size.toNat + bs.length = 0 := hsum.symm
      omega
    have hend : (off + size).toNat = off.toNat + size.toNat := by
      rw [BitVec.toNat_add]
      omega
    obtain ⟨content, hrun, hlength, hbytes⟩ := rIoExtend_run junk io hsize0 hcount (hroom.mpr h.room)
    rw [hpos, htmp, hcontent] at hbytes
    have hlen : (size + io.size).toNat = bs.length + size.toNat := by omega
    have hsame : content = inserted bs off.toNat size.toNat := by
      apply List.ext_getElem?
      intro i
      by_cases hi : i < bs.length + size.toNat
      · rw [hbytes hend i (by rw [hlen]; exact hi), inserted_getElem? bs hoff hi,
          (extend_bytes_iff bs hoff (wrapInt_toNat_le size.toNat)).mpr ⟨h.zeros, h.moves⟩ i hi]
      · rw [List.getElem?_eq_none (by rw [hlength, hlen]; exact not_lt.mp hi),
          List.getElem?_eq_none (by rw [hinserted]; exact not_lt.mp hi)]
    rw [hrun, hsame, hpos]

/-- A byte in the middle of four bytes. -/
theorem extend_inserts_one :
    rIoExtend (fun _ => 0xaa) ⟨[1, 2, 3, 4], 2⟩ 1 = some (true, ⟨inserted [1, 2, 3, 4] 2 1, 2⟩) :=
  (extend_inserts_iff (fun _ => 0xaa) [1, 2, 3, 4] 2 1 (by decide) (by decide) (by decide)).mpr
    ⟨by decide, by decide, by decide, by decide⟩

/-- At the start of a file the last byte is lost, and two bytes overrun the buffer in a file of three. -/
theorem extend_loses_byte :
    rIoExtend (fun _ => 0xaa) ⟨[1, 2, 3, 4], 0⟩ 1 = some (true, ⟨[0, 1, 2, 3, 0], 0⟩) ∧
      inserted [1, 2, 3, 4] 0 1 = [0, 1, 2, 3, 4] ∧ rIoExtend (fun _ => 0xaa) ⟨[1, 2, 3], 1⟩ 2 = none := by
  decide

end Radare
