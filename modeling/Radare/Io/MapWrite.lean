import Radare.Framework.Windows
import Radare.Io.VioProof

namespace Radare

open Framework (window overwrite getElem?_window getElem?_overwrite length_overwrite)

/-- The bytes taken through a pointer that is `p` behind the start of the buffer; `none` where it
leaves the buffer. -/
def load (buf : List Ut8) (p : Ut64) (n : Nat) : Option (List Ut8) :=
  if n = 0 then some []
  else if p.toNat + n ≤ buf.length then some (window buf p.toNat n)
  else none

def rIoPwrite (io : RIO) (paddr : Ut64) (buf : List Ut8) : Int × RIO :=
  let len := if ut64Max - BitVec.ofNat 64 buf.length < paddr then (ut64Max - paddr).toNat else buf.length
  let io := (rIoSeek io paddr .set).2
  match io.curDesc with
  | none => (0, io)
  | some d => ((d.data.write (buf.take len)).1, io.setData (d.data.write (buf.take len)).2)

/-- `r_io_mwrite` of the first `len` bytes of `buf`. The flags of a map are `flags` of it. -/
def rIoMwrite (flags : RIOMap → Nat) (io : RIO) (fd : Int) (maddr : Ut64) (buf : List Ut8) (len : Int) :
    Option (Int × RIO) :=
  if len < 0 then some (rFail, io)
  else
    let writeBytes :=
      if ut64Max - BitVec.ofInt 64 len < maddr then wrapInt (ut64Max - maddr).toNat else len
    match (rIoMapResolveInRange io maddr (maddr + BitVec.ofInt 64 writeBytes) fd).or
        (rIoMapResolve io fd) with
    | none => some (rError, io)
    | some map =>
      match mapPart map maddr writeBytes with
      | none => some (rFail, io)
      | some (d, writeBytes) =>
        if flags map &&& rIoWriteFlag = 0 then some (writeBytes, io)
        else
          match rIoDescGet io fd with
          | none => some (rError, io)
          | some i =>
            (load buf d writeBytes.toNat).map (fun bs =>
              let r := rIoPwrite { io with desc := some i } (maddr + d - map.fromAddr + map.delta) bs
              (r.1, { r.2 with desc := io.desc }))

/-- How many of `n` bytes are not cut at the top of the addresses. -/
def clipped (maddr : Ut64) (n : Nat) : Int :=
  if ut64Max - BitVec.ofInt 64 n < maddr then wrapInt (ut64Max - maddr).toNat else n

/-- The map that a transfer of `n` bytes goes through. -/
def resolvedMap (io : RIO) (fd : Int) (maddr : Ut64) (n : Nat) : Option RIOMap :=
  (rIoMapResolveInRange io maddr (maddr + BitVec.ofInt 64 (clipped maddr n)) fd).or (rIoMapResolve io fd)

/-- The place in the file of the first byte of a transfer that the map holds. -/
def RIOMap.paddr (m : RIOMap) (maddr : Ut64) : Ut64 :=
  maddr + BitVec.ofNat 64 (m.skipped maddr) - m.fromAddr + m.delta

/-- The place in the file of the byte `i` of a transfer. -/
def RIOMap.place (m : RIOMap) (maddr : Ut64) (i : Nat) : Nat := (m.paddr maddr).toNat + (i - m.skipped maddr)

section Part

/-- What is cut at the top of the addresses lies in no map. -/
theorem clipped_inside (maddr : Ut64) {n : Nat} (hn : n < 2147483648) :
    ∃ k ≤ n, clipped maddr n = k ∧ maddr.toNat + k < 18446744073709551616 ∧
      ∀ m : RIOMap, ∀ i < n, m.Inside maddr i → i < k := by
  obtain ⟨k, hkn, hk, hw, htop⟩ := mread_clip maddr hn
  refine ⟨k, hkn, hk, hw, ?_⟩
  intro m i hi hin
  have hto := m.toAddr.isLt
  obtain ⟨-, hbelow⟩ := hin
  omega

end Part

section Write

/-- The contents of a file after a write at a place in it; what lies behind the end is left out. -/
def written (content : List Ut8) (p : Nat) (bs : List Ut8) : List Ut8 :=
  if p < content.length then overwrite content p (bs.take (content.length - p)) else content

theorem written_length (content : List Ut8) (p : Nat) (bs : List Ut8) :
    (written content p bs).length = content.length := by
  rw [written]
  split_ifs with hp
  · exact length_overwrite (by rw [List.length_take]; omega)
  · rfl

theorem written_getElem? (content : List Ut8) (p : Nat) (bs : List Ut8) {q : Nat} (hq : q < content.length) :
    (written content p bs)[q]? = if p ≤ q ∧ q < p + bs.length then bs[q - p]? else content[q]? := by
  rw [written]
  by_cases hp : p < content.length
  · have htake : (bs.take (content.length - p)).length = min (content.length - p) bs.length := List.length_take
    rw [if_pos hp, getElem?_overwrite (by omega)]
    by_cases hin : p ≤ q ∧ q < p + bs.length
    · rw [if_pos (by omega), if_pos hin, List.getElem?_take_of_lt (by omega)]
    · rw [if_neg (by omega), if_neg hin]
  · rw [if_neg hp, if_neg (by omega)]

theorem written_nil (content : List Ut8) (p : Nat) : written content p [] = content := by
  rw [written]
  split_ifs
  · simp [overwrite]
  · rfl

theorem RIOMalloc.write_buf (m : RIOMalloc) (bs : List Ut8) (h : m.offset.toNat ≤ m.size) :
    (m.write bs).2.buf = written m.buf m.offset.toNat bs := by
  have hle : ¬m.offset > BitVec.ofNat 64 m.size := by
    rw [gt_iff_lt, BitVec.lt_def, m.toNat_size]
    omega
  rw [RIOMalloc.size] at h
  rw [RIOMalloc.write, written]
  dsimp only
  rw [if_neg hle]
  by_cases hpos : 0 < min bs.length (m.size - m.offset.toNat)
  · have hp : m.offset.toNat < m.buf.length := by
      rw [RIOMalloc.size] at hpos
      omega
    have htake : (bs.take (m.buf.length - m.offset.toNat)).length = min bs.length (m.buf.length - m.offset.toNat) := by
      rw [List.length_take, Nat.min_comm]
    have hsame : bs.take (min bs.length (m.buf.length - m.offset.toNat)) =
        bs.take (m.buf.length - m.offset.toNat) := by
      rw [List.take_eq_take_iff]
      omega
    rw [if_pos hpos, if_pos hp, overwrite, htake, ← hsame]
    rfl
  · rw [if_neg hpos]
    by_cases hp : m.offset.toNat < m.buf.length
    · have hnil : bs = [] := by
        rw [RIOMalloc.size] at hpos
        exact List.length_eq_zero_iff.mp (by omega)
      rw [← written, hnil, written_nil]
    · rw [if_neg hp]

theorem RIOMalloc.write_nil (m : RIOMalloc) : (m.write []).2.buf = m.buf := by
  rw [RIOMalloc.write]
  dsimp only
  split_ifs
  · rfl
  · simp_all
  · rfl

/-- A write behind a seek to `t`. -/
theorem RIOMalloc.write_clamp (m : RIOMalloc) (t : Ut64) (bs : List Ut8) :
    (RIOMalloc.write { m with offset := m.clamp t } bs).2.buf = written m.buf t.toNat bs := by
  have hclamp := m.toNat_clamp t
  rw [RIOMalloc.write_buf _ _ (by change (m.clamp t).toNat ≤ m.size; omega)]
  change written m.buf (m.clamp t).toNat bs = _
  rw [hclamp]
  by_cases hp : t.toNat ≤ m.size
  · rw [Nat.min_eq_left hp]
  · rw [RIOMalloc.size] at hp ⊢
    rw [Nat.min_eq_right (by omega), written, written, if_neg (by omega), if_neg (by omega)]

/-- A write is not changed by a cut behind the end of the file. -/
theorem written_take (content : List Ut8) {p n : Nat} (bs : List Ut8) (h : bs.length ≤ n ∨ content.length ≤ p) :
    written content p (bs.take n) = written content p bs := by
  rcases h with h | h
  · rw [List.take_of_length_le h]
  · rw [written, written, if_neg (by omega), if_neg (by omega)]

theorem setData_contents {io : RIO} {i : Nat} (hi : io.desc = some i) (m : RIOMalloc) :
    (io.setData m).contents = io.contents.modify i (fun x => (x.1, m.buf)) := by
  simp only [ RIO.setData, RIO.contents, hi]
  apply List.ext_getElem?
  intro j
  simp only [List.getElem?_map, List.getElem?_modify]
  cases io.files[j]? with
  | none => rfl
  | some d => by_cases hj : i = j <;> simp [hj]

/-- The file that a state and the one behind a write differ in. -/
structure WroteFile (io io' : RIO) (i : Nat) (content' : List Ut8) : Prop where
  frame : ∃ off files, io' = { io with off := off, files := files }
  contents : io'.contents = io.contents.modify i (fun x => (x.1, content'))

/-- A write through a descriptor at a place that no section moves. -/
theorem rIoPwrite_wrote (io : RIO) {i : Nat} {d : RIODesc} (paddr : Ut64) (bs : List Ut8)
    (hb : io.bufferEnabled = false) (hi : io.desc = some i) (hd : io.files[i]? = some d)
    (hseek : seekTarget io paddr = paddr) (hbs : bs.length < 2147483648) :
    WroteFile io (rIoPwrite io paddr bs).2 i (written d.data.buf paddr.toNat bs) := by
  have hcur : io.curDesc = some d := by rw [ RIO.curDesc, hi]; exact hd
  have hmoved := rIoSeek_seeked io paddr .set
  have hdesc := hmoved.desc
  obtain ⟨⟨⟨off, files, desc, hframe⟩, hcontents⟩, -⟩ := hmoved
  obtain ⟨len, hlen⟩ : ∃ len, (if ut64Max - BitVec.ofNat 64 bs.length < paddr then (ut64Max - paddr).toNat
      else bs.length) = len := ⟨_, rfl⟩
  obtain ⟨d', hd', hbytes⟩ : ∃ d', (rIoSeek io paddr .set).2.curDesc = some d' ∧
      (d'.data.write (bs.take len)).2.buf = written d.data.buf paddr.toNat bs := by
    have hsize := d.data.size_lt
    have hof : (BitVec.ofNat 64 bs.length).toNat = bs.length := by
      rw [BitVec.toNat_ofNat]
      omega
    have hroom : (ut64Max - BitVec.ofNat 64 bs.length).toNat = 18446744073709551615 - bs.length := by
      rw [BitVec.toNat_sub_of_le (by rw [BitVec.le_def, toNat_ut64Max, hof]; omega), toNat_ut64Max, hof]
    have hcut : bs.length ≤ len ∧ bs.length + paddr.toNat ≤ 18446744073709551615 ∨
        len = 18446744073709551615 - paddr.toNat ∧ 18446744073709551615 < bs.length + paddr.toNat := by
      have hpaddr := paddr.isLt
      by_cases hover : ut64Max - BitVec.ofNat 64 bs.length < paddr
      · rw [if_pos hover, BitVec.toNat_sub_of_le (by rw [BitVec.le_def, toNat_ut64Max]; omega), toNat_ut64Max] at hlen
        rw [BitVec.lt_def, hroom] at hover
        exact Or.inr ⟨hlen.symm, by omega⟩
      · rw [if_neg hover] at hlen
        rw [BitVec.lt_def, hroom] at hover
        exact Or.inl ⟨hlen.le, by omega⟩
    by_cases hmax : paddr = ut64Max
    · refine ⟨d, ?_, ?_⟩
      · rw [rIoSeek, hb, if_neg Bool.false_ne_true, hseek, if_pos hmax]
        exact hcur
      · have htop : paddr.toNat = 18446744073709551615 := (eq_ut64Max_iff paddr).mp hmax
        have hnone : bs.take len = [] := List.take_eq_nil_iff.mpr (by
          rcases hcut with hc | hc
          · exact Or.inr (List.length_eq_zero_iff.mp (by omega))
          · exact Or.inl (by omega))
        rw [hnone, RIOMalloc.write_nil, written, if_neg (by omega)]
    · refine ⟨_, rIoSeek_curDesc hb hcur (by rw [hseek]; exact hmax), ?_⟩
      rw [hseek, ← written_take d.data.buf (n := len) bs (by omega)]
      exact d.data.write_clamp paddr (bs.take len)
  have hrun : (rIoPwrite io paddr bs).2 = (rIoSeek io paddr .set).2.setData (d'.data.write (bs.take len)).2 := by
    rw [rIoPwrite, hlen, hd']
  refine ⟨?_, ?_⟩
  · rw [hrun, hframe]
    rw [hframe] at hdesc
    exact ⟨off, _, by rw [ RIO.setData, show desc = io.desc from hdesc]⟩
  · rw [hrun, setData_contents (hdesc.trans hi), hbytes, hcontents]

end Write

section Transfer

variable {io : RIO} {fd : Int} {i j k : Nat} {d : RIODesc} {maddr : Ut64} {m : RIOMap} {b : List Ut8}

theorem seekTarget_off (hva : io.va = false) (x : Ut64) : seekTarget io x = x := by
  rw [seekTarget, hva]
  simp

theorem toNat_skipped (m : RIOMap) (maddr : Ut64) :
    (BitVec.ofNat 64 (m.skipped maddr)).toNat = m.skipped maddr := by
  have hlt := m.fromAddr.isLt
  rw [BitVec.toNat_ofNat, RIOMap.skipped]
  omega

theorem load_window {n : Nat} (buf : List Ut8) (p : Ut64) (h : p.toNat + n ≤ buf.length) :
    load buf p n = some (window buf p.toNat n) := by
  rw [load]
  by_cases hzero : n = 0
  · rw [if_pos hzero, hzero, window, List.take_zero]
  · rw [if_neg hzero, if_pos h]

theorem fileBytes_behind {content : List Ut8} {p n : Nat} (h : content.length ≤ p) :
    fileBytes content p n = List.replicate n 0xff := by
  rw [fileBytes, List.eq_replicate_iff]
  refine ⟨by simp, ?_⟩
  intro x hx
  obtain ⟨k, -, rfl⟩ := List.mem_map.mp hx
  rw [List.getElem?_eq_none (by omega)]
  rfl

/-- A write through the map that holds a part of it. -/
theorem rIoMwrite_part (flags : RIOMap → Nat) (hva : io.va = false) (hb : io.bufferEnabled = false)
    (hdesc : rIoDescGet io fd = some i) (hd : io.files[i]? = some d) (hint : b.length < 2147483648)
    (hclip : clipped maddr b.length = k) (hres : resolvedMap io fd maddr b.length = some m)
    (hpart : mapPart m maddr k = some (BitVec.ofNat 64 (m.skipped maddr), (j : Int)))
    (hfits : m.skipped maddr + j ≤ b.length) (hw : flags m &&& rIoWriteFlag ≠ 0) :
    ∃ r io', rIoMwrite flags io fd maddr b b.length = some (r, io') ∧
      WroteFile io io' i (written d.data.buf (m.paddr maddr).toNat (window b (m.skipped maddr) j)) := by
  have hload := load_window b (BitVec.ofNat 64 (m.skipped maddr)) (n := j) (by rw [toNat_skipped]; exact hfits)
  rw [toNat_skipped] at hload
  have hlength : (window b (m.skipped maddr) j).length = j := Framework.length_window hfits
  obtain ⟨⟨off, files, hframe⟩, hcontents⟩ := rIoPwrite_wrote { io with desc := some i } (m.paddr maddr)
    (window b (m.skipped maddr) j) hb rfl hd (seekTarget_off hva _) (by omega)
  rw [resolvedMap, hclip] at hres
  rw [clipped] at hclip
  have hrun : rIoMwrite flags io fd maddr b b.length =
      some ((rIoPwrite { io with desc := some i } (m.paddr maddr) (window b (m.skipped maddr) j)).1,
        { (rIoPwrite { io with desc := some i } (m.paddr maddr) (window b (m.skipped maddr) j)).2 with
          desc := io.desc }) := by
    rw [rIoMwrite, if_neg (by omega), hclip]
    dsimp only
    rw [hres]
    dsimp only
    rw [hpart]
    dsimp only
    rw [if_neg hw, hdesc]
    dsimp only
    rw [Int.toNat_natCast, hload]
    rfl
  refine ⟨_, _, hrun, ?_, hcontents⟩
  rw [hframe]
  exact ⟨off, files, rfl⟩

/-- A read through the map that holds a part of it. -/
theorem rIoMread_part (readers : RIOReaders) (out : List Ut8) {n : Nat} (hva : io.va = false)
    (hb : io.bufferEnabled = false)
    (hdesc : rIoDescGet io fd = some i) (hd : io.files[i]? = some d) (hint : n < 2147483648)
    (hclip : clipped maddr n = k) (hres : resolvedMap io fd maddr n = some m)
    (hpart : mapPart m maddr k = some (BitVec.ofNat 64 (m.skipped maddr), (j : Int)))
    (hfits : m.skipped maddr + j ≤ out.length) (hj : j ≤ n) :
    ∃ r out' io', rIoMread readers io fd maddr out 0 n = some (r, out', io') ∧ Seeked io io' ∧
      (out' = blit out (m.skipped maddr) (fileBytes d.data.buf (m.paddr maddr).toNat j) ∨
        m.paddr maddr = ut64Max ∧ out' = out) := by
  have hskip := toNat_skipped m maddr
  have hzero : ∀ x : Ut64, 0 + x = x := by simp
  have hcur : RIO.curDesc { io with desc := some i } = some d := hd
  obtain ⟨-, hseeked⟩ := rIoPread_total readers { io with desc := some i } (m.paddr maddr) j hb (by omega)
  have hmap := hres
  have hcut := hclip
  rw [resolvedMap, hclip] at hmap
  rw [clipped] at hcut
  have hrun : rIoMread readers io fd maddr out 0 n =
      (store out (BitVec.ofNat 64 (m.skipped maddr))
        (rIoPread readers { io with desc := some i } (m.paddr maddr) j).2.1).map (fun buf =>
          ((rIoPread readers { io with desc := some i } (m.paddr maddr) j).1, buf,
            { (rIoPread readers { io with desc := some i } (m.paddr maddr) j).2.2 with desc := io.desc })) := by
    rw [rIoMread, if_neg (by omega), hcut]
    dsimp only
    rw [hmap]
    dsimp only
    rw [hpart]
    dsimp only
    rw [hdesc]
    dsimp only
    rw [Int.toNat_natCast, hzero]
    rfl
  have hblit : ∀ bs : List Ut8, bs.length = j →
      store out (BitVec.ofNat 64 (m.skipped maddr)) bs = some (blit out (m.skipped maddr) bs) := by
    intro bs hbs
    rw [store, hskip]
    by_cases hnil : bs = []
    · rw [if_pos hnil, hnil]
      simp [blit]
    · rw [if_neg hnil, if_pos (by omega)]
  by_cases hmax : m.paddr maddr = ut64Max
  · cases hff : io.ff with
    | true =>
      have hsize := d.data.size_lt
      have hbytes : (rIoPread readers { io with desc := some i } (m.paddr maddr) j).2.1 =
          fileBytes d.data.buf (m.paddr maddr).toNat j := by
        have htop := (eq_ut64Max_iff _).mp hmax
        rw [rIoPread, if_pos hmax, if_pos hff, fileBytes_behind (by omega)]
      rw [hrun, hbytes, hblit _ (fileBytes_length ..)]
      exact ⟨_, _, _, rfl, hseeked.restore, Or.inl rfl⟩
    | false =>
      have hbytes : (rIoPread readers { io with desc := some i } (m.paddr maddr) j).2.1 = [] := by
        rw [rIoPread, if_pos hmax, if_neg (by rw [hff]; exact Bool.false_ne_true)]
      rw [hrun, hbytes, store, if_pos rfl]
      exact ⟨_, _, _, rfl, hseeked.restore, Or.inr ⟨hmax, rfl⟩⟩
  · have hbytes := rIoPread_file readers { io with desc := some i } hb hcur (seekTarget_off hva (m.paddr maddr)) hmax
      (n := j) (by omega)
    rw [hrun, hbytes, hblit _ (fileBytes_length ..)]
    exact ⟨_, _, _, rfl, hseeked.restore, Or.inl rfl⟩

/-- No map, or one that holds no byte: the write ends early. -/
theorem rIoMwrite_stops (flags : RIOMap → Nat) (io : RIO) (fd : Int) (hclip : clipped maddr b.length = k)
    (h : ∀ m, resolvedMap io fd maddr b.length = some m → mapPart m maddr k = none) :
    ∃ r, rIoMwrite flags io fd maddr b b.length = some (r, io) := by
  rw [resolvedMap, hclip] at h
  rw [clipped] at hclip
  rw [rIoMwrite, if_neg (by omega), hclip]
  dsimp only
  cases hmap : (rIoMapResolveInRange io maddr (maddr + BitVec.ofInt 64 k) fd).or (rIoMapResolve io fd) with
  | none => exact ⟨rError, rfl⟩
  | some m =>
    dsimp only
    rw [h m hmap]
    exact ⟨rFail, rfl⟩

theorem rIoMread_stops (readers : RIOReaders) (io : RIO) (fd : Int) (out : List Ut8) {n : Nat}
    (hclip : clipped maddr n = k) (h : ∀ m, resolvedMap io fd maddr n = some m → mapPart m maddr k = none) :
    ∃ r, rIoMread readers io fd maddr out 0 n = some (r, out, io) := by
  rw [resolvedMap, hclip] at h
  rw [clipped] at hclip
  rw [rIoMread, if_neg (by omega), hclip]
  dsimp only
  cases hmap : (rIoMapResolveInRange io maddr (maddr + BitVec.ofInt 64 k) fd).or (rIoMapResolve io fd) with
  | none => exact ⟨rError, rfl⟩
  | some m =>
    dsimp only
    rw [h m hmap]
    exact ⟨rFail, rfl⟩

theorem contents_modify_same (hd : io.files[i]? = some d) :
    io.contents.modify i (fun x => (x.1, d.data.buf)) = io.contents := by
  apply List.ext_getElem?
  intro q
  rw [List.getElem?_modify]
  by_cases hq : i = q
  · subst hq
    simp [ RIO.contents, hd]
  · simp [hq]

/-- The descriptors have the same places behind a write. -/
theorem WroteFile.descGet {io io' : RIO} {content' : List Ut8} (h : WroteFile io io' i content') (fd : Int) :
    rIoDescGet io' fd = rIoDescGet io fd := by
  have hget : ∀ io : RIO, rIoDescGet io fd =
      if fd < 0 then none else (io.contents.map (·.1)).findIdx? (· = fd) := by
    intro io
    rw [rIoDescGet, RIO.contents, List.map_map, List.findIdx?_map]
    rfl
  have hfds : io'.contents.map (·.1) = io.contents.map (·.1) := by
    rw [h.contents]
    apply List.ext_getElem?
    intro q
    simp only [List.getElem?_map, List.getElem?_modify]
    cases io.contents[q]? with
    | none => rfl
    | some x => by_cases hq : i = q <;> simp [hq]
  rw [hget, hget, hfds]

theorem WroteFile.file {io io' : RIO} {content' : List Ut8} (h : WroteFile io io' i content')
    (hd : io.files[i]? = some d) : ∃ d', io'.files[i]? = some d' ∧ d'.data.buf = content' := by
  have hat : io'.contents[i]? = some (d.fd, content') := by
    rw [h.contents, List.getElem?_modify, RIO.contents, List.getElem?_map, hd]
    simp
  rw [ RIO.contents, List.getElem?_map] at hat
  obtain ⟨d', hd', heq⟩ := Option.map_eq_some_iff.mp hat
  exact ⟨d', hd', (Prod.mk.inj heq).2⟩

end Transfer

/-- What a write and a read of `n` bytes through the same map leave: the buffer `out'` and the contents
`content'` of the file. -/
structure MapAgrees (map : Option RIOMap) (maddr : Ut64) (b out out' content content' : List Ut8) : Prop where
  length : out'.length = out.length
  size : content'.length = content.length
  read : ∀ m, map = some m → ∀ i < b.length, m.Inside maddr i → m.place maddr i < content.length → out'[i]? = b[i]?
  behind : ∀ m, map = some m → ∀ i < b.length, m.Inside maddr i → content.length ≤ m.place maddr i →
    out'[i]? = some 0xff ∨ m.paddr maddr = ut64Max ∧ out'[i]? = out[i]?
  outside : ∀ i, (∀ m, map = some m → ¬m.Inside maddr i) → out'[i]? = out[i]?
  stored : ∀ m, map = some m → ∀ i < b.length, m.Inside maddr i → m.place maddr i < content.length →
    content'[m.place maddr i]? = b[i]?
  kept : ∀ q, (∀ m, map = some m → ∀ i < b.length, m.Inside maddr i → m.place maddr i ≠ q) →
    content'[q]? = content[q]?

section Agree

variable {maddr : Ut64} {b out out' content : List Ut8} {m : RIOMap} {j : Nat}

/-- Where no byte lies in the map nothing changes. -/
theorem MapAgrees.of_nothing {map : Option RIOMap} (h : ∀ m, map = some m → ∀ i < b.length, ¬m.Inside maddr i)
    : MapAgrees map maddr b out out content content where
  length := rfl
  size := rfl
  read := fun m hm i hi hin => absurd hin (h m hm i hi)
  behind := fun m hm i hi hin => absurd hin (h m hm i hi)
  outside := fun _ _ => rfl
  stored := fun m hm i hi hin => absurd hin (h m hm i hi)
  kept := fun _ _ => rfl

/-- The part that the map holds is stored and read back. -/
theorem MapAgrees.of_part (hlen : out.length = b.length) (hfits : m.skipped maddr + j ≤ b.length)
    (hin : ∀ i < b.length, m.Inside maddr i ↔ m.skipped maddr ≤ i ∧ i < m.skipped maddr + j)
    (hcontent : content.length < 4294967296)
    (hout : out' = blit out (m.skipped maddr) (fileBytes
        (written content (m.paddr maddr).toNat (window b (m.skipped maddr) j)) (m.paddr maddr).toNat j) ∨
      m.paddr maddr = ut64Max ∧ out' = out) :
    MapAgrees (some m) maddr b out out' content
      (written content (m.paddr maddr).toNat (window b (m.skipped maddr) j)) := by
  have hwindow : (window b (m.skipped maddr) j).length = j := Framework.length_window hfits
  have hsize := written_length content (m.paddr maddr).toNat (window b (m.skipped maddr) j)
  have hstored : ∀ i, m.skipped maddr ≤ i → i < m.skipped maddr + j → m.place maddr i < content.length →
      (written content (m.paddr maddr).toNat (window b (m.skipped maddr) j))[m.place maddr i]? = b[i]? := by
    intro i hlow hhigh hplace
    rw [written_getElem? _ _ _ hplace, hwindow, RIOMap.place, if_pos (by omega), getElem?_window,
      if_pos (by omega), Nat.add_sub_cancel_left, Nat.add_sub_cancel' hlow]
  have hfile : (fileBytes (written content (m.paddr maddr).toNat (window b (m.skipped maddr) j))
      (m.paddr maddr).toNat j).length = j := fileBytes_length ..
  have hbyte : ∀ i, out' = blit out (m.skipped maddr) (fileBytes
        (written content (m.paddr maddr).toNat (window b (m.skipped maddr) j)) (m.paddr maddr).toNat j) →
      m.skipped maddr ≤ i → i < m.skipped maddr + j → out'[i]? = some
        ((written content (m.paddr maddr).toNat (window b (m.skipped maddr) j))[m.place maddr i]?.getD 0xff) := by
    intro i hread hlow hhigh
    rw [hread, blit_getElem? _ _ _ _ (by omega), if_neg (by omega), if_pos (by omega),
      fileBytes_getElem? _ _ (by omega)]
    rfl
  refine ⟨?_, hsize, ?_, ?_, ?_, ?_, ?_⟩
  · rcases hout with hread | ⟨-, hread⟩
    · rw [hread, blit_length _ _ _ (by omega)]
    · rw [hread]
  · intro m' hm i hi hinside hplace
    cases hm
    obtain ⟨hlow, hhigh⟩ := (hin i hi).mp hinside
    rcases hout with hread | ⟨hmax, -⟩
    · rw [hbyte i hread hlow hhigh, hstored i hlow hhigh hplace, List.getElem?_eq_getElem hi, Option.getD_some]
    · have htop := (eq_ut64Max_iff _).mp hmax
      rw [RIOMap.place] at hplace
      omega
  · intro m' hm i hi hinside hplace
    cases hm
    obtain ⟨hlow, hhigh⟩ := (hin i hi).mp hinside
    rcases hout with hread | ⟨hmax, hread⟩
    · rw [hbyte i hread hlow hhigh, List.getElem?_eq_none (by omega)]
      exact Or.inl rfl
    · exact Or.inr ⟨hmax, by rw [hread]⟩
  · intro i hnot
    rcases hout with hread | ⟨-, hread⟩
    · have hapart : i < m.skipped maddr ∨ m.skipped maddr + j ≤ i := by
        by_cases hi : i < b.length
        · have hno := mt (hin i hi).mpr (hnot m rfl)
          omega
        · omega
      rw [hread, blit_getElem? _ _ _ _ (by omega)]
      split_ifs
      · rfl
      · omega
      · rfl
    · rw [hread]
  · intro m' hm i hi hinside hplace
    cases hm
    obtain ⟨hlow, hhigh⟩ := (hin i hi).mp hinside
    exact hstored i hlow hhigh hplace
  · intro q hnot
    by_cases hq : q < content.length
    · rw [written_getElem? _ _ _ hq, hwindow, if_neg]
      intro hwrote
      have hi : m.skipped maddr + (q - (m.paddr maddr).toNat) < b.length := by omega
      refine hnot m rfl _ hi ((hin _ hi).mpr (by omega)) ?_
      rw [RIOMap.place]
      omega
    · rw [List.getElem?_eq_none (by omega), List.getElem?_eq_none (by omega)]

end Agree

/-- A write through the maps and a read of the same bytes agree, and the current descriptor stays. -/
theorem map_write_read (readers : RIOReaders) (flags : RIOMap → Nat) (io : RIO) (fd : Int) (i : Nat) (d : RIODesc)
    (maddr : Ut64) (b out : List Ut8) (hva : io.va = false) (hb : io.bufferEnabled = false)
    (hdesc : rIoDescGet io fd = some i) (hd : io.files[i]? = some d) (hlen : out.length = b.length)
    (hint : b.length < 2147483648)
    (hw : ∀ m, resolvedMap io fd maddr b.length = some m → flags m &&& rIoWriteFlag ≠ 0) :
    ∃ r io' r' out' io'' content', rIoMwrite flags io fd maddr b b.length = some (r, io') ∧
      rIoMread readers io' fd maddr out 0 b.length = some (r', out', io'') ∧
      io'.desc = io.desc ∧ io''.desc = io.desc ∧
      io'.contents = io.contents.modify i (fun x => (x.1, content')) ∧ io''.contents = io'.contents ∧
      MapAgrees (resolvedMap io fd maddr b.length) maddr b out out' d.data.buf content' := by
  obtain ⟨k, hkn, hclip, hkw, hcut⟩ := clipped_inside maddr hint
  by_cases hstops : ∀ m, resolvedMap io fd maddr b.length = some m → mapPart m maddr k = none
  · obtain ⟨r, hwrite⟩ := rIoMwrite_stops (b := b) flags io fd hclip hstops
    obtain ⟨r', hread⟩ := rIoMread_stops readers io fd out hclip hstops
    refine ⟨r, io, r', out, io, d.data.buf, hwrite, hread, rfl, rfl, (contents_modify_same hd).symm, rfl, ?_⟩
    apply MapAgrees.of_nothing
    intro m hm i hi hin
    rcases mapPart_inside (m := m) (by omega) hkw with ⟨-, hnot⟩ | ⟨j, hpart, -⟩
    · exact hnot i (hcut m i hi hin) hin
    · rw [hstops m hm] at hpart
      cases hpart
  · obtain ⟨m, hm, hsome⟩ : ∃ m, resolvedMap io fd maddr b.length = some m ∧ mapPart m maddr k ≠ none := by
      simpa using hstops
    rcases mapPart_inside (m := m) (by omega) hkw with ⟨hnone, -⟩ | ⟨j, hpart, hfits, hin⟩
    · exact absurd hnone hsome
    · obtain ⟨r, io', hwrite, hwrote⟩ := rIoMwrite_part flags hva hb hdesc hd hint hclip hm hpart (by omega) (hw m hm)
      obtain ⟨d', hd', hbuf⟩ := hwrote.file hd
      have hdesc' := (hwrote.descGet fd).trans hdesc
      have hcontents := hwrote.contents
      obtain ⟨⟨off, files, hframe⟩, -⟩ := hwrote
      have hres : resolvedMap io' fd maddr b.length = some m := by
        rw [hframe]
        exact hm
      obtain ⟨r', out', io'', hread, hseeked, hout⟩ := rIoMread_part readers out (by rw [hframe]; exact hva)
        (by rw [hframe]; exact hb) hdesc' hd' hint hclip hres hpart (by omega) (by omega)
      have hkept : io'.desc = io.desc := by rw [hframe]
      refine ⟨r, io', r', out', io'', _, hwrite, hread, hkept, hseeked.desc.trans hkept, hcontents,
        hseeked.moved.contents, ?_⟩
      rw [hm]
      rw [hbuf] at hout
      refine MapAgrees.of_part hlen (by omega) ?_ d.data.size_lt hout
      intro q hq
      by_cases hqk : q < k
      · exact hin q hqk
      · exact iff_of_false (fun h => hqk (hcut m q hq h)) (by omega)

/-- Four bytes under a map of eight from the address 16 on. -/
def fourUnderEight (delta : Ut64) (bufferEnabled : Bool) : RIO :=
  { emptyIO with
    va := false
    bufferEnabled := bufferEnabled
    files := [⟨3, ⟨[1, 2, 3, 4], 0, by decide⟩⟩]
    maps := [⟨3, delta, 16, 24⟩] }

theorem map_write_read_four :
    ∃ r io' r' out' io'' content', rIoMwrite (fun _ => rIoWriteFlag) (fourUnderEight 0 false) 3 14 [9, 8, 7, 6] 4 =
        some (r, io') ∧
      rIoMread noReaders io' 3 14 [0, 0, 0, 0] 0 4 = some (r', out', io'') ∧
      io'.desc = none ∧ io''.desc = none ∧
      io'.contents = (fourUnderEight 0 false).contents.modify 0 (fun x => (x.1, content')) ∧
      io''.contents = io'.contents ∧
      MapAgrees (some ⟨3, 0, 16, 24⟩) 14 [9, 8, 7, 6] [0, 0, 0, 0] out' [1, 2, 3, 4] content' :=
  map_write_read noReaders (fun _ => rIoWriteFlag) (fourUnderEight 0 false) 3 0 ⟨3, ⟨[1, 2, 3, 4], 0, by decide⟩⟩ 14
    [9, 8, 7, 6] [0, 0, 0, 0] rfl rfl rfl rfl rfl (by decide) (fun _ _ => by decide)

/-- A write of six bytes and a read of them into a cleared buffer. -/
def sixThrough (io : RIO) : Option (List Ut8) :=
  (rIoMwrite (fun _ => rIoWriteFlag) io 3 16 [9, 8, 7, 6, 5, 4] 6).bind (fun w =>
    (rIoMread noReaders w.2 3 16 [0, 0, 0, 0, 0, 0] 0 6).map (·.2.1))

/-- Behind the end of the file a read leaves `0xff`, a read through the I/O's buffer does not see the file,
and a place that wraps is not reached. -/
theorem map_write_read_differs :
    sixThrough (fourUnderEight 0 false) = some [9, 8, 7, 6, 0xff, 0xff] ∧
      sixThrough (fourUnderEight 0 true) = some [0, 0, 0, 0, 0, 0] ∧
      sixThrough (fourUnderEight (-2) false) = some [0xff, 0xff, 0xff, 0xff, 0xff, 0xff] := by
  decide

end Radare
