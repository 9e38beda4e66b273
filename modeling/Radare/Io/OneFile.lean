import Radare.Io.Read

namespace Radare

/-- One opened descriptor, maps of that descriptor only, and virtual addressing. -/
structure OneFile (io : RIO) (d : RIODesc) : Prop where
  files : io.files = [d]
  desc : io.desc = some 0
  fd : 0 ≤ d.fd
  maps : ∀ m ∈ io.maps, m.fd = d.fd
  va : io.va = true
  plain : PlainPath io

/-- The state with another offset and another position in the file. -/
def RIO.placed (io : RIO) (d : RIODesc) (off pos : Ut64) : RIO :=
  { io with off := off, files := [{ d with data := { d.data with offset := pos } }] }

/-- A seek in the file stops at its end. -/
def RIOMalloc.clamp (m : RIOMalloc) (t : Ut64) : Ut64 :=
  if t ≤ BitVec.ofNat 64 m.size then t else BitVec.ofNat 64 m.size

theorem RIOMalloc.toNat_size (m : RIOMalloc) : (BitVec.ofNat 64 m.size).toNat = m.size := by
  have h := m.size_lt
  rw [BitVec.toNat_ofNat]
  exact Nat.mod_eq_of_lt (by rw [RIOMalloc.size]; omega)

theorem RIOMalloc.toNat_clamp (m : RIOMalloc) (t : Ut64) :
    (m.clamp t).toNat = min t.toNat m.size := by
  rw [RIOMalloc.clamp]
  split
  · next h =>
    rw [BitVec.le_def, m.toNat_size] at h
    omega
  · next h =>
    rw [BitVec.le_def, m.toNat_size] at h
    rw [m.toNat_size]
    omega

theorem RIOMalloc.clamp_ne_max (m : RIOMalloc) (t : Ut64) : m.clamp t ≠ ut64Max := by
  intro hc
  have h := m.size_lt
  have hs : m.size = m.buf.length := rfl
  have ht := m.toNat_clamp t
  rw [(eq_ut64Max_iff _).mp hc] at ht
  omega

theorem vaddrToMaddrTry_max (io : RIO) : rIoSectionVaddrToMaddrTry io ut64Max = ut64Max := by
  have hnone : rIoSectionVaddrToMaddr io ut64Max = ut64Max := by
    rw [rIoSectionVaddrToMaddr, List.find?_eq_none.mpr]
    intro s _
    have hlt : ¬ ut64Max < s.vaddr + s.vsize := by
      rw [BitVec.lt_def, toNat_ut64Max]
      omega
    simp [RIOSection.hasVaddr, hlt]
  rw [rIoSectionVaddrToMaddrTry, hnone]
  rfl

/-- What the scan over the maps ends with. -/
def mapChoice (io : RIO) (x : Ut64) : MapScan :=
  (mapSelectScan x io.maps io ⟨0, x, -1, false⟩).2

/-- Where a select seeks to when a map holds the address. -/
def selectTarget (io : RIO) (x : Ut64) : Option Ut64 :=
  if (mapChoice io x).done then some (if io.debug then x else (mapChoice io x).paddr) else none

/-- The place of an address in the file: where its map puts it, and the sections after that. -/
def filePlace (io : RIO) (x : Ut64) : Ut64 :=
  match selectTarget io x with
  | some y => if y = ut64Max then rIoSectionVaddrToMaddrTry io x else rIoSectionVaddrToMaddrTry io y
  | none => rIoSectionVaddrToMaddrTry io x

namespace OneFile

variable {io : RIO} {d : RIODesc} (h : OneFile io d)
include h

theorem eq_placed : io = io.placed d io.off d.data.offset := by
  have hf := h.files
  obtain ⟨_, _, _, _, _, _, _, _, _, _, _, _, files, _, _, _, _, _⟩ := io
  simp only at hf
  subst hf
  rfl

theorem useFd_placed (off pos : Ut64) (fd : Int) :
    rIoUseFd (io.placed d off pos) fd = io.placed d off pos := by
  rw [rIoUseFd]
  split
  · rfl
  · next i hi =>
    have h0 : i = 0 := by
      rw [rIoDescGet] at hi
      split at hi
      · cases hi
      · have hlt := (List.findIdx?_eq_some_iff_getElem.mp hi).1
        have hlen : (io.placed d off pos).files.length = 1 := rfl
        omega
    subst h0
    have hd : (io.placed d off pos).desc = some 0 := h.desc
    rw [← hd]

theorem scan_placed (x off pos : Ut64) (maps : List RIOMap) (st : MapScan) :
    mapSelectScan x maps (io.placed d off pos) st =
      (io.placed d off pos, (mapSelectScan x maps io st).2) := by
  have huse (im : RIOMap) (io' : RIO) (st : MapScan)
      (hio : ∀ fd, rIoUseFd io' fd = io') : mapSelectUse x im io' st = io' := by
    rw [mapSelectUse, hio]
    split <;> rfl
  have hself (fd : Int) : rIoUseFd io fd = io := by
    have hp := h.useFd_placed io.off d.data.offset fd
    rwa [← h.eq_placed] at hp
  induction maps generalizing st with
  | nil => rfl
  | cons im maps ih =>
    have hr : (io.placed d off pos).raised = io.raised := rfl
    rw [mapSelectScan, mapSelectScan, huse im _ st (h.useFd_placed off pos), huse im _ st hself, hr]
    split
    · rfl
    · exact ih _

omit h in
/-- A scan that finds a map notes its descriptor. -/
theorem scan_fd (x : Ut64) (fd : Int) (maps : List RIOMap) (io : RIO) (st : MapScan)
    (hm : ∀ m ∈ maps, m.fd = fd) (hst : st.done = true → st.fd = fd)
    (hdone : (mapSelectScan x maps io st).2.done = true) :
    (mapSelectScan x maps io st).2.fd = fd := by
  induction maps generalizing io st with
  | nil => exact hst hdone
  | cons im maps ih =>
    have hnote : (mapSelectNote x im st).done = true → (mapSelectNote x im st).fd = fd := by
      intro hd
      rw [mapSelectNote] at hd ⊢
      simp only at hd ⊢
      split
      · exact hm im (by simp)
      · next hhas => exact hst (by simpa [hhas] using hd)
    rw [mapSelectScan] at hdone ⊢
    split at hdone
    · next hc => rw [if_pos hc]; exact hnote hdone
    · next hc =>
      rw [if_neg hc]
      exact ih _ _ (fun m hmem => hm m (by simp [hmem])) hnote hdone

theorem seekTarget_placed (off pos x : Ut64) :
    seekTarget (io.placed d off pos) x = rIoSectionVaddrToMaddrTry io x := by
  have hva : (io.placed d off pos).va = true := h.va
  have hraw : (io.placed d off pos).raw = false := h.plain.raw
  have hsec : (io.placed d off pos).sections = io.sections := rfl
  have htry : rIoSectionVaddrToMaddrTry (io.placed d off pos) x =
      rIoSectionVaddrToMaddrTry io x := rfl
  rw [seekTarget, hva, hraw, hsec, htry]
  by_cases hx : x = ut64Max
  · subst hx
    rw [vaddrToMaddrTry_max]
    split <;> rfl
  · have hne := vaddrToMaddrTry_ne_max io x hx
    cases hs : io.sections with
    | nil => simp [rIoSectionVaddrToMaddrTry, rIoSectionVaddrToMaddr, hs]
    | cons s ss => simp [hne]

theorem setData_placed (off pos q : Ut64) :
    (io.placed d off pos).setData { d.data with offset := q } = io.placed d off q := by
  have hdesc := h.desc
  obtain ⟨_, _, _, _, _, _, _, _, _, _, _, _, _, desc, _, _, _, _⟩ := io
  simp only at hdesc
  subst hdesc
  rfl

theorem seek_placed (off pos x : Ut64) (hx : x ≠ ut64Max) :
    rIoSeek (io.placed d off pos) x .set =
      (d.data.clamp (rIoSectionVaddrToMaddrTry io x),
        io.placed d (rIoSectionVaddrToMaddrTry io x)
          (d.data.clamp (rIoSectionVaddrToMaddrTry io x))) := by
  have hbuf : (io.placed d off pos).bufferEnabled = false := h.plain.buffer
  have hdesc : (io.placed d off pos).desc = some 0 := h.desc
  have hcur : (io.placed d off pos).curDesc =
      some { d with data := { d.data with offset := pos } } := by
    rw [ RIO.curDesc, hdesc]
    rfl
  rw [rIoSeek, hbuf, h.seekTarget_placed, if_neg Bool.false_ne_true,
    if_neg (vaddrToMaddrTry_ne_max io x hx), hcur]
  have hset := h.setData_placed off pos (d.data.clamp (rIoSectionVaddrToMaddrTry io x))
  exact Prod.ext rfl
    (congrArg (fun r : RIO => { r with off := rIoSectionVaddrToMaddrTry io x }) hset)

theorem seek_placed_max (off pos : Ut64) :
    rIoSeek (io.placed d off pos) ut64Max .set = (ut64Max, io.placed d off pos) := by
  have hbuf : (io.placed d off pos).bufferEnabled = false := h.plain.buffer
  rw [rIoSeek, hbuf, h.seekTarget_placed, if_neg Bool.false_ne_true,
    if_pos (vaddrToMaddrTry_max io)]

/-- A select leaves the position where it is, or at the place its map gives. -/
theorem mapSelect_placed (off pos x : Ut64) :
    ∃ off', rIoMapSelect (io.placed d off pos) x =
      ((mapChoice io x).paddr, io.placed d off'
        (match selectTarget io x with
        | some y => if y = ut64Max then pos else d.data.clamp (rIoSectionVaddrToMaddrTry io y)
        | none => pos)) := by
  have hmaps : (io.placed d off pos).maps = io.maps := rfl
  have hdebug : (io.placed d off pos).debug = io.debug := rfl
  have hscan := h.scan_placed x off pos io.maps ⟨0, x, -1, false⟩
  change mapSelectScan x io.maps (io.placed d off pos) _ = (_, mapChoice io x) at hscan
  rw [rIoMapSelect, hmaps, hscan]
  simp only [h.useFd_placed, hdebug]
  by_cases hdone : (mapChoice io x).done = true
  · have hfd : (mapChoice io x).fd = d.fd :=
      scan_fd x d.fd io.maps io _ h.maps (fun hf => by cases hf) hdone
    have hne : ¬ (mapChoice io x).fd = -1 := by
      have := h.fd
      omega
    simp only [hdone, Bool.not_true, Bool.false_eq_true, if_false, hne, selectTarget, if_true]
    have hseek (y : Ut64) : ∃ off', (rIoSeek (io.placed d off pos) y .set).2 =
        io.placed d off'
          (if y = ut64Max then pos else d.data.clamp (rIoSectionVaddrToMaddrTry io y)) := by
      by_cases hy : y = ut64Max
      · subst hy
        rw [h.seek_placed_max]
        exact ⟨off, by simp⟩
      · rw [h.seek_placed off pos y hy]
        exact ⟨_, by rw [if_neg hy]⟩
    cases hdb : io.debug with
    | true =>
      obtain ⟨off', ho⟩ := hseek x
      exact ⟨off', by simp only [if_true, ho, h.useFd_placed]⟩
    | false =>
      obtain ⟨off', ho⟩ := hseek (mapChoice io x).paddr
      exact ⟨off', by simp only [Bool.false_eq_true, if_false, ho, h.useFd_placed]⟩
  · have hf : (mapChoice io x).done = false := by simpa using hdone
    have hseek := h.seek_placed_max off pos
    refine ⟨off, ?_⟩
    simp only [hf, Bool.not_false, if_true, selectTarget, Bool.false_eq_true, if_false]
    rw [hseek]

/-- Seek and select together put the file at the place of the address. -/
theorem chunkSelect_placed (off pos x : Ut64) (w : Nat) (hx : x ≠ ut64Max) :
    ∃ off', chunkSelect (io.placed d off pos) x w =
      ((mapChoice io x).paddr, io.placed d off' (d.data.clamp (filePlace io x))) := by
  rw [chunkSelect, BitVec.sub_add_cancel, h.seek_placed off pos x hx]
  obtain ⟨off', hsel⟩ := h.mapSelect_placed (rIoSectionVaddrToMaddrTry io x)
    (d.data.clamp (rIoSectionVaddrToMaddrTry io x)) x
  refine ⟨off', ?_⟩
  rw [hsel, filePlace]
  cases selectTarget io x with
  | none => rfl
  | some y =>
    by_cases hy : y = ut64Max
    · simp only [if_pos hy]
    · simp only [if_neg hy]

end OneFile

/-- The number of bytes a read of `l` bytes at place `p` finds. -/
def RIOMalloc.found (m : RIOMalloc) (p l : Nat) : Nat := min l (m.size - p)

/-- A read behind a seek to `t`; behind the end of the file it finds nothing. -/
theorem RIOMalloc.read_clamp (m : RIOMalloc) (t : Ut64) (l : Nat) (hl : l < 2147483648) :
    RIOMalloc.read { m with offset := m.clamp t } l =
      ((m.found t.toNat l : Int),
        (m.buf.drop t.toNat).take (m.found t.toNat l) ++
          List.replicate (l - m.found t.toNat l) 0xff) := by
  have hsize := m.toNat_size
  have hclamp := m.toNat_clamp t
  have hlt := m.size_lt
  have hs : m.size = m.buf.length := rfl
  have hadd : (m.clamp t + BitVec.ofNat 64 l).toNat = (m.clamp t).toNat + l :=
    toNat_add_ofNat (by omega)
  have hn : (if m.clamp t + BitVec.ofNat 64 l ≥ BitVec.ofNat 64 m.size then
      (BitVec.ofNat 64 m.size - m.clamp t).toNat else l) = m.found t.toNat l := by
    rw [RIOMalloc.found]
    split
    · next hge =>
      rw [ge_iff_le, BitVec.le_def, hsize, hadd, hclamp] at hge
      rw [BitVec.toNat_sub_of_le (by rw [BitVec.le_def, hsize, hclamp]; omega), hsize, hclamp]
      omega
    · next hge =>
      rw [ge_iff_le, BitVec.le_def, hsize, hadd, hclamp] at hge
      omega
  have hle : ¬ m.clamp t > BitVec.ofNat 64 m.size := by
    rw [gt_iff_lt, BitVec.lt_def, hsize, hclamp]
    omega
  have hdrop : (m.buf.drop (min t.toNat m.size)).take (m.found t.toNat l) =
      (m.buf.drop t.toNat).take (m.found t.toNat l) := by
    by_cases hp : t.toNat ≤ m.size
    · rw [Nat.min_eq_left hp]
    · have h0 : m.found t.toNat l = 0 := by rw [RIOMalloc.found]; omega
      rw [h0, List.take_zero, List.take_zero]
  rw [RIOMalloc.read]
  simp only
  change (if m.clamp t > BitVec.ofNat 64 m.size then _ else _) = _
  rw [if_neg hle]
  change (wrapInt (((if m.clamp t + BitVec.ofNat 64 l ≥ BitVec.ofNat 64 m.size then
      (BitVec.ofNat 64 m.size - m.clamp t).toNat else l) : Nat) : Int),
    (m.buf.drop (m.clamp t).toNat).take (if m.clamp t + BitVec.ofNat 64 l ≥
      BitVec.ofNat 64 m.size then (BitVec.ofNat 64 m.size - m.clamp t).toNat else l)
    ++ List.replicate (l - (if m.clamp t + BitVec.ofNat 64 l ≥ BitVec.ofNat 64 m.size then
      (BitVec.ofNat 64 m.size - m.clamp t).toNat else l)) 0xff) = _
  rw [hn, hclamp, hdrop, wrapInt_of_range (by omega) (by rw [RIOMalloc.found]; omega)]

theorem OneFile.readInternal_placed {io : RIO} {d : RIODesc} (h : OneFile io d) (off t : Ut64)
    (l : Nat) (hl : l < 2147483648) :
    rIoReadInternal (io.placed d off (d.data.clamp t)) l =
      ((d.data.found t.toNat l : Int),
        (d.data.buf.drop t.toNat).take (d.data.found t.toNat l) ++
          List.replicate (l - d.data.found t.toNat l) 0xff) := by
  have hdesc : (io.placed d off (d.data.clamp t)).desc = some 0 := h.desc
  have hcur : (io.placed d off (d.data.clamp t)).curDesc =
      some { d with data := { d.data with offset := d.data.clamp t } } := by
    rw [ RIO.curDesc, hdesc]
    rfl
  rw [rIoReadInternal, hcur]
  exact d.data.read_clamp t l hl

end Radare
