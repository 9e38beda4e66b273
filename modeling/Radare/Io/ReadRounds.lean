import Radare.Io.OneFile

namespace Radare

def addrAt (a : Ut64) (i : Nat) : Ut64 := a + BitVec.ofNat 64 i

/-- Whether a one-byte read looks for the address in the file. -/
def known (io : RIO) (x : Ut64) : Bool := rangeExists io x || rIoMapCount io == 0

/-- What a one-byte read finds. -/
def byteAt (io : RIO) (d : RIODesc) (x : Ut64) : Ut8 :=
  if known io x then d.data.buf[(filePlace io x).toNat]?.getD io.oxff else io.oxff

/-- Place `p` of the file is the one that `x` stands for; behind the end of the file every address
without a byte will do. -/
def StandsFor (io : RIO) (d : RIODesc) (p : Nat) (x : Ut64) : Prop :=
  if p < d.data.size then known io x = true ∧ (filePlace io x).toNat = p
  else known io x = true → d.data.size ≤ (filePlace io x).toNat

/-- The address that the chunk at offset `j` is read from. -/
def chunkStart (io : RIO) (a : Ut64) (j : Nat) : Ut64 :=
  if j = 0 then a else rIoSectionVaddrToMaddrTry io (addrAt a j)

/-- The first place in the file of the chunk at offset `j`. -/
def chunkPlace (io : RIO) (a : Ut64) (j : Nat) : Nat := (filePlace io (chunkStart io a j)).toNat

/-- The distance to the end of the chunk, as the loop takes it. -/
def chunkRoom (io : RIO) (a : Ut64) (j : Nat) : Nat :=
  (chunkEnd io (addrAt a j) - a + BitVec.ofNat 64 j).toNat

/-- The length of the chunk at offset `j` of a read of `n` bytes. -/
def chunkSize (io : RIO) (a : Ut64) (n j : Nat) : Nat :=
  if n - j ≤ chunkRoom io a j ∨ chunkRoom io a j = 0 then n - j else chunkRoom io a j

/-- After this chunk the read ends, whatever is left of it. -/
def breaksOff (io : RIO) (x : Ut64) : Bool :=
  io.maps.length > 1 && !io.debug && wrapInt (mapChoice io x).paddr.toNat > 0

/-- The bytes before offset `j` are read, the rest is blank. -/
def filled (io : RIO) (d : RIODesc) (a : Ut64) (n j : Nat) : List Ut8 :=
  (List.range n).map (fun i => if i < j then byteAt io d (addrAt a i) else io.oxff)

/-- The buffer of a chunk of `l` bytes at place `p`. -/
def chunkBytes (io : RIO) (d : RIODesc) (p l : Nat) : List Ut8 :=
  if d.data.found p l = 0 then List.replicate l io.oxff
  else (d.data.buf.drop p).take (d.data.found p l) ++ List.replicate (l - d.data.found p l) 0xff

def chunkTaken (d : RIODesc) (p l : Nat) : Nat :=
  if d.data.found p l = 0 then l else d.data.found p l

theorem blit_getElem? (buf : List Ut8) (w : Nat) (bs : List Ut8) (i : Nat)
    (hw : w + bs.length ≤ buf.length) :
    (blit buf w bs)[i]? =
      if i < w then buf[i]? else if i < w + bs.length then bs[i - w]? else buf[i]? := by
  have htake : (buf.take w).length = w := by rw [List.length_take]; omega
  rw [blit, List.append_assoc, List.getElem?_append, htake]
  split
  · next h => rw [List.getElem?_take_of_lt h]
  · next h =>
    rw [List.getElem?_append]
    split
    · next h' => rw [if_pos (by omega)]
    · next h' =>
      rw [if_neg (by omega), List.getElem?_drop]
      congr 1
      omega

theorem blit_blit (buf : List Ut8) (w : Nat) (bs cs : List Ut8) (hl : bs.length = cs.length)
    (hw : w + bs.length ≤ buf.length) : blit (blit buf w bs) w cs = blit buf w cs := by
  apply List.ext_getElem?
  intro i
  rw [blit_getElem? _ w cs i (by rw [blit_length _ _ _ hw, ← hl]; exact hw),
    blit_getElem? buf w bs i hw, blit_getElem? buf w cs i (by rw [← hl]; exact hw), hl]
  split
  · rfl
  · split <;> rfl

section Bytes

variable (io : RIO) (d : RIODesc)

theorem filled_length (a : Ut64) (n j : Nat) : (filled io d a n j).length = n := by simp [filled]

theorem filled_getElem? (a : Ut64) (n j i : Nat) (hi : i < n) :
    (filled io d a n j)[i]? = some (if i < j then byteAt io d (addrAt a i) else io.oxff) := by
  simp [filled, hi]

theorem filled_zero (a : Ut64) (n : Nat) : filled io d a n 0 = List.replicate n io.oxff := by
  simp [filled]

theorem filled_congr (a : Ut64) (n j k : Nat)
    (h : ∀ i, i < n → j ≤ i → i < k → byteAt io d (addrAt a i) = io.oxff) (hjk : j ≤ k) :
    filled io d a n k = filled io d a n j := by
  refine List.map_congr_left (fun i hi => ?_)
  have hin := List.mem_range.mp hi
  by_cases hj : i < j
  · rw [if_pos hj, if_pos (by omega)]
  · by_cases hk : i < k
    · rw [if_pos hk, if_neg hj, h i hin (by omega) hk]
    · rw [if_neg hk, if_neg hj]

theorem byteAt_of_standsFor (p : Nat) (x : Ut64) (h : StandsFor io d p x) :
    byteAt io d x = d.data.buf[p]?.getD io.oxff := by
  rw [StandsFor] at h
  rw [byteAt]
  split at h
  · rw [h.1, if_pos rfl, h.2]
  · next hp =>
    have hnone : d.data.buf[p]? = none := List.getElem?_eq_none (by rw [RIOMalloc.size] at hp; omega)
    rw [hnone]
    split
    · next hk =>
      rw [List.getElem?_eq_none (by have := h hk; rwa [RIOMalloc.size] at this)]
    · rfl

theorem chunkBytes_length (p l : Nat) : (chunkBytes io d p l).length = l := by
  rw [chunkBytes]
  split
  · exact List.length_replicate
  · have hs : d.data.size = d.data.buf.length := rfl
    have hf : d.data.found p l = min l (d.data.size - p) := rfl
    simp only [List.length_append, List.length_take, List.length_drop, List.length_replicate]
    omega

theorem chunkTaken_le (p l : Nat) : chunkTaken d p l ≤ l := by
  have hf : d.data.found p l = min l (d.data.size - p) := rfl
  rw [chunkTaken]
  split <;> omega

theorem chunkTaken_pos (p l : Nat) (hl : 0 < l) : 0 < chunkTaken d p l := by
  rw [chunkTaken]
  split <;> omega

/-- What a chunk takes is what the file has. -/
theorem chunkBytes_getElem? (p l i : Nat) (hi : i < chunkTaken d p l) :
    (chunkBytes io d p l)[i]? = some (d.data.buf[p + i]?.getD io.oxff) := by
  have hs : d.data.size = d.data.buf.length := rfl
  have hf : d.data.found p l = min l (d.data.size - p) := rfl
  rw [chunkTaken] at hi
  rw [chunkBytes]
  split at hi
  · next h0 =>
    rw [if_pos h0, List.getElem?_replicate_of_lt hi, List.getElem?_eq_none (by omega)]
    rfl
  · next h0 =>
    have hlt : p + i < d.data.buf.length := by omega
    rw [if_neg h0, List.getElem?_append_left (by simp only [List.length_take, List.length_drop]; omega),
      List.getElem?_take_of_lt hi, List.getElem?_drop, List.getElem?_eq_getElem hlt]
    rfl

/-- With a blank of `0xff` the whole buffer of the chunk is what the file has. -/
theorem chunkBytes_getElem?_ff (p l i : Nat) (hi : i < l) (hff : io.oxff = 0xff) :
    (chunkBytes io d p l)[i]? = some (d.data.buf[p + i]?.getD io.oxff) := by
  have hs : d.data.size = d.data.buf.length := rfl
  have hf : d.data.found p l = min l (d.data.size - p) := rfl
  by_cases ht : i < chunkTaken d p l
  · exact chunkBytes_getElem? io d p l i ht
  · rw [chunkTaken] at ht
    split at ht
    · omega
    · next h0 =>
      have hlen : ((d.data.buf.drop p).take (d.data.found p l)).length = d.data.found p l := by
        simp only [List.length_take, List.length_drop]
        omega
      rw [chunkBytes, if_neg h0, List.getElem?_append_right (by rw [hlen]; omega), hlen,
        List.getElem?_replicate_of_lt (by omega), List.getElem?_eq_none (by omega), hff]
      rfl

/-- A chunk whose first `r` bytes are right, with the rest blanked again. -/
theorem filled_chunk (a : Ut64) (n j r : Nat) (cs : List Ut8) (hr : r ≤ cs.length)
    (hfit : j + cs.length ≤ n)
    (hcs : ∀ i < r, cs[i]? = some (byteAt io d (addrAt a (j + i)))) :
    blit (blit (filled io d a n j) j cs) (j + r) (List.replicate (n - j - r) io.oxff) =
      filled io d a n (j + r) := by
  have hlen : (blit (filled io d a n j) j cs).length = n := by
    rw [blit_length _ _ _ (by rw [filled_length]; exact hfit), filled_length]
  apply List.ext_getElem?
  intro i
  rw [blit_getElem? _ _ _ _ (by rw [hlen, List.length_replicate]; omega),
    blit_getElem? _ _ _ _ (by rw [filled_length]; exact hfit), List.length_replicate]
  by_cases hi : i < n
  · rw [filled_getElem? io d a n (j + r) i hi, filled_getElem? io d a n j i hi]
    by_cases hj : i < j
    · simp only [hj, if_true, show i < j + r by omega]
    · by_cases hjr : i < j + r
      · have hc := hcs (i - j) (by omega)
        rw [Nat.add_sub_cancel' (by omega)] at hc
        simp only [hj, hjr, if_true, if_false, show i < j + cs.length by omega, hc]
      · simp only [hjr, if_false, show i < j + r + (n - j - r) by omega, if_true]
        exact List.getElem?_replicate_of_lt (by omega)
  · rw [if_neg (by omega), if_neg (by omega), if_neg (by omega), if_neg (by omega),
      List.getElem?_eq_none (by rw [filled_length]; omega),
      List.getElem?_eq_none (by rw [filled_length]; omega)]

theorem filled_of_le (a : Ut64) (n j : Nat) (hj : n ≤ j) : filled io d a n j = filled io d a n n :=
  filled_congr io d a n n j (fun i hi hni _ => absurd hi (by omega)) hj

end Bytes

/-- An uncached read of `n` bytes at `a` from one file, below the top of the address space. -/
structure PlainRead (io : RIO) (d : RIODesc) (a : Ut64) (n : Nat) : Prop where
  one : OneFile io d
  cached : io.cached = 0
  below : a.toNat + n < 18446744073709551616
  len : n < 2147483648

/-- The loop has come to offset `j` with the right bytes. -/
structure AtOffset (io : RIO) (d : RIODesc) (a : Ut64) (n j : Nat) (st : ReadState) : Prop where
  placed : ∃ off pos, st.io = io.placed d off pos
  buf : st.buf = filled io d a n j
  len : st.len = n - j
  addr : j < n → st.addr = a
  w : j < n → st.w = j
  l : 0 ≤ st.l

/-- The state of a round after its chunk is read. -/
def chunkState (io : RIO) (d : RIODesc) (a : Ut64) (n j : Nat) (l : Int) (off pos : Ut64) :
    ReadState where
  io := io.placed d off pos
  buf := blit (filled io d a n j) j (chunkBytes io d (chunkPlace io a j) (chunkSize io a n j))
  addr := chunkStart io a j - BitVec.ofNat 64 j
  w := j
  len := n - j
  l := l

namespace PlainRead

variable {io : RIO} {d : RIODesc} {a : Ut64} {n : Nat} (h : PlainRead io d a n)
include h

theorem toNat_addrAt {j : Nat} (hj : j ≤ n) : (addrAt a j).toNat = a.toNat + j :=
  toNat_add_ofNat (by have := h.below; omega)

theorem addrAt_ne_max {j : Nat} (hj : j < n) : addrAt a j ≠ ut64Max := by
  intro hm
  have ht := h.toNat_addrAt (Nat.le_of_lt hj)
  have hb := h.below
  rw [(eq_ut64Max_iff _).mp hm] at ht
  omega

theorem start_ne_max (hn : 0 < n) : a ≠ ut64Max := by
  have h0 := h.addrAt_ne_max hn
  rwa [addrAt, BitVec.add_zero] at h0

theorem chunkStart_ne_max {j : Nat} (hj : j < n) : chunkStart io a j ≠ ut64Max := by
  rw [chunkStart]
  split
  · exact h.start_ne_max (by omega)
  · exact vaddrToMaddrTry_ne_max io _ (h.addrAt_ne_max hj)

omit h in
theorem cursor_eq {j : Nat} {st : ReadState} (hst : AtOffset io d a n j st) (hj : j < n) :
    st.cursor = addrAt a j := by
  rw [ReadState.cursor, hst.addr hj, hst.w hj, addrAt]

theorem inGap_eq {j : Nat} {st : ReadState} (hst : AtOffset io d a n j st) (hj : j < n) :
    inGap st = !known io (addrAt a j) := by
  obtain ⟨off, pos, hio⟩ := hst.placed
  have hb := h.below
  have hlt : addrAt a j < addrAt a j + BitVec.ofNat 64 (n - j) := by
    rw [BitVec.lt_def, toNat_add_ofNat (by rw [h.toNat_addrAt (Nat.le_of_lt hj)]; omega)]
    omega
  have hrange : rangeExists (io.placed d off pos) (addrAt a j) = rangeExists io (addrAt a j) := rfl
  have hcount : rIoMapCount (io.placed d off pos) = rIoMapCount io := rfl
  rw [inGap, cursor_eq hst hj, hst.len, hio, hrange, hcount, known]
  cases rangeExists io (addrAt a j) <;> cases hm : rIoMapCount io <;> simp [hlt]

theorem chunkAsked_eq {j : Nat} {st : ReadState} (hst : AtOffset io d a n j st) (hj : j < n) :
    (if chunkAsked st > (st.len : Int) then st.len else (chunkAsked st).toNat) =
      chunkSize io a n j := by
  obtain ⟨off, pos, hio⟩ := hst.placed
  have hb := h.below
  have hl := h.len
  have hlt : addrAt a j < addrAt a j + BitVec.ofNat 64 (n - j) := by
    rw [BitVec.lt_def, toNat_add_ofNat (by rw [h.toNat_addrAt (Nat.le_of_lt hj)]; omega)]
    omega
  have hroom : (chunkEnd st.io (addrAt a j) - a + BitVec.ofNat 64 j).toNat = chunkRoom io a j := by
    rw [hio]
    rfl
  have hlength : chunkLength st =
      if n - j > chunkRoom io a j then wrapInt (chunkRoom io a j) else ((n - j : Nat) : Int) := by
    rw [chunkLength, cursor_eq hst hj, hst.len, if_pos hlt, hst.addr hj, hst.w hj]
    simp only [hroom]
  rw [chunkAsked, hlength, hst.len, chunkSize]
  by_cases hcut : n - j > chunkRoom io a j
  · rw [if_pos hcut, wrapInt_of_range (by omega) (by omega)]
    by_cases h0 : chunkRoom io a j = 0
    · simp [h0]
    · rw [if_neg (by omega), if_neg (by omega), if_neg (by omega)]
      omega
  · rw [if_neg hcut, if_pos (Or.inl (by omega))]
    have h1 : ¬ ((n - j : Nat) : Int) < 1 := by omega
    simp only [if_neg h1]
    split <;> omega

theorem chunkPaddr_eq {j : Nat} {st : ReadState} (hst : AtOffset io d a n j st) (hj : j < n) :
    chunkPaddr st = chunkStart io a j := by
  obtain ⟨off, pos, hio⟩ := hst.placed
  have ha := h.start_ne_max (by omega)
  have htry (x : Ut64) : rIoSectionVaddrToMaddrTry (io.placed d off pos) x =
      rIoSectionVaddrToMaddrTry io x := rfl
  rw [chunkPaddr, cursor_eq hst hj, hst.addr hj, hst.w hj, if_pos ha, hio, htry, chunkStart]
  by_cases h0 : j = 0 <;> simp [h0]

omit h in
theorem chunkSize_le (j : Nat) : chunkSize io a n j ≤ n - j := by
  rw [chunkSize]
  split <;> omega

omit h in
theorem chunkSize_pos {j : Nat} (hj : j < n) : 0 < chunkSize io a n j := by
  rw [chunkSize]
  split <;> omega

theorem chunkBuf_eq {j : Nat} {st : ReadState} (hst : AtOffset io d a n j st) (hj : j < n) :
    chunkBuf st (chunkStart io a j) (chunkSize io a n j) =
      blit (filled io d a n j) j (chunkBytes io d (chunkPlace io a j) (chunkSize io a n j)) ∧
    chunkRead st (chunkStart io a j) (chunkSize io a n j) =
      chunkTaken d (chunkPlace io a j) (chunkSize io a n j) := by
  obtain ⟨off, pos, hio⟩ := hst.placed
  have hle : chunkSize io a n j ≤ n - j := chunkSize_le j
  have hlen := h.len
  have hx := h.chunkStart_ne_max hj
  have hoxff : (io.placed d off pos).oxff = io.oxff := rfl
  obtain ⟨off', hsel⟩ := h.one.chunkSelect_placed off pos (chunkStart io a j) j hx
  have hread := h.one.readInternal_placed off' (filePlace io (chunkStart io a j))
    (chunkSize io a n j) (by omega)
  have hseek := d.data.clamp_ne_max (rIoSectionVaddrToMaddrTry io (chunkStart io a j))
  have hfound : d.data.found (chunkPlace io a j) (chunkSize io a n j) ≤ chunkSize io a n j := by
    rw [RIOMalloc.found]
    omega
  constructor
  · rw [chunkBuf, hio, hst.w hj, hst.buf, hsel, hread, h.one.seek_placed off pos _ hx, hoxff]
    simp only [if_neg hseek, chunkBytes]
    change (if ((d.data.found (chunkPlace io a j) (chunkSize io a n j) : Nat) : Int) < 1 then _
      else _) = _
    by_cases h0 : d.data.found (chunkPlace io a j) (chunkSize io a n j) = 0
    · rw [if_pos (by omega), if_pos h0, blit_blit]
      · simp only [List.length_append, List.length_take, List.length_drop, List.length_replicate]
        change min (d.data.found (chunkPlace io a j) (chunkSize io a n j)) _ +
          (_ - d.data.found (chunkPlace io a j) (chunkSize io a n j)) = _
        omega
      · simp only [List.length_append, List.length_take, List.length_drop, List.length_replicate,
          filled_length]
        change j + (min (d.data.found (chunkPlace io a j) (chunkSize io a n j)) _ +
          (_ - d.data.found (chunkPlace io a j) (chunkSize io a n j))) ≤ n
        omega
    · rw [if_neg (by omega), if_neg h0]
      rfl
  · rw [chunkRead, hio, hst.w hj, hsel, hread, chunkTaken]
    change (if ((d.data.found (chunkPlace io a j) (chunkSize io a n j) : Nat) : Int) < 1 then _
      else if ((d.data.found (chunkPlace io a j) (chunkSize io a n j) : Nat) : Int) < _ then
        Int.toNat (d.data.found (chunkPlace io a j) (chunkSize io a n j) : Nat) else _) = _
    by_cases h0 : d.data.found (chunkPlace io a j) (chunkSize io a n j) = 0
    · rw [if_pos (by omega), if_pos h0]
    · rw [if_neg (by omega), if_neg h0]
      split <;> omega

theorem readChunk_eq {j : Nat} {st : ReadState} (hst : AtOffset io d a n j st) (hj : j < n) :
    ∃ off pos, readChunk st (chunkStart io a j) (chunkSize io a n j) =
        chunkState io d a n j st.l off pos ∧
      (chunkSelect st.io (chunkStart io a j) st.w).1 = (mapChoice io (chunkStart io a j)).paddr := by
  obtain ⟨off, pos, hio⟩ := hst.placed
  obtain ⟨off', hchunk⟩ :=
    h.one.chunkSelect_placed off pos (chunkStart io a j) j (h.chunkStart_ne_max hj)
  refine ⟨off', d.data.clamp (filePlace io (chunkStart io a j)), ?_, ?_⟩
  · rw [readChunk, (h.chunkBuf_eq hst hj).1, hio, hst.w hj, hst.len, hchunk]
    rfl
  · rw [hio, hst.w hj, hchunk]

theorem chunkStep_eq {j : Nat} {st : ReadState} (hst : AtOffset io d a n j st) (hj : j < n) :
    ∃ off pos, chunkStep st =
      afterChunk (chunkState io d a n j st.l off pos)
        (chunkTaken d (chunkPlace io a j) (chunkSize io a n j))
        (mapChoice io (chunkStart io a j)).paddr := by
  obtain ⟨off, pos, hio⟩ := hst.placed
  have hx := h.chunkStart_ne_max hj
  obtain ⟨off', hsel⟩ := h.one.mapSelect_placed off pos st.addr
  have hst' : AtOffset io d a n j { st with io := (rIoMapSelect st.io st.addr).2 } :=
    { placed := ⟨off', _, by rw [hio, hsel]⟩
      buf := hst.buf
      len := hst.len
      addr := hst.addr
      w := hst.w
      l := hst.l }
  obtain ⟨off₂, pos₂, hchunk, hms⟩ := h.readChunk_eq hst' hj
  refine ⟨off₂, pos₂, ?_⟩
  rw [chunkStep]
  simp only [h.chunkPaddr_eq hst hj, if_neg hx, h.chunkAsked_eq hst hj, (h.chunkBuf_eq hst' hj).2]
  simp only at hms hchunk
  rw [hchunk, hms]

/-- The round ends the read where several maps do. -/
theorem chunkStep_stop {j : Nat} {st : ReadState} (hst : AtOffset io d a n j st) (hj : j < n)
    (hb : breaksOff io (chunkStart io a j) = true) :
    ∃ off pos, chunkStep st = .stop (chunkState io d a n j st.l off pos) := by
  obtain ⟨off, pos, hstep⟩ := h.chunkStep_eq hst hj
  have hcached : (chunkState io d a n j st.l off pos).io.cached = 0 := h.cached
  have hcursor : (chunkState io d a n j st.l off pos).cursor = chunkStart io a j :=
    BitVec.sub_add_cancel _ _
  have hne := vaddrToMaddrTry_ne_max (io.placed d off pos) _ (h.chunkStart_ne_max hj)
  refine ⟨off, pos, ?_⟩
  rw [hstep, afterChunk, hcached, if_neg (by decide), hcursor]
  change (if breaksOff io (chunkStart io a j) = true then
    (if (_ && decide (rIoSectionVaddrToMaddrTry (io.placed d off pos) (chunkStart io a j) = ut64Max)) =
      true then _ else _) else _) = _
  rw [if_pos hb, decide_eq_false hne, Bool.and_false, if_neg Bool.false_ne_true]

/-- The round takes its bytes and goes on behind them. -/
theorem chunkStep_again {j : Nat} {st : ReadState} (hst : AtOffset io d a n j st) (hj : j < n)
    (hb : breaksOff io (chunkStart io a j) = false)
    (hrun : ∀ i < chunkTaken d (chunkPlace io a j) (chunkSize io a n j),
      StandsFor io d (chunkPlace io a j + i) (addrAt a (j + i)))
    (hstay : j + chunkTaken d (chunkPlace io a j) (chunkSize io a n j) < n →
      chunkStart io a j = addrAt a j) :
    ∃ st', chunkStep st = .again st' ∧
      AtOffset io d a n (j + chunkTaken d (chunkPlace io a j) (chunkSize io a n j)) st' := by
  obtain ⟨off, pos, hstep⟩ := h.chunkStep_eq hst hj
  have hcached : (chunkState io d a n j st.l off pos).io.cached = 0 := h.cached
  have hsize : chunkSize io a n j ≤ n - j := chunkSize_le j
  have htaken := chunkTaken_le d (chunkPlace io a j) (chunkSize io a n j)
  have hlen := chunkBytes_length io d (chunkPlace io a j) (chunkSize io a n j)
  have hfill := filled_chunk io d a n j (chunkTaken d (chunkPlace io a j) (chunkSize io a n j))
    (chunkBytes io d (chunkPlace io a j) (chunkSize io a n j)) (by omega) (by omega) (by
      intro i hi
      rw [chunkBytes_getElem? io d _ _ i hi, byteAt_of_standsFor io d _ _ (hrun i hi)])
  generalize hr : chunkTaken d (chunkPlace io a j) (chunkSize io a n j) = r at *
  refine ⟨afterChunk.finish r (chunkState io d a n j st.l off pos), ?_, ?_⟩
  · rw [hstep, afterChunk, hcached, if_neg (by decide)]
    change (if breaksOff io (chunkStart io a j) = true then _ else _) = _
    rw [hb, if_neg Bool.false_ne_true]
  · have haddr : j + r < n → chunkStart io a j - BitVec.ofNat 64 j = a := by
      intro hlt
      rw [hstay hlt, addrAt, BitVec.add_sub_cancel]
    have hw : j + (r : Int).toNat = j + r := by rw [Int.toNat_natCast]
    have hl : n - j - (r : Int).toNat = n - j - r := by rw [Int.toNat_natCast]
    rw [afterChunk.finish]
    simp only [ReadState.advance, ReadState.fill, chunkState, hw, hl]
    by_cases h0 : n - j - r > 0
    · rw [if_pos h0]
      exact ⟨⟨off, pos, rfl⟩, hfill, Nat.sub_sub n j r, haddr, fun _ => rfl, Int.natCast_nonneg r⟩
    · rw [if_neg h0]
      have hz : n - j - r = 0 := by omega
      rw [hz, List.replicate_zero, blit, List.length_nil, Nat.add_zero, List.append_nil,
        List.take_append_drop] at hfill
      exact ⟨⟨off, pos, rfl⟩, hfill, Nat.sub_sub n j r, haddr, fun _ => rfl, Int.natCast_nonneg r⟩

theorem gapLength_nonneg {j : Nat} {st : ReadState} (hst : AtOffset io d a n j st) (hj : j < n)
    (l : Int) (hl : gapLength st = some l) : 0 ≤ l := by
  have hn := h.len
  have hb := h.below
  have hstale := hst.l
  have hlen := hst.len
  rw [gapLength] at hl
  split at hl
  · split at hl
    · cases hl
    · split at hl
      · exact Option.some.inj hl ▸ hstale
      · next hlt =>
        rw [← Option.some.inj hl, wrapInt_of_range (by omega) (by omega)]
        omega
  · split at hl
    · exact Option.some.inj hl ▸ hstale
    · next hge =>
      have hmax : (ut64Max - st.addr).toNat = 18446744073709551615 - a.toNat := by
        rw [hst.addr hj, BitVec.toNat_sub_of_le, toNat_ut64Max]
        rw [BitVec.le_def, toNat_ut64Max]
        omega
      omega

/-- The step that a round in a gap takes. -/
theorem gapStep_again {j : Nat} {st : ReadState} (hst : AtOffset io d a n j st) (hj : j < n) (l : Int)
    (hl : gapLength st = some l)
    (hblank : ∀ i, i < n → j ≤ i → i < j + (if l = 0 then 1 else l).toNat →
      byteAt io d (addrAt a i) = io.oxff) :
    ∃ st', gapStep st = .again st' ∧ st'.l = (if l = 0 then 1 else l) ∧
      AtOffset io d a n (j + (if l = 0 then 1 else l).toNat) st' := by
  have hnn : 0 ≤ l := h.gapLength_nonneg hst hj l hl
  refine ⟨st.advance (if l = 0 then 1 else l), by rw [gapStep, hl], rfl, ?_⟩
  refine ⟨hst.placed, ?_, ?_, fun hk => hst.addr hj, ?_, ?_⟩
  · rw [filled_congr io d a n j _ hblank (by omega)]
    exact hst.buf
  · change st.len - _ = _
    rw [hst.len, Nat.sub_sub]
  · intro hk
    change st.w + _ = _
    rw [hst.w hj]
  · change 0 ≤ (if l = 0 then 1 else l)
    split <;> omega

/-- A round in a gap skips bytes or ends the read. -/
theorem gapStep_cases {j : Nat} {st : ReadState} (hst : AtOffset io d a n j st) (hj : j < n)
    (hblank : ∀ i, i < n → j ≤ i → byteAt io d (addrAt a i) = io.oxff) :
    gapStep st = .stop st ∨
    ∃ k st', j < k ∧ gapStep st = .again st' ∧ AtOffset io d a n k st' := by
  cases hl : gapLength st with
  | none => exact Or.inl (by rw [gapStep, hl])
  | some l =>
    have hnn : 0 ≤ l := h.gapLength_nonneg hst hj l hl
    obtain ⟨st', hstep, -, hst'⟩ :=
      h.gapStep_again hst hj l hl (fun i hin hji _ => hblank i hin hji)
    exact Or.inr ⟨_, st', by split <;> omega, hstep, hst'⟩

end PlainRead

/-- From this state the loop ends with the bytes of `n` one-byte reads. -/
def ReadsTo (io : RIO) (d : RIODesc) (a : Ut64) (n : Nat) (st : ReadState) : Prop :=
  ∀ fuel, st.len ≤ fuel → ∃ st', readLoop fuel st = some st' ∧ st'.buf = filled io d a n n ∧
    ∃ off pos, st'.io = io.placed d off pos

namespace ReadsTo

variable {io : RIO} {d : RIODesc} {a : Ut64} {n : Nat} {st st' : ReadState}

theorem done {j : Nat} (hst : AtOffset io d a n j st) (hj : n ≤ j) : ReadsTo io d a n st := by
  intro fuel _
  have h0 : st.len = 0 := by rw [hst.len]; omega
  refine ⟨st, ?_, ?_, hst.placed⟩
  · cases fuel with
    | zero => rfl
    | succ fuel => rw [readLoop, if_pos h0]
  · rw [hst.buf, filled_of_le io d a n j hj]

theorem again (h0 : st.len ≠ 0) (hstep : readStep st = .again st') (hlt : st'.len < st.len)
    (hr : ReadsTo io d a n st') : ReadsTo io d a n st := by
  intro fuel hf
  cases fuel with
  | zero => omega
  | succ fuel =>
    rw [readLoop, if_neg h0, hstep]
    exact hr fuel (by omega)

theorem stop (h0 : st.len ≠ 0) (hstep : readStep st = .stop st')
    (hbuf : st'.buf = filled io d a n n) (hio : ∃ off pos, st'.io = io.placed d off pos) :
    ReadsTo io d a n st := by
  intro fuel hf
  cases fuel with
  | zero => omega
  | succ fuel =>
    rw [readLoop, if_neg h0, hstep]
    exact ⟨st', rfl, hbuf, hio⟩

end ReadsTo

namespace PlainRead

variable {io : RIO} {d : RIODesc} {a : Ut64} {n : Nat} (h : PlainRead io d a n)
include h

theorem readStep_known {j : Nat} {st : ReadState} (hst : AtOffset io d a n j st) (hj : j < n)
    (hk : known io (addrAt a j) = true) : readStep st = chunkStep st := by
  rw [readStep, h.inGap_eq hst hj, hk]
  rfl

theorem readStep_gap {j : Nat} {st : ReadState} (hst : AtOffset io d a n j st) (hj : j < n)
    (hk : known io (addrAt a j) = false) : readStep st = gapStep st := by
  rw [readStep, h.inGap_eq hst hj, hk]
  rfl

/-- A chunk that is right leaves the read of what is behind it. -/
theorem readsTo_chunk {j : Nat} {st : ReadState} (hst : AtOffset io d a n j st) (hj : j < n)
    (hk : known io (addrAt a j) = true) (hb : breaksOff io (chunkStart io a j) = false)
    (hrun : ∀ i < chunkTaken d (chunkPlace io a j) (chunkSize io a n j),
      StandsFor io d (chunkPlace io a j + i) (addrAt a (j + i)))
    (hstay : j + chunkTaken d (chunkPlace io a j) (chunkSize io a n j) < n →
      chunkStart io a j = addrAt a j)
    (hrest : ∀ st', AtOffset io d a n
      (j + chunkTaken d (chunkPlace io a j) (chunkSize io a n j)) st' → ReadsTo io d a n st') :
    ReadsTo io d a n st := by
  obtain ⟨st', hstep, hst'⟩ := h.chunkStep_again hst hj hb hrun hstay
  have hpos : 0 < chunkTaken d (chunkPlace io a j) (chunkSize io a n j) :=
    chunkTaken_pos d _ _ (chunkSize_pos hj)
  have hl := hst.len
  have hl' := hst'.len
  refine ReadsTo.again (by omega) ((h.readStep_known hst hj hk).trans hstep) (by omega)
    (hrest st' hst')

omit h in
theorem standsFor_behind (x : Ut64) (p : Nat) (hp : d.data.size ≤ p)
    (hx : known io x = true → d.data.size ≤ (filePlace io x).toNat) : StandsFor io d p x := by
  rw [StandsFor, if_neg (by omega)]
  exact hx

omit h in
theorem byteAt_blank (x : Ut64)
    (hx : known io x = true → d.data.size ≤ (filePlace io x).toNat) : byteAt io d x = io.oxff := by
  rw [byteAt_of_standsFor io d d.data.size x (standsFor_behind x _ (le_refl _) hx),
    RIOMalloc.size, List.getElem?_eq_none (le_refl _)]
  rfl

/-- A rest of which nothing is in the file is read as blank, in whatever steps. -/
theorem readsTo_blank (m j : Nat) (st : ReadState) (hm : n - j ≤ m)
    (hst : AtOffset io d a n j st)
    (hrest : ∀ i, j ≤ i → i < n → known io (addrAt a i) = true →
      chunkStart io a i = addrAt a i ∧ breaksOff io (addrAt a i) = false ∧
      d.data.size ≤ (filePlace io (addrAt a i)).toNat) :
    ReadsTo io d a n st := by
  induction m generalizing j st with
  | zero => exact ReadsTo.done hst (by omega)
  | succ m ih =>
    by_cases hj : n ≤ j
    · exact ReadsTo.done hst hj
    · have hjn : j < n := by omega
      have hl := hst.len
      cases hk : known io (addrAt a j) with
      | true =>
        obtain ⟨hstart, hbreak, hplace⟩ := hrest j (le_refl j) hjn hk
        have hp : d.data.size ≤ chunkPlace io a j := by rw [chunkPlace, hstart]; exact hplace
        have htaken := chunkTaken_le d (chunkPlace io a j) (chunkSize io a n j)
        have hsize : chunkSize io a n j ≤ n - j := chunkSize_le j
        have hpos : 0 < chunkTaken d (chunkPlace io a j) (chunkSize io a n j) :=
          chunkTaken_pos d _ _ (chunkSize_pos hjn)
        refine h.readsTo_chunk hst hjn hk (hstart ▸ hbreak) (fun i hi => ?_) (fun _ => hstart)
          (fun st' hst' => ?_)
        · exact standsFor_behind _ _ (by omega)
            (fun hki => (hrest (j + i) (by omega) (by omega) hki).2.2)
        · exact ih _ st' (by omega) hst' (fun i hi hin => hrest i (by omega) hin)
      | false =>
        have hblank : ∀ i, i < n → j ≤ i → byteAt io d (addrAt a i) = io.oxff :=
          fun i hin hji => byteAt_blank _ (fun hki => (hrest i hji hin hki).2.2)
        have hgap := h.readStep_gap hst hjn hk
        obtain hstop | ⟨k, st', hlt, hagain, hst'⟩ := h.gapStep_cases hst hjn hblank
        · refine ReadsTo.stop (by omega) (hgap.trans hstop) ?_ hst.placed
          rw [hst.buf]
          exact (filled_congr io d a n j n (fun i hin hji _ => hblank i hin hji) (by omega)).symm
        · have hl' := hst'.len
          exact ReadsTo.again (by omega) (hgap.trans hagain) (by omega)
            (ih k st' (by omega) hst' (fun i hi hin => hrest i (by omega) hin))

/-- Where the sections move nothing and the places run on, the loop may cut the read as it likes. -/
theorem readsTo_steady (j₀ m j : Nat) (st : ReadState) (hm : n - j ≤ m) (hj₀ : j₀ ≤ j)
    (hst : AtOffset io d a n j st) (hk : known io (addrAt a j) = true)
    (hstay : ∀ i, j₀ ≤ i → i < n → known io (addrAt a i) = true →
      chunkStart io a i = addrAt a i ∧ breaksOff io (addrAt a i) = false)
    (hrun : ∀ i, j₀ ≤ i → i < n → known io (addrAt a i) = true → ∀ k, i ≤ k → k < n →
      StandsFor io d ((filePlace io (addrAt a i)).toNat + (k - i)) (addrAt a k)) :
    ReadsTo io d a n st := by
  induction m generalizing j st with
  | zero => exact ReadsTo.done hst (by omega)
  | succ m ih =>
    by_cases hj : n ≤ j
    · exact ReadsTo.done hst hj
    · have hjn : j < n := by omega
      obtain ⟨hstart, hbreak⟩ := hstay j hj₀ hjn hk
      have hplace : chunkPlace io a j = (filePlace io (addrAt a j)).toNat := by
        rw [chunkPlace, hstart]
      have htaken := chunkTaken_le d (chunkPlace io a j) (chunkSize io a n j)
      have hsize : chunkSize io a n j ≤ n - j := chunkSize_le j
      have hpos : 0 < chunkTaken d (chunkPlace io a j) (chunkSize io a n j) :=
        chunkTaken_pos d _ _ (chunkSize_pos hjn)
      refine h.readsTo_chunk hst hjn hk (hstart ▸ hbreak) (fun i hi => ?_)
        (fun _ => hstart) (fun st' hst' => ?_)
      · have hs := hrun j hj₀ hjn hk (j + i) (by omega) (by omega)
        rwa [← hplace, Nat.add_sub_cancel_left] at hs
      · generalize chunkTaken d (chunkPlace io a j) (chunkSize io a n j) = r at *
        cases hk' : known io (addrAt a (j + r)) with
        | true => exact ih (j + r) st' (by omega) (by omega) hst' hk'
        | false =>
          -- the chunk can only be followed by a gap where the file has ended
          refine h.readsTo_blank (n - (j + r)) (j + r) st' (le_refl _) hst'
            (fun i hi hin hki => ⟨(hstay i (by omega) hin hki).1, (hstay i (by omega) hin hki).2, ?_⟩)
          have hgap := hrun j hj₀ hjn hk (j + r) (by omega) (by omega)
          have hend : ¬ (filePlace io (addrAt a j)).toNat + (j + r - j) < d.data.size := by
            intro hlt
            rw [StandsFor, if_pos hlt, hk'] at hgap
            exact absurd hgap.1 Bool.false_ne_true
          have hs := hrun j hj₀ hjn hk i (by omega) hin
          rw [StandsFor, if_neg (by omega)] at hs
          exact hs hki

end PlainRead

end Radare
