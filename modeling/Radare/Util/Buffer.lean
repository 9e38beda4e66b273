import Radare.Io.Map
import Radare.Io.CacheProof

namespace Radare

/-- A chunk of a sparse buffer. `data` is the allocated block, which `size` does not follow. -/
structure RBufferSparse where
  fromAddr : Ut64
  toAddr : Ut64
  size : Int
  data : List Ut8

/-- A buffer made by `r_buf_new_sparse`: no file, no flat bytes, and never marked empty. -/
structure RBuffer where
  cur : Ut64
  sparse : List RBufferSparse

def rBufNewSparse : RBuffer := ⟨0, []⟩

/-- Clamps the window to the buffer and copies it; the sum `l + da` is an `int`. -/
def sparseCopy (len : Int) (buf data : List Ut8) (da db l : Int) : Option (List Ut8) :=
  let l := if wrapInt (l + da) > len then wrapInt (len - da) else l
  if l > 0 then memcpy buf da data db l else some buf

/-- The copy of one chunk, with its window found as in `r_io_cache_read`. -/
def sparseReadChunk (addr : Ut64) (len : Nat) (buf : List Ut8) (c : RBufferSparse) :
    Option (List Ut8) :=
  let overlap := rRangeOverlap addr (addr + BitVec.ofNat 64 len - 1) c.fromAddr c.toAddr
  if overlap.1 then
    let w := cacheWindow overlap.2 c.size
    sparseCopy len buf c.data w.1 w.2.1 w.2.2
  else some buf

/-- The chunks are copied in the order of the list; `none` where a copy leaves a block. -/
def sparseRead (addr : Ut64) (len : Nat) : List RBufferSparse → List Ut8 → Option (List Ut8)
  | [], buf => some buf
  | c :: l, buf => (sparseReadChunk addr len buf c).bind (sparseRead addr len l)

def sparseAppend (l : List RBufferSparse) (addr : Ut64) (data : List Ut8) : List RBufferSparse :=
  l ++ [⟨addr, addr + BitVec.ofNat 64 data.length, data.length, data⟩]

/-- A block of another size; what it gains has no defined contents and is not read before it is
written. -/
def realloc (data : List Ut8) (n : Nat) : List Ut8 :=
  data.take n ++ List.replicate (n - data.length) 0

/-- The write into the chunk that holds its first address. The block is resized for the new bytes
only, and neither `to` nor `size` moves. -/
def sparsePatch (s : RBufferSparse) (addr : Ut64) (data : List Ut8) : Option (Int × RBufferSparse) :=
  let newlen := wrapInt (addr + BitVec.ofNat 64 data.length - s.toAddr).toNat
  let delta := wrapInt (addr - s.fromAddr).toNat
  let n := wrapInt (data.length + newlen)
  if newlen > 0 ∧ n < 0 then some (-1, s)
  else
    let block := if newlen > 0 then realloc s.data n.toNat else s.data
    (memcpy block delta data 0 data.length).map (fun block => (data.length, { s with data := block }))

def RBufferSparse.has (s : RBufferSparse) (addr : Ut64) : Bool :=
  addr ≥ s.fromAddr && addr < s.toAddr

/-- The first chunk that holds the address takes the write; without one it is a new chunk. -/
def sparseWrite (addr : Ut64) (data : List Ut8) : List RBufferSparse →
    Option (Int × List RBufferSparse)
  | [] => some (data.length, sparseAppend [] addr data)
  | s :: l =>
    if s.has addr then (sparsePatch s addr data).map (fun r => (r.1, r.2 :: l))
    else (sparseWrite addr data l).map (fun r => (r.1, s :: r.2))

/-- The least start and the greatest end. -/
def sparseLimits : List RBufferSparse → Option (Ut64 × Ut64)
  | [] => none
  | s :: l => some (l.foldl (fun (lo, hi) c =>
      (if c.fromAddr < lo then c.fromAddr else lo, if c.toAddr > hi then c.toAddr else hi))
      (s.fromAddr, s.toAddr))

def rBufSize (b : RBuffer) : Ut64 :=
  match sparseLimits b.sparse with
  | some (_, hi) => hi
  | none => 0

/-- The result and the bytes left in a buffer of `len` bytes. -/
def rBufReadAt (b : RBuffer) (addr : Ut64) (buf : List Ut8) : Option (Int × List Ut8) :=
  if buf.length < 1 then some (0, buf)
  else
    let addr := if addr = ut64Max then b.cur else addr
    (sparseRead addr buf.length b.sparse (List.replicate buf.length 0xff)).map
      (fun out => (buf.length, out))

def rBufWriteAt (b : RBuffer) (addr : Ut64) (data : List Ut8) : Option (Int × RBuffer) :=
  if data.length < 1 then some (0, b)
  else
    (sparseWrite addr data b.sparse).map (fun r =>
      (if r.1 < 0 then -1 else data.length, { b with sparse := r.2 }))

/-- A chunk whose fields agree with its block, as `sparse_append` makes it. -/
structure ChunkOk (c : RBufferSparse) : Prop where
  size : c.size = c.data.length
  pos : 0 < c.data.length
  small : c.data.length < 2147483648
  top : c.fromAddr.toNat + c.data.length < 18446744073709551616
  ends : c.toAddr = c.fromAddr + BitVec.ofNat 64 c.data.length

theorem ChunkOk.toAddr_toNat {c : RBufferSparse} (h : ChunkOk c) :
    c.toAddr.toNat = c.fromAddr.toNat + c.data.length := by
  rw [h.ends, toNat_add_ofNat h.top]

theorem RBufferSparse.has_iff (c : RBufferSparse) (x : Ut64) :
    c.has x = true ↔ c.fromAddr.toNat ≤ x.toNat ∧ x.toNat < c.toAddr.toNat := by
  simp [RBufferSparse.has, BitVec.le_def, BitVec.lt_def]

theorem memcpy_length {dst src out : List Ut8} {da db l : Int}
    (h : memcpy dst da src db l = some out) : out.length = dst.length := by
  rw [memcpy] at h
  split at h
  · next hb =>
    obtain rfl := Option.some.inj h
    simp only [List.length_append, List.length_take, List.length_drop]
    omega
  · cases h

/-- The chunks as blocks to lay over each other. -/
def chunkLog (l : List RBufferSparse) : List (Ut64 × List Ut8) := l.map (fun c => (c.fromAddr, c.data))

/-- The chunk as an item of the write cache, whose loop `sparse_read` is a copy of. -/
def RBufferSparse.item (c : RBufferSparse) : RIOCache :=
  ⟨c.fromAddr, c.toAddr, c.data, c.data, false, rfl⟩

theorem ChunkOk.item {c : RBufferSparse} (h : ChunkOk c) : CacheItemOk c.item :=
  ⟨h.small, h.top, h.ends⟩

theorem sparseCopy_eq (len covered : Int) (buf data : List Ut8) (da db l : Int) :
    sparseCopy len buf data da db l = (cacheCopy len covered buf data da db l).map (·.2) := by
  simp only [sparseCopy, cacheCopy]
  generalize (if wrapInt (l + da) > len then wrapInt (len - da) else l) = n
  by_cases hn : n < 1
  · rw [if_pos hn, if_neg (by omega), Option.map_some]
  · rw [if_neg hn, if_pos (by omega), Option.map_map]
    simp [Function.comp_def]

theorem sparseReadChunk_item (addr : Ut64) (len : Nat) (covered : Int) (buf : List Ut8)
    (c : RBufferSparse) (h : c.size = c.data.length) :
    sparseReadChunk addr len buf c = (cacheReadItem addr len covered buf c.item).map (·.2) := by
  have hf : c.item.fromAddr = c.fromAddr := rfl
  have ht : c.item.toAddr = c.toAddr := rfl
  have hd : c.item.data = c.data := rfl
  have hs : c.item.size = c.data.length := rfl
  rw [sparseReadChunk, cacheReadItem, hf, ht, hd, hs, h]
  simp only [sparseCopy_eq len covered]
  by_cases hm : (rRangeOverlap addr (addr + BitVec.ofNat 64 len - 1) c.fromAddr c.toAddr).1 = true
  · rw [if_pos hm, if_pos hm]
  · rw [if_neg hm, if_neg hm, Option.map_some]

theorem sparseRead_items (addr : Ut64) (len : Nat) (covered : Int) (l : List RBufferSparse)
    (buf : List Ut8) (h : ∀ c ∈ l, ChunkOk c) :
    sparseRead addr len l buf =
      (cacheReadFrom addr len (l.map RBufferSparse.item) covered buf).map (·.2) := by
  induction l generalizing covered buf with
  | nil => rfl
  | cons c l ih =>
    rw [sparseRead, List.map_cons, cacheReadFrom,
      sparseReadChunk_item addr len covered buf c (h c (by simp)).size]
    cases cacheReadItem addr len covered buf c.item with
    | none => rfl
    | some r => exact ih r.1 r.2 (fun d hd => h d (by simp [hd]))

/-- Reading lays the chunks over a buffer of `0xff`. -/
theorem sparseRead_spec (addr : Ut64) (l : List RBufferSparse) (buf : List Ut8)
    (hok : ∀ c ∈ l, ChunkOk c) (hlen : buf.length < 2147483648)
    (ht : addr.toNat + buf.length < 18446744073709551616)
    (hno : ∀ c ∈ l, ¬ CopyOverflows addr buf.length c.fromAddr c.data.length) :
    sparseRead addr buf.length l buf =
      some (overlayBuf addr (Overlay.lastPatch nextAddr (chunkLog l)) buf) := by
  obtain ⟨covered, hread⟩ := cacheReadFrom_spec addr (l.map RBufferSparse.item) 0 buf
    (by
      intro c hc
      obtain ⟨d, hd, rfl⟩ := List.mem_map.mp hc
      exact (hok d hd).item) hlen ht
    (by
      intro c hc
      obtain ⟨d, hd, rfl⟩ := List.mem_map.mp hc
      exact hno d hd)
  have hlog : cacheLog (l.map RBufferSparse.item) = chunkLog l := by
    simp [cacheLog, chunkLog, RBufferSparse.item]
  rw [sparseRead_items addr buf.length 0 l buf hok, hread, hlog]
  rfl

/-- A write meets none of the two faults: the first chunk that holds its start holds all of it,
and no chunk behind that one would hide it. -/
def WriteFits (addr : Ut64) (len : Nat) : List RBufferSparse → Prop
  | [] => True
  | s :: l =>
    if s.has addr then addr.toNat + len ≤ s.toAddr.toNat ∧
      ∀ c ∈ l, ¬ (c.fromAddr.toNat < addr.toNat + len ∧ addr.toNat < c.toAddr.toNat)
    else WriteFits addr len l

section
variable (addr : Ut64) (data : List Ut8) (hsmall : data.length < 2147483648)
  (htop : addr.toNat + data.length < 18446744073709551616)
include hsmall htop

/-- A write inside a chunk replaces its bytes of the block and nothing else. -/
theorem sparsePatch_spec (s : RBufferSparse) (hs : ChunkOk s) (hin : s.has addr = true)
    (hfit : addr.toNat + data.length ≤ s.toAddr.toNat) :
    ∃ s', sparsePatch s addr data = some ((data.length : Int), s') ∧ ChunkOk s' ∧
      s'.fromAddr = s.fromAddr ∧ s'.toAddr = s.toAddr ∧
      ∀ x, Overlay.patch nextAddr s'.fromAddr s'.data x =
        (Overlay.patch nextAddr addr data x).or (Overlay.patch nextAddr s.fromAddr s.data x) := by
  obtain ⟨hlo, hhi⟩ := (s.has_iff addr).mp hin
  have hend := hs.toAddr_toNat
  have hst := hs.top
  have hss := hs.small
  have hsz := s.toAddr.isLt
  have hnew : ¬ wrapInt (addr + BitVec.ofNat 64 data.length - s.toAddr).toNat > 0 := by
    rw [distance_toNat addr s.toAddr data.length htop, wrapInt]
    split <;> omega
  have hdelta : wrapInt (addr - s.fromAddr).toNat = ((addr.toNat - s.fromAddr.toNat : Nat) : Int) := by
    rw [BitVec.toNat_sub_of_le (by rw [BitVec.le_def]; exact hlo),
      wrapInt_of_range (by omega) (by omega)]
  obtain ⟨block, hcopy, hblock⟩ := memcpy_spec s.data data (addr.toNat - s.fromAddr.toNat) 0
    data.length (by omega) (by omega)
  have hlen := memcpy_length hcopy
  refine ⟨{ s with data := block }, ?_, ?_, rfl, rfl, ?_⟩
  · simp only [sparsePatch, hnew, false_and, if_false, hdelta]
    rw [Nat.cast_zero] at hcopy
    rw [hcopy, Option.map_some]
  · exact ⟨by rw [hlen]; exact hs.size, by rw [hlen]; exact hs.pos, by rw [hlen]; exact hs.small,
      by rw [hlen]; exact hs.top, by rw [hlen]; exact hs.ends⟩
  · intro x
    have hx := x.isLt
    have ha := addr.isLt
    rw [patch_nextAddr _ block x (by omega), patch_nextAddr _ _ _ (by omega),
      patch_nextAddr _ _ _ (by omega), hblock]
    by_cases hw : addr.toNat - s.fromAddr.toNat ≤ (x - s.fromAddr).toNat ∧
        (x - s.fromAddr).toNat < addr.toNat - s.fromAddr.toNat + data.length
    · have hidx : (x - s.fromAddr).toNat - (addr.toNat - s.fromAddr.toNat) + 0 =
          (x - addr).toNat := by
        rw [BitVec.toNat_sub] at hw
        rw [BitVec.toNat_sub, BitVec.toNat_sub]
        omega
      have hlt : (x - addr).toNat < data.length := by omega
      rw [if_pos hw, hidx, List.getElem?_eq_getElem hlt, Option.some_or]
    · have hge : data.length ≤ (x - addr).toNat := by
        rw [BitVec.toNat_sub] at hw
        rw [BitVec.toNat_sub]
        omega
      rw [if_neg hw, List.getElem?_eq_none hge, Option.none_or]

/-- The greatest end among the chunks. -/
def chunksEnd (l : List RBufferSparse) : Nat := l.foldr (fun c m => max c.toAddr.toNat m) 0

/-- A write that fits lays its block over everything written before. -/
theorem sparseWrite_spec (hpos : 0 < data.length) (l : List RBufferSparse)
    (hok : ∀ c ∈ l, ChunkOk c) (hfit : WriteFits addr data.length l) :
    ∃ l', sparseWrite addr data l = some ((data.length : Int), l') ∧ (∀ c ∈ l', ChunkOk c) ∧
      chunksEnd l' = max (chunksEnd l) (addr.toNat + data.length) ∧
      ∀ x, Overlay.lastPatch nextAddr (chunkLog l') x =
        (Overlay.patch nextAddr addr data x).or (Overlay.lastPatch nextAddr (chunkLog l) x) := by
  induction l with
  | nil =>
    refine ⟨_, rfl, ?_, ?_, ?_⟩
    · intro c hc
      obtain rfl := List.mem_singleton.mp hc
      exact ⟨rfl, hpos, hsmall, htop, rfl⟩
    · simp [chunksEnd, sparseAppend, toNat_add_ofNat htop]
    · intro x
      simp [sparseAppend, chunkLog, Overlay.lastPatch]
  | cons s l ih =>
    have hs := hok s (by simp)
    have hrest : ∀ c ∈ l, ChunkOk c := fun c hc => hok c (by simp [hc])
    rw [WriteFits] at hfit
    rw [sparseWrite]
    cases hin : s.has addr with
    | true =>
      rw [if_pos hin] at hfit
      obtain ⟨hinside, hclear⟩ := hfit
      obtain ⟨s', hpatch, hs', hfrom, hto, hbytes⟩ := sparsePatch_spec addr data hsmall htop s hs hin
        hinside
      refine ⟨s' :: l, by rw [if_pos rfl, hpatch, Option.map_some], ?_, ?_, ?_⟩
      · intro c hc
        rcases List.mem_cons.mp hc with rfl | hc
        · exact hs'
        · exact hrest c hc
      · simp only [chunksEnd, List.foldr_cons, hto]
        omega
      · intro x
        have hlog : chunkLog (s' :: l) = (s'.fromAddr, s'.data) :: chunkLog l := rfl
        have hlog' : chunkLog (s :: l) = (s.fromAddr, s.data) :: chunkLog l := rfl
        rw [hlog, hlog', Overlay.lastPatch_cons, Overlay.lastPatch_cons, hbytes]
        cases hx : Overlay.patch nextAddr addr data x with
        | none => rw [Option.none_or, Option.none_or]
        | some b =>
          -- no chunk behind the patched one reaches a byte of the write
          have hnone : Overlay.lastPatch nextAddr (chunkLog l) x = none := by
            apply Overlay.lastPatch_eq_none
            intro w hw
            obtain ⟨c, hc, rfl⟩ := List.mem_map.mp hw
            have hcok := hrest c hc
            have hcend := hcok.toAddr_toNat
            have hctop := hcok.top
            have hmiss := hclear c hc
            rw [patch_nextAddr _ _ _ (by omega)] at hx
            obtain ⟨hlt, -⟩ := List.getElem?_eq_some_iff.mp hx
            have hxl := x.isLt
            have hal := addr.isLt
            change Overlay.patch nextAddr c.fromAddr c.data x = none
            rw [patch_nextAddr _ _ _ (by omega)]
            apply List.getElem?_eq_none
            rw [BitVec.toNat_sub] at hlt ⊢
            omega
          rw [hnone, Option.none_or, Option.none_or]
    | false =>
      rw [if_neg (by simp [hin])] at hfit
      obtain ⟨l', hwrite, hok', hend, hbytes⟩ := ih hrest hfit
      refine ⟨s :: l', by rw [if_neg Bool.false_ne_true, hwrite, Option.map_some], ?_, ?_, ?_⟩
      · intro c hc
        rcases List.mem_cons.mp hc with rfl | hc
        · exact hs
        · exact hok' c hc
      · simp only [chunksEnd, List.foldr_cons] at hend ⊢
        omega
      · intro x
        have hlog : chunkLog (s :: l') = (s.fromAddr, s.data) :: chunkLog l' := rfl
        have hlog' : chunkLog (s :: l) = (s.fromAddr, s.data) :: chunkLog l := rfl
        rw [hlog, hlog', Overlay.lastPatch_cons, Overlay.lastPatch_cons, hbytes, Option.or_assoc]

end

/-- A run of writes, all of which succeed. -/
def rBufWrites (b : RBuffer) : List (Ut64 × List Ut8) → Option RBuffer
  | [] => some b
  | w :: ws =>
    match rBufWriteAt b w.1 w.2 with
    | some (r, b') => if r = w.2.length then rBufWrites b' ws else none
    | none => none

/-- Every write of the run fits the chunks it meets. -/
def WritesFitChunks (b : RBuffer) : List (Ut64 × List Ut8) → Prop
  | [] => True
  | w :: ws => WriteFits w.1 w.2.length b.sparse ∧
    ∀ r b', rBufWriteAt b w.1 w.2 = some (r, b') → WritesFitChunks b' ws

/-- The greatest end among the writes. -/
def writesEnd (ws : List (Ut64 × List Ut8)) : Nat :=
  ws.foldl (fun m w => max m (w.1.toNat + w.2.length)) 0

/-- What the writes have left in the buffer. -/
structure SparseRun (b : RBuffer) (ws : List (Ut64 × List Ut8)) : Prop where
  chunks : ∀ c ∈ b.sparse, ChunkOk c
  bytes : ∀ x, Overlay.lastPatch nextAddr (chunkLog b.sparse) x = Overlay.lastPatch nextAddr ws x
  ends : chunksEnd b.sparse = writesEnd ws

theorem SparseRun.write {b : RBuffer} {ws : List (Ut64 × List Ut8)} (h : SparseRun b ws)
    (addr : Ut64) (data : List Ut8) (hpos : 0 < data.length) (hsmall : data.length < 2147483648)
    (htop : addr.toNat + data.length < 18446744073709551616)
    (hfit : WriteFits addr data.length b.sparse) :
    ∃ b', rBufWriteAt b addr data = some ((data.length : Int), b') ∧
      SparseRun b' (ws ++ [(addr, data)]) := by
  obtain ⟨l', hwrite, hok, hend, hbytes⟩ := sparseWrite_spec addr data hsmall htop hpos b.sparse
    h.chunks hfit
  refine ⟨{ b with sparse := l' }, ?_, hok, ?_, ?_⟩
  · rw [rBufWriteAt, if_neg (by omega), hwrite, Option.map_some]
    simp only
    rw [if_neg (by omega)]
  · intro x
    rw [hbytes, h.bytes, Overlay.lastPatch_append]
  · simp only [hend, h.ends, writesEnd, List.foldl_append, List.foldl_cons, List.foldl_nil]

theorem SparseRun.writes {b : RBuffer} {ws : List (Ut64 × List Ut8)} (h : SparseRun b ws)
    (vs : List (Ut64 × List Ut8)) (hvs : WritesFit vs) (hpos : ∀ w ∈ vs, 0 < w.2.length)
    (hfit : WritesFitChunks b vs) :
    ∃ b', rBufWrites b vs = some b' ∧ SparseRun b' (ws ++ vs) := by
  induction vs generalizing b ws with
  | nil => exact ⟨b, rfl, by simpa using h⟩
  | cons v vs ih =>
    obtain ⟨hsmall, htop⟩ := hvs v (by simp)
    obtain ⟨b₁, hwrite, hrun⟩ := h.write v.1 v.2 (hpos v (by simp)) hsmall htop hfit.1
    obtain ⟨b', hrest, hrun'⟩ := ih hrun (fun w hw => hvs w (by simp [hw]))
      (fun w hw => hpos w (by simp [hw])) (hfit.2 _ _ hwrite)
    refine ⟨b', ?_, by simpa using hrun'⟩
    rw [rBufWrites, hwrite]
    simp only [if_true]
    exact hrest

theorem sparseLimits_hi (s : RBufferSparse) (l : List RBufferSparse) :
    ((sparseLimits (s :: l)).map (fun r => r.2.toNat)) = some (chunksEnd (s :: l)) := by
  have hfold : ∀ (l : List RBufferSparse) (limits : Ut64 × Ut64),
      (l.foldl (fun limits c => (if c.fromAddr < limits.1 then c.fromAddr else limits.1,
        if c.toAddr > limits.2 then c.toAddr else limits.2)) limits).2.toNat =
          max limits.2.toNat (chunksEnd l) := by
    intro l
    induction l with
    | nil => intro limits; simp [chunksEnd]
    | cons c l ih =>
      intro limits
      rw [List.foldl_cons, ih]
      simp only [chunksEnd, List.foldr_cons, gt_iff_lt, BitVec.lt_def]
      split <;> omega
  exact congrArg some (hfold l (s.fromAddr, s.toAddr))

theorem SparseRun.size {b : RBuffer} {ws : List (Ut64 × List Ut8)} (h : SparseRun b ws) :
    (rBufSize b).toNat = writesEnd ws := by
  rw [← h.ends, rBufSize]
  cases hs : b.sparse with
  | nil => rfl
  | cons s l =>
    have hhi := sparseLimits_hi s l
    rw [sparseLimits, Option.map_some, Option.some.injEq] at hhi
    exact hhi

/-- The read leaves in each place the byte of the last write that covers its address, or `0xff`. -/
def ReadsLastWrites (b : RBuffer) (ws : List (Ut64 × List Ut8)) (addr : Ut64) (buf : List Ut8) :
    Prop :=
  ∃ out, rBufReadAt b addr buf = some ((buf.length : Int), out) ∧ out.length = buf.length ∧
    ∀ p < buf.length, out[p]? =
      some ((Overlay.lastPatch nextAddr ws (addr + BitVec.ofNat 64 p)).getD 0xff)

theorem SparseRun.reads {b : RBuffer} {ws : List (Ut64 × List Ut8)} (h : SparseRun b ws)
    (addr : Ut64) (buf : List Ut8) (hlen : buf.length < 2147483648)
    (ht : addr.toNat + buf.length < 18446744073709551616)
    (hno : ∀ c ∈ b.sparse, ¬ CopyOverflows addr buf.length c.fromAddr c.data.length) :
    ReadsLastWrites b ws addr buf := by
  by_cases h0 : buf.length < 1
  · have hnil : buf = [] := List.eq_nil_of_length_eq_zero (by omega)
    subst hnil
    exact ⟨[], rfl, rfl, by simp⟩
  · have hcur : addr ≠ ut64Max := by
      intro h
      have hn := (eq_ut64Max_iff addr).mp h
      omega
    have hblank : (List.replicate buf.length (0xff : Ut8)).length = buf.length :=
      List.length_replicate
    have hread := sparseRead_spec addr b.sparse (List.replicate buf.length 0xff) h.chunks
      (by omega) (by omega) (by rw [hblank]; exact hno)
    rw [hblank] at hread
    refine ⟨overlayBuf addr (Overlay.lastPatch nextAddr (chunkLog b.sparse))
      (List.replicate buf.length 0xff), ?_, by rw [overlayBuf_length, hblank], ?_⟩
    · simp only [rBufReadAt, if_neg h0, if_neg hcur, hread, Option.map_some]
    intro p hp
    rw [overlayBuf_getElem?, List.getElem?_replicate, if_pos hp, Option.map_some, h.bytes]

/-- After every run of writes that fit, the size is where the writes end, and every read in which
no copy of a chunk overflows an `int` finds the last writes. -/
theorem sparse_reads_last_writes (ws : List (Ut64 × List Ut8)) (hws : WritesFit ws)
    (hpos : ∀ w ∈ ws, 0 < w.2.length) (hfit : WritesFitChunks rBufNewSparse ws) :
    ∃ b, rBufWrites rBufNewSparse ws = some b ∧ (rBufSize b).toNat = writesEnd ws ∧
      ∀ (addr : Ut64) (buf : List Ut8), buf.length < 2147483648 →
        addr.toNat + buf.length < 18446744073709551616 →
        (∀ c ∈ b.sparse, ¬ CopyOverflows addr buf.length c.fromAddr c.data.length) →
        ReadsLastWrites b ws addr buf := by
  have hempty : SparseRun rBufNewSparse [] := ⟨by simp [rBufNewSparse], fun _ => rfl, rfl⟩
  obtain ⟨b, hb, hrun⟩ := hempty.writes ws hws hpos hfit
  rw [List.nil_append] at hrun
  exact ⟨b, hb, hrun.size, hrun.reads⟩

instance WriteFits.decide (addr : Ut64) (len : Nat) :
    (l : List RBufferSparse) → Decidable (WriteFits addr len l)
  | [] => isTrue trivial
  | s :: l =>
    if h : s.has addr = true then
      decidable_of_iff (addr.toNat + len ≤ s.toAddr.toNat ∧
        ∀ c ∈ l, ¬ (c.fromAddr.toNat < addr.toNat + len ∧ addr.toNat < c.toAddr.toNat))
        (by rw [WriteFits, if_pos h])
    else
      have := WriteFits.decide addr len l
      decidable_of_iff (WriteFits addr len l) (by rw [WriteFits, if_neg h])

theorem sparse_reads_last_writes_three :
    ∃ b, rBufWrites rBufNewSparse [(2, [10, 11, 12]), (8, [1]), (3, [20])] = some b ∧
      (rBufSize b).toNat = 9 ∧
      ReadsLastWrites b [(2, [10, 11, 12]), (8, [1]), (3, [20])] 1 [0, 0, 0, 0] := by
  obtain ⟨b, hb, hsize, hreads⟩ := sparse_reads_last_writes [(2, [10, 11, 12]), (8, [1]), (3, [20])]
    (by decide) (by decide) (by
      refine ⟨by decide, fun _ _ h => ?_⟩
      obtain ⟨-, rfl⟩ := Prod.mk.inj (Option.some.inj h)
      refine ⟨by decide, fun _ _ h => ?_⟩
      obtain ⟨-, rfl⟩ := Prod.mk.inj (Option.some.inj h)
      exact ⟨by decide, fun _ _ _ => trivial⟩)
  refine ⟨b, hb, hsize, hreads 1 [0, 0, 0, 0] (by decide) (by decide) ?_⟩
  obtain rfl := Option.some.inj hb
  decide

/-- The second write starts in the first chunk and ends behind it: its last byte is not read back
and the size does not grow. -/
theorem sparse_write_drops_tail :
    ∃ b, rBufWrites rBufNewSparse [(0, [1, 2]), (1, [7, 8])] = some b ∧
      (rBufSize b).toNat ≠ writesEnd [(0, [1, 2]), (1, [7, 8])] ∧
      ¬ ReadsLastWrites b [(0, [1, 2]), (1, [7, 8])] 2 [0] := by
  refine ⟨_, rfl, by decide, ?_⟩
  rintro ⟨out, hread, -, hbytes⟩
  obtain ⟨-, rfl⟩ := Prod.mk.inj (Option.some.inj hread)
  exact absurd (hbytes 0 (by decide)) (by decide)

end Radare
