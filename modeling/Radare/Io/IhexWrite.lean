import Radare.Io.IhexParse

namespace Radare.Ihex

/-- A chunk as a block of bytes. -/
def chunkBlock (c : RBufferSparse) : Block := (c.fromAddr.toNat, c.data)

/-- The bytes of a chunk before the next 64 KiB boundary. -/
def room (c : RBufferSparse) : Nat := 65536 - c.fromAddr.toNat % 65536

/-- One line is enough for what the chunk has on each side of a boundary, and where it reaches the
boundary it goes on behind it. -/
def ChunkFits (c : RBufferSparse) : Prop :=
  if c.data.length < room c then c.data.length ≤ 16
  else room c ≤ 16 ∧ room c < c.data.length ∧ c.data.length ≤ room c + 16

/-- The records of a chunk. -/
def chunkRecs (c : RBufferSparse) : List Rec :=
  let addh0 : BitVec 16 := BitVec.ofNat 16 (c.fromAddr.toNat / 65536)
  let addl0 : BitVec 16 := BitVec.ofNat 16 c.fromAddr.toNat
  if c.data.length < room c then [.linear addh0, .data addl0 c.data]
  else [.linear addh0, .data addl0 (c.data.take (room c)), .linear (addh0 + 1), .data 0 (c.data.drop (room c))]

/-- The blocks of its records. -/
def pieces (c : RBufferSparse) : List Block :=
  if c.data.length < room c then [chunkBlock c]
  else [(c.fromAddr.toNat, c.data.take (room c)), (c.fromAddr.toNat + room c, c.data.drop (room c))]

theorem printBytes_append (upper : Bool) (bs cs : List Ut8) :
    printBytes upper (bs ++ cs) = printBytes upper bs ++ printBytes upper cs := by
  simp [printBytes]

theorem fw04b_text (base : BitVec 16) : RecordText (Rec.linear base).body (fw04b base) := by
  have hcks : checksum (Rec.linear base).body = 0 - (6 + (base >>> 8).setWidth 8 + base.setWidth 8) := by
    have hsum := @recordBody_sum 4 0 [(base >>> 8).setWidth 8, base.setWidth 8]
    have hsix : headerSum (BitVec.ofNat 8 2) 0 4 = 6 := rfl
    simp only [checksum, Rec.body, Rec.type, Rec.addr, Rec.payload, hsum, List.length_cons, List.length_nil,
      hsix, List.sum_cons, List.sum_nil]
    ring
  have hbody : (Rec.linear base).body =
      ([2, 0, 0, 4] : List Ut8) ++ [(base >>> 8).setWidth 8, base.setWidth 8] := by
    simp [Rec.body, recordBody, Rec.addr, Rec.type, Rec.payload]
  have hprint : printBytes true [2, 0, 0, 4] = ['0', '2', '0', '0', '0', '0', '0', '4'] := rfl
  refine ⟨_, ['\n'], ?_, hexText_printBytes true _, by decide⟩
  rw [hcks, hbody, printBytes_append, printBytes_append, hprint]
  simp [fw04b, printHalf, printBytes]

theorem fwcrumbs_text (b : List Ut8) (addr : BitVec 16) :
    RecordText (Rec.data addr b).body (fwcrumbs b addr) := by
  have hcks : checksum (Rec.data addr b).body =
      -addr.setWidth 8 - (addr >>> 8).setWidth 8 - b.sum - BitVec.ofNat 8 b.length := by
    simp only [checksum, Rec.body, Rec.type, Rec.addr, Rec.payload, recordBody_sum, headerSum]
    ring
  have hbody : (Rec.data addr b).body =
      [BitVec.ofNat 8 b.length] ++ [(addr >>> 8).setWidth 8, addr.setWidth 8] ++ [0] ++ b := rfl
  have hprint : printBytes true [0] = ['0', '0'] := rfl
  refine ⟨_, ['\n'], ?_, hexText_printBytes true _, by decide⟩
  rw [hcks, hbody, printBytes_append, printBytes_append, printBytes_append, printBytes_append, hprint]
  simp [fwcrumbs, printHalf, printBytes]

/-- Sixteen bytes are one line. -/
theorem fwblock_eq (b : List Ut8) (startAddr : Ut32) {size : BitVec 16} (hpos : 0 < size.toNat)
    (hsize : size.toNat ≤ 16) :
    fwblock b startAddr size = some (fwcrumbs (b.take size.toNat) (startAddr.setWidth 16)) := by
  have hge : ¬size < 1 := by
    rw [BitVec.lt_def]
    simp
    omega
  have hloop : ¬(0 : Ut32) + 0x10 < size.setWidth 32 := by
    rw [BitVec.lt_def, BitVec.toNat_setWidth]
    simp
    omega
  have hzero : (0 : Ut32) ≠ size.setWidth 32 := by
    intro h
    have hto := congrArg BitVec.toNat h
    rw [BitVec.toNat_setWidth] at hto
    simp at hto
    omega
  rw [fwblock, if_neg hge, fwblockLoop, if_neg hloop, if_neg hzero]
  simp

/-- The low half of two halves put together. -/
theorem setWidth_halves (hi lo : BitVec 16) :
    ((hi.setWidth 32) <<< 16 ||| lo.setWidth 32 : Ut32).setWidth 16 = lo := by
  apply BitVec.eq_of_getLsbD_eq
  intro i hlt
  simp [hlt]

/-- What the chunk is written as. -/
def Writes (c : RBufferSparse) (text : CStr) : Prop :=
  writeChunk c = some text ∧
    ∀ rs texts, RecordsText rs texts → RecordsText (chunkRecs c ++ rs) (text ++ texts)

theorem high_half (x : Ut64) : (x >>> 16).setWidth 16 = BitVec.ofNat 16 (x.toNat / 65536) := by
  apply BitVec.eq_of_toNat_eq
  simp only [BitVec.toNat_setWidth, BitVec.toNat_ushiftRight, Nat.shiftRight_eq_div_pow, BitVec.toNat_ofNat]

theorem low_half (x : Ut64) : x.setWidth 16 = BitVec.ofNat 16 x.toNat := by
  rw [BitVec.ofNat_toNat]

section
variable {c : RBufferSparse} (hok : ChunkOk c) (hfit : ChunkFits c)
include hok hfit

theorem writeChunk_inside (hin : c.data.length < room c) :
    ∃ text, Writes c text := by
  rw [ChunkFits, if_pos hin] at hfit
  have hpos := hok.pos
  have hsize : c.size ≠ 0 := by
    rw [hok.size]
    omega
  have hsame : c.toAddr.toNat / 65536 = c.fromAddr.toNat / 65536 := by
    rw [hok.toAddr_toNat]
    rw [room] at hin
    omega
  have hlen : (BitVec.ofInt 16 c.size).toNat = c.data.length := by
    rw [hok.size, BitVec.toNat_ofInt]
    omega
  have hblock := fwblock_eq c.data (((BitVec.ofNat 16 (c.fromAddr.toNat / 65536)).setWidth 32) <<< 16 |||
    (BitVec.ofNat 16 c.fromAddr.toNat).setWidth 32) (by omega : 0 < (BitVec.ofInt 16 c.size).toNat)
    (by omega)
  rw [setWidth_halves, hlen, List.take_length] at hblock
  refine ⟨fw04b (BitVec.ofNat 16 (c.fromAddr.toNat / 65536)) ++
    fwcrumbs c.data (BitVec.ofNat 16 c.fromAddr.toNat), ?_, ?_⟩
  · rw [writeChunk]
    simp only [if_neg hsize, high_half, hsame]
    simp only [low_half]
    rw [if_neg (by simp), hblock]
    rfl
  · intro rs texts htexts
    rw [chunkRecs]
    simp only [if_pos hin]
    rw [List.append_assoc]
    exact .cons (fw04b_text _) (.cons (fwcrumbs_text _ _) htexts)

theorem writeChunk_across (hout : ¬c.data.length < room c) :
    ∃ text, Writes c text := by
  rw [ChunkFits, if_neg hout] at hfit
  obtain ⟨hroom, hbehind, hrest⟩ := hfit
  have hpos := hok.pos
  have hsize : c.size ≠ 0 := by
    rw [hok.size]
    omega
  have hmod : c.fromAddr.toNat % 65536 = 65536 - room c := by
    rw [room]
    omega
  have hnext : c.toAddr.toNat / 65536 = c.fromAddr.toNat / 65536 + 1 := by
    rw [hok.toAddr_toNat]
    omega
  have hdiff : BitVec.ofNat 16 (c.fromAddr.toNat / 65536) ≠
      BitVec.ofNat 16 (c.fromAddr.toNat / 65536 + 1) := by
    intro h
    have hto := congrArg BitVec.toNat h
    rw [BitVec.toNat_ofNat, BitVec.toNat_ofNat] at hto
    omega
  have htsiz : (-BitVec.ofNat 16 c.fromAddr.toNat).toNat = room c := by
    rw [BitVec.toNat_neg, BitVec.toNat_ofNat]
    omega
  have hlen : (BitVec.ofInt 16 (c.size - room c)).toNat = c.data.length - room c := by
    rw [hok.size, BitVec.toNat_ofInt]
    omega
  have hlow : (c.fromAddr.setWidth 32).setWidth 16 = BitVec.ofNat 16 c.fromAddr.toNat := by
    rw [BitVec.setWidth_setWidth_of_le _ (by omega), low_half]
  have hfirst := fwblock_eq c.data (c.fromAddr.setWidth 32)
    (by omega : 0 < (-BitVec.ofNat 16 c.fromAddr.toNat).toNat) (by omega)
  rw [hlow, htsiz] at hfirst
  have hzero : ((BitVec.ofNat 16 (c.fromAddr.toNat / 65536 + 1)).setWidth 32 <<< 16 : Ut32).setWidth 16 =
      0 := by
    simp
  have hbehind := fwblock_eq (c.data.drop (room c))
    ((BitVec.ofNat 16 (c.fromAddr.toNat / 65536 + 1)).setWidth 32 <<< 16)
    (by omega : 0 < (BitVec.ofInt 16 (c.size - room c)).toNat) (by omega)
  rw [hzero, hlen, List.take_of_length_le (by simp)] at hbehind
  refine ⟨fw04b (BitVec.ofNat 16 (c.fromAddr.toNat / 65536)) ++
    fwcrumbs (c.data.take (room c)) (BitVec.ofNat 16 c.fromAddr.toNat) ++
    fw04b (BitVec.ofNat 16 (c.fromAddr.toNat / 65536 + 1)) ++ fwcrumbs (c.data.drop (room c)) 0, ?_, ?_⟩
  · rw [writeChunk]
    simp only [if_neg hsize, high_half, hnext]
    simp only [low_half]
    rw [if_pos hdiff, hfirst, htsiz, hbehind]
    rfl
  · intro rs texts htexts
    have hsucc : BitVec.ofNat 16 (c.fromAddr.toNat / 65536 + 1) =
        BitVec.ofNat 16 (c.fromAddr.toNat / 65536) + 1 := by
      rw [BitVec.ofNat_add]
      rfl
    rw [chunkRecs]
    simp only [if_neg hout, ← hsucc]
    rw [List.append_assoc, List.append_assoc, List.append_assoc]
    exact .cons (fw04b_text _) (.cons (fwcrumbs_text _ _)
      (.cons (fw04b_text _) (.cons (fwcrumbs_text _ _) htexts)))

theorem writeChunk_records : ∃ text, Writes c text := by
  by_cases hin : c.data.length < room c
  · exact writeChunk_inside hok hfit hin
  · exact writeChunk_across hok hfit hin

/-- The records of a chunk put its pieces where they belong. -/
theorem blocks_chunkRecs (htop : c.fromAddr.toNat + c.data.length ≤ 4294967296) (base : Nat)
    (rs : List Rec) :
    ∃ base', blocks base (chunkRecs c ++ rs) = pieces c ++ blocks base' rs := by
  have hpos := hok.pos
  have hhigh : (BitVec.ofNat 16 (c.fromAddr.toNat / 65536)).toNat = c.fromAddr.toNat / 65536 := by
    rw [BitVec.toNat_ofNat]
    omega
  have hlow : (BitVec.ofNat 16 c.fromAddr.toNat).toNat = c.fromAddr.toNat % 65536 := by
    rw [BitVec.toNat_ofNat]
  have hfrom : c.fromAddr.toNat / 65536 * 65536 + c.fromAddr.toNat % 65536 = c.fromAddr.toNat := by
    omega
  by_cases hin : c.data.length < room c
  · refine ⟨c.fromAddr.toNat / 65536 * 65536, ?_⟩
    simp only [chunkRecs, pieces, if_pos hin]
    simp [blocks, hhigh, hfrom, chunkBlock]
  · rw [ChunkFits, if_neg hin] at hfit
    have hsucc : (BitVec.ofNat 16 (c.fromAddr.toNat / 65536) + 1).toNat = c.fromAddr.toNat / 65536 + 1 := by
      rw [BitVec.toNat_add, hhigh]
      simp [room] at hfit ⊢
      omega
    have hbehind : (c.fromAddr.toNat / 65536 + 1) * 65536 = c.fromAddr.toNat + room c := by
      simp [room] at hfit ⊢
      omega
    refine ⟨(c.fromAddr.toNat / 65536 + 1) * 65536, ?_⟩
    simp only [chunkRecs, pieces, if_neg hin]
    simp only [List.cons_append, List.nil_append, blocks, hhigh, hlow, hfrom, hsucc]
    simp [hbehind]

omit hok in
theorem chunkRecs_wellFormed : ∀ r ∈ chunkRecs c, r.WellFormed := by
  have hlow : (BitVec.ofNat 16 c.fromAddr.toNat).toNat = c.fromAddr.toNat % 65536 := by
    rw [BitVec.toNat_ofNat]
  intro r hr
  by_cases hin : c.data.length < room c
  · rw [ChunkFits, if_pos hin] at hfit
    simp only [chunkRecs, if_pos hin, List.mem_cons, List.not_mem_nil, or_false] at hr
    obtain rfl | rfl := hr
    · trivial
    · rw [room] at hin
      rw [Rec.WellFormed, hlow]
      omega
  · rw [ChunkFits, if_neg hin] at hfit
    simp only [chunkRecs, if_neg hin, List.mem_cons, List.not_mem_nil, or_false] at hr
    obtain rfl | rfl | rfl | rfl := hr
    · trivial
    · rw [Rec.WellFormed, hlow, List.length_take]
      rw [room] at hfit ⊢
      omega
    · trivial
    · rw [Rec.WellFormed, List.length_drop]
      simp
      omega

end

/-- A piece is inside its chunk. -/
theorem pieces_covers {c : RBufferSparse} {p : Block} (hp : p ∈ pieces c) {x : Nat} (hx : p.Covers x) :
    (chunkBlock c).Covers x := by
  unfold pieces at hp
  split_ifs at hp with hin
  · rw [List.mem_singleton] at hp
    rw [← hp]
    exact hx
  · simp only [List.mem_cons, List.not_mem_nil, or_false] at hp
    obtain rfl | rfl := hp
    · simp only [Block.Covers, List.length_take, chunkBlock] at hx ⊢
      omega
    · simp only [Block.Covers, List.length_drop, chunkBlock] at hx ⊢
      omega

/-- Every byte of a chunk is in a piece. -/
theorem pieces_byte (c : RBufferSparse) {i : Nat} (hi : i < c.data.length) :
    ∃ p ∈ pieces c, ∃ k, ∃ hk : k < p.2.length, p.1 + k = c.fromAddr.toNat + i ∧ p.2[k] = c.data[i] := by
  unfold pieces
  split_ifs with hin
  · exact ⟨chunkBlock c, by simp, i, hi, rfl, rfl⟩
  · by_cases hlt : i < room c
    · refine ⟨_, List.mem_cons_self, i, ?_, rfl, ?_⟩
      · rw [List.length_take]
        omega
      · simp
    · refine ⟨_, List.mem_cons_of_mem _ List.mem_cons_self, i - room c, ?_, ?_, ?_⟩
      · rw [List.length_drop]
        omega
      · simp only []
        omega
      · rw [List.getElem_drop]
        congr 1
        omega

theorem pieces_disjoint (c : RBufferSparse) : DisjointBlocks (pieces c) := by
  unfold pieces
  split_ifs with hin
  · exact List.pairwise_singleton _ _
  · simp only [DisjointBlocks, List.pairwise_cons, List.mem_singleton, forall_eq, List.not_mem_nil,
      false_implies, implies_true, List.Pairwise.nil, and_true, Block.Covers, List.length_take,
      List.length_drop]
    omega

section
variable {l : List RBufferSparse} (hl : ∀ c ∈ l, ChunkOk c ∧ ChunkFits c)
include hl

theorem writeChunks_records :
    ∃ text, writeChunks l = some text ∧ RecordsText (l.flatMap chunkRecs) text := by
  induction l with
  | nil => exact ⟨_, rfl, @RecordsText.eof (printBytes true [0, 0, 0, 1, 0xff]) ['\n']
      (hexText_printBytes true _)⟩
  | cons c l ih =>
    obtain ⟨hok, hfit⟩ := hl c (by simp)
    obtain ⟨text, hchunk, hrecords⟩ := writeChunk_records hok hfit
    obtain ⟨texts, hrest, htexts⟩ := ih (fun d hd => hl d (by simp [hd]))
    refine ⟨text ++ texts, ?_, hrecords _ _ htexts⟩
    rw [writeChunks, hchunk, hrest]
    rfl

theorem blocks_flatMap (htop : ∀ c ∈ l, c.fromAddr.toNat + c.data.length ≤ 4294967296) (base : Nat) :
    blocks base (l.flatMap chunkRecs) = l.flatMap pieces := by
  induction l generalizing base with
  | nil => rfl
  | cons c l ih =>
    obtain ⟨hok, hfit⟩ := hl c (by simp)
    obtain ⟨base', hblocks⟩ := blocks_chunkRecs hok hfit (htop c (by simp)) base (l.flatMap chunkRecs)
    rw [List.flatMap_cons, hblocks, List.flatMap_cons,
      ih (fun d hd => hl d (by simp [hd])) (fun d hd => htop d (by simp [hd]))]

end

theorem pieces_flatMap_disjoint {l : List RBufferSparse} (h : DisjointBlocks (l.map chunkBlock)) :
    DisjointBlocks (l.flatMap pieces) := by
  apply List.pairwise_flatMap.mpr
  constructor
  · intro c hc
    exact pieces_disjoint c
  · apply (List.pairwise_map.mp h).imp
    intro c d happart p hp q hq x hx hx'
    exact happart x (pieces_covers hp hx) (pieces_covers hq hx')

/-- What is written of chunks that fit is read back as it was. -/
theorem ihex_write_read (l : List RBufferSparse) (hl : ∀ c ∈ l, ChunkOk c)
    (htop : ∀ c ∈ l, c.fromAddr.toNat + c.data.length ≤ 4294967296)
    (hdisj : DisjointBlocks (l.map chunkBlock)) (hfit : ∀ c ∈ l, ChunkFits c) :
    ∃ text rbuf, writeChunks l = some text ∧ ihexParse rBufNewSparse text = .ok rbuf ∧
      (∀ c ∈ l, ∀ (i : Nat) (hi : i < c.data.length) (z : Ut8),
        rBufReadAt rbuf (BitVec.ofNat 64 (c.fromAddr.toNat + i)) [z] = some (1, [c.data[i]])) ∧
      ∀ addr ≠ ut64Max, (∀ c ∈ l, ¬(chunkBlock c).Covers addr.toNat) → ∀ z,
        rBufReadAt rbuf addr [z] = some (1, [0xff]) := by
  have hall : ∀ c ∈ l, ChunkOk c ∧ ChunkFits c := fun c hc => ⟨hl c hc, hfit c hc⟩
  obtain ⟨text, hwrite, htext⟩ := writeChunks_records hall
  have hpieces := blocks_flatMap hall htop 0
  have hdisj' := pieces_flatMap_disjoint hdisj
  have hwf : ∀ r ∈ l.flatMap chunkRecs, r.WellFormed := by
    intro r hr
    obtain ⟨c, hc, hmem⟩ := List.mem_flatMap.mp hr
    exact chunkRecs_wellFormed (hfit c hc) r hmem
  obtain ⟨rbuf, hparse, hrun, hbelow⟩ := ihexParse_blocks _ hwf text htext (by rw [hpieces]; exact hdisj')
  rw [hpieces] at hrun hbelow
  refine ⟨text, rbuf, hwrite, hparse, ?_, ?_⟩
  · intro c hc i hi z
    obtain ⟨p, hp, k, hk, haddr, hbyte⟩ := pieces_byte c hi
    rw [← haddr, SparseRun.read_block hrun hbelow hdisj' (List.mem_flatMap.mpr ⟨c, hc, hp⟩) hk z, hbyte]
  · intro addr haddr hclear z
    apply SparseRun.read_clear hrun hbelow haddr
    intro p hp hcover
    obtain ⟨c, hc, hmem⟩ := List.mem_flatMap.mp hp
    exact hclear c hc (pieces_covers hmem hcover)

/-- A chunk inside a segment and one over its end. -/
def twoChunks : List RBufferSparse := [⟨0x10, 0x12, 2, [1, 2]⟩, ⟨0x1fffe, 0x20001, 3, [7, 8, 9]⟩]

theorem ihex_write_read_two :
    ∃ text rbuf, writeChunks twoChunks = some text ∧ ihexParse rBufNewSparse text = .ok rbuf ∧
      rBufReadAt rbuf 0x11 [0] = some (1, [2]) ∧ rBufReadAt rbuf 0x20000 [0] = some (1, [9]) ∧
      rBufReadAt rbuf 0x12 [0] = some (1, [0xff]) := by
  obtain ⟨text, rbuf, hwrite, hparse, hbytes, hclear⟩ := ihex_write_read twoChunks (by
    intro c hc
    simp only [twoChunks, List.mem_cons, List.not_mem_nil, or_false] at hc
    obtain rfl | rfl := hc <;> constructor <;> decide) (by decide) (by
    simp [DisjointBlocks, chunkBlock, twoChunks, Block.Covers]
    omega) (by
    intro c hc
    simp only [twoChunks, List.mem_cons, List.not_mem_nil, or_false] at hc
    obtain rfl | rfl := hc <;> simp [ChunkFits, room])
  refine ⟨text, rbuf, hwrite, hparse, ?_, ?_, ?_⟩
  · exact hbytes ⟨0x10, 0x12, 2, [1, 2]⟩ (by simp [twoChunks]) 1 (by decide) 0
  · exact hbytes ⟨0x1fffe, 0x20001, 3, [7, 8, 9]⟩ (by simp [twoChunks]) 2 (by decide) 0
  · apply hclear 0x12 (by decide)
    simp [twoChunks, chunkBlock, Block.Covers]

/-- A byte more than a line. -/
def longChunk : RBufferSparse := ⟨0, 17, 17, List.replicate 17 0x41⟩

/-- Its last byte is written sixteen addresses behind its place. -/
theorem ihex_write_moves_last_byte :
    ChunkOk longChunk ∧ DisjointBlocks ([longChunk].map chunkBlock) ∧
      ¬∃ text rbuf, writeChunks [longChunk] = some text ∧ ihexParse rBufNewSparse text = .ok rbuf ∧
        rBufReadAt rbuf 16 [0] = some (1, [0x41]) := by
  refine ⟨by constructor <;> decide, List.pairwise_singleton _ _, ?_⟩
  intro hall
  obtain ⟨text, rbuf, hwrite, hparse, hread⟩ := hall
  have hrs : ∀ r ∈ [Rec.linear 0, .data 0 (List.replicate 16 0x41), .data 32 [0x41]], r.WellFormed := by
    intro r hr
    simp only [List.mem_cons, List.not_mem_nil, or_false] at hr
    obtain rfl | rfl | rfl := hr <;> simp [Rec.WellFormed]
  have heof := @RecordsText.eof (printBytes true [0, 0, 0, 1, 0xff]) ['\n'] (hexText_printBytes true _)
  have hline : RecordText (Rec.data 0 (List.replicate 16 0x41)).body (fwline (List.replicate 16 0x41) 0) :=
    ⟨printBytes false ((Rec.data 0 (List.replicate 16 0x41)).body ++
      [checksum (Rec.data 0 (List.replicate 16 0x41)).body]), ['\n'], by decide,
      hexText_printBytes false _, by decide⟩
  have htext := RecordsText.cons (fw04b_text 0) (.cons hline (.cons (fwcrumbs_text [0x41] 32) heof))
  have hwritten : writeChunks [longChunk] = some (fw04b 0 ++ (fwline (List.replicate 16 0x41) 0 ++
      (fwcrumbs [0x41] 32 ++ ':' :: (printBytes true [0, 0, 0, 1, 0xff] ++ ['\n'])))) := by
    decide
  have hdisj : DisjointBlocks (blocks 0 [Rec.linear 0, .data 0 (List.replicate 16 0x41), .data 32 [0x41]]) := by
    simp [DisjointBlocks, blocks, Block.Covers]
    omega
  rw [hwrite, Option.some.injEq] at hwritten
  obtain ⟨rbuf', hparse', hrun, hbelow⟩ := ihexParse_blocks _ hrs _ htext hdisj
  rw [hwritten, hparse', Except.ok.injEq] at hparse
  have hff := SparseRun.read_clear hrun hbelow (by decide : (16 : Ut64) ≠ ut64Max) (by
    simp [blocks, Block.Covers]) 0
  rw [hparse, hread] at hff
  exact absurd hff (by decide)

end Radare.Ihex
