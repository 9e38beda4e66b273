import Mathlib.Data.List.Pairwise
import Mathlib.Tactic.Ring
import Radare.Io.Ihex
import Radare.Util.Buffer

namespace Radare.Ihex

/-- The blocks as writes: an empty one is not written. -/
def toWrites (bs : List Block) : List (Ut64 × List Ut8) :=
  (bs.filter (fun b => b.2 ≠ [])).map (fun b => (BitVec.ofNat 64 b.1, b.2))

/-- The addresses have 32 bits. -/
def Below (bs : List Block) : Prop := ∀ b ∈ bs, b.1 + b.2.length ≤ 4294967296

theorem toWrites_append (bs cs : List Block) : toWrites (bs ++ cs) = toWrites bs ++ toWrites cs := by
  simp [toWrites]

theorem toWrites_singleton (a : Nat) {data : List Ut8} (h : data ≠ []) :
    toWrites [(a, data)] = [(BitVec.ofNat 64 a, data)] := by
  simp [toWrites, h]

theorem toWrites_empty (a : Nat) : toWrites [(a, [])] = [] := by
  simp [toWrites]

theorem patch_block {b : Block} (hb : b.1 + b.2.length ≤ 4294967296) (x : Ut64) :
    Overlay.patch nextAddr (BitVec.ofNat 64 b.1) b.2 x =
      if b.1 ≤ x.toNat then b.2[x.toNat - b.1]? else none := by
  have hx := x.isLt
  rw [patch_nextAddr _ _ _ (by omega), BitVec.toNat_sub, BitVec.toNat_ofNat]
  split_ifs with hle
  · congr 1
    omega
  · apply List.getElem?_eq_none
    omega

theorem patch_block_eq_none {b : Block} (hb : b.1 + b.2.length ≤ 4294967296) {x : Ut64}
    (hx : ¬b.Covers x.toNat) : Overlay.patch nextAddr (BitVec.ofNat 64 b.1) b.2 x = none := by
  rw [patch_block hb]
  split_ifs with hle
  · apply List.getElem?_eq_none
    by_contra hlt
    exact hx ⟨hle, by omega⟩
  · rfl

/-- Nothing is written where no block is. -/
theorem lastPatch_toWrites_eq_none {bs : List Block} (hbs : Below bs) {x : Ut64}
    (hx : ∀ b ∈ bs, ¬b.Covers x.toNat) : Overlay.lastPatch nextAddr (toWrites bs) x = none := by
  apply Overlay.lastPatch_eq_none
  intro w hw
  obtain ⟨b, hb, rfl⟩ := List.mem_map.mp hw
  have hmem := List.mem_of_mem_filter hb
  exact patch_block_eq_none (hbs b hmem) (hx b hmem)

theorem DisjointBlocks.apart {bs : List Block} (h : DisjointBlocks bs) {v w : Block} (hv : v ∈ bs)
    (hw : w ∈ bs) (hne : v ≠ w) : ∀ x, v.Covers x → ¬w.Covers x := by
  have hsymm : Std.Symm (fun v w : Block => ∀ x, v.Covers x → ¬w.Covers x) :=
    ⟨fun v w hvw x hw hv => hvw x hv hw⟩
  exact h.forall hv hw hne

/-- A block that no other one meets is what is written there. -/
theorem lastPatch_toWrites_eq_some {bs : List Block} (hbs : Below bs) (hdisj : DisjointBlocks bs)
    {b : Block} (hb : b ∈ bs) {i : Nat} (hi : i < b.2.length) :
    Overlay.lastPatch nextAddr (toWrites bs) (BitVec.ofNat 64 (b.1 + i)) = some b.2[i] := by
  have hx : (BitVec.ofNat 64 (b.1 + i)).toNat = b.1 + i := by
    have hle := hbs b hb
    rw [BitVec.toNat_ofNat]
    omega
  have hpatch : Overlay.patch nextAddr (BitVec.ofNat 64 b.1) b.2 (BitVec.ofNat 64 (b.1 + i)) =
      some b.2[i] := by
    rw [patch_block (hbs b hb), hx, if_pos (by omega), Nat.add_sub_cancel_left,
      List.getElem?_eq_getElem hi]
  have hcover : b.Covers (BitVec.ofNat 64 (b.1 + i)).toNat := by
    rw [hx]
    exact ⟨by omega, by omega⟩
  apply Overlay.lastPatch_eq_some
  · have hne : b.2 ≠ [] := by
      intro hnil
      rw [hnil] at hi
      exact absurd hi (by simp)
    refine ⟨(BitVec.ofNat 64 b.1, b.2), ?_, by simp [hpatch]⟩
    exact List.mem_map.mpr ⟨b, List.mem_filter.mpr ⟨hb, by simp [hne]⟩, rfl⟩
  · intro w hw c hc
    obtain ⟨d, hd, rfl⟩ := List.mem_map.mp hw
    have hmem := List.mem_of_mem_filter hd
    by_cases hdb : d = b
    · rw [hdb, hpatch, Option.some.injEq] at hc
      exact hc.symm
    · have hmiss : ¬d.Covers (BitVec.ofNat 64 (b.1 + i)).toNat := by
        intro hcov
        exact hdisj.apart hmem hb hdb _ hcov hcover
      rw [patch_block_eq_none (hbs d hmem) hmiss] at hc
      cases hc

theorem toWrites_apart {bs : List Block} (hbs : Below bs) (hdisj : DisjointBlocks bs) :
    (toWrites bs).Pairwise (fun v w => ∀ x,
      Overlay.patch nextAddr v.1 v.2 x = none ∨ Overlay.patch nextAddr w.1 w.2 x = none) := by
  apply List.pairwise_map.mpr
  apply List.Pairwise.imp_of_mem _ (hdisj.filter _)
  intro v w hv hw happart x
  by_cases hx : v.Covers x.toNat
  · right
    exact patch_block_eq_none (hbs w (List.mem_of_mem_filter hw)) (happart _ hx)
  · left
    exact patch_block_eq_none (hbs v (List.mem_of_mem_filter hv)) hx

/-- A write that starts in no block is a chunk of its own. -/
theorem writeFits_of_clear {b : RBuffer} {ws : List (Ut64 × List Ut8)} (h : SparseRun b ws)
    {addr : Ut64} (hclear : Overlay.lastPatch nextAddr ws addr = none) (len : Nat) :
    WriteFits addr len b.sparse := by
  have hnone : ∀ c ∈ b.sparse, c.has addr = false := by
    intro c hc
    have hok := h.chunks c hc
    have hend := hok.toAddr_toNat
    have htop := hok.top
    have hx := h.bytes addr
    rw [hclear] at hx
    have hmiss : Overlay.patch nextAddr c.fromAddr c.data addr = none :=
      Overlay.patch_eq_none_of_lastPatch nextAddr hx (c.fromAddr, c.data) (List.mem_map.mpr ⟨c, hc, rfl⟩)
    rw [patch_nextAddr _ _ _ (by omega), List.getElem?_eq_none_iff, BitVec.toNat_sub] at hmiss
    rw [← Bool.not_eq_true, c.has_iff]
    have haddr := addr.isLt
    omega
  generalize b.sparse = l at hnone
  induction l with
  | nil => trivial
  | cons c l ih =>
    rw [WriteFits, if_neg (by simp [hnone c (by simp)])]
    exact ih (fun d hd => hnone d (by simp [hd]))

/-- The blocks that are read, the last one perhaps still in the section buffer. -/
structure Reads (st : State) (base : Nat) (done : List Block) (pending : List Ut8) : Prop where
  tmp : st.secTmp.length = 65535
  size_eq : st.secSize.toNat = pending.length
  small : pending.length ≤ 255
  bytes : st.secTmp.take pending.length = pending
  base_eq : st.segreg.toNat = base
  base_le : base ≤ 4294901760
  start : pending = [] → st.secStart = st.segreg + st.nextAddr.setWidth 32
  below : Below done
  disjoint : DisjointBlocks done
  run : ∃ ws, SparseRun st.rbuf ws ∧
    toWrites done = ws ++ toWrites [(st.secStart.toNat, pending)]

section
variable {st : State} {base : Nat} {done : List Block} {pending : List Ut8}

/-- Writing the section puts every block into the buffer. -/
theorem Reads.writeSection (h : Reads st base done pending) :
    ∃ rbuf, writeSection st = .ok { st with rbuf := rbuf } ∧ SparseRun rbuf (toWrites done) := by
  obtain ⟨ws, hrun, hws⟩ := h.run
  have hsize := h.size_eq
  have hsmall := h.small
  by_cases hnil : pending = []
  · refine ⟨st.rbuf, ?_, ?_⟩
    · have hzero : st.secSize = 0 := by
        apply BitVec.eq_of_toNat_eq
        rw [hsize, hnil]
        rfl
      rw [Ihex.writeSection, if_neg (by simp [hzero])]
    · rw [hws, hnil, toWrites_empty, List.append_nil]
      exact hrun
  · have hpos : 0 < pending.length := List.length_pos_iff.mpr hnil
    have hne : st.secSize ≠ 0 := by
      intro hzero
      rw [hzero] at hsize
      simp at hsize
      omega
    rw [toWrites_singleton _ hnil] at hws
    have hstart : st.secStart.setWidth 64 = BitVec.ofNat 64 st.secStart.toNat := by
      apply BitVec.eq_of_toNat_eq
      simp
    have hlt := st.secStart.isLt
    have hclear : Overlay.lastPatch nextAddr ws (BitVec.ofNat 64 st.secStart.toNat) = none := by
      apply Overlay.lastPatch_eq_none
      intro w hw
      have happart := toWrites_apart h.below h.disjoint
      rw [hws, List.pairwise_append] at happart
      obtain hnone | hnone := happart.2.2 w hw _ List.mem_cons_self (BitVec.ofNat 64 st.secStart.toNat)
      · exact hnone
      · rw [patch_nextAddr _ _ _ (by simp only []; omega), BitVec.sub_self] at hnone
        exact absurd (List.getElem?_eq_none_iff.mp hnone) (by simp; omega)
    obtain ⟨rbuf, hwrite, hrun'⟩ := hrun.write (BitVec.ofNat 64 st.secStart.toNat) pending hpos
      (by omega) (by rw [BitVec.toNat_ofNat]; omega) (writeFits_of_clear hrun hclear _)
    refine ⟨rbuf, ?_, by rw [hws]; exact hrun'⟩
    have hroom : st.secSize.toNat ≤ st.secTmp.length := by
      rw [hsize, h.tmp]
      omega
    rw [Ihex.writeSection, if_pos hne, if_pos hroom, hstart, hsize, h.bytes, hwrite]
    simp

variable {str next : CStr} {eol : Nat} {type cks : Ut8} {addr : BitVec 16} {payload : List Ut8}

theorem recordBody_getElem? {i : Nat} (hi : i < payload.length) (tail : List Ut8) :
    (recordBody type addr payload ++ tail)[4 + i]? = some payload[i] := by
  rw [List.getElem?_append_left (by simp [recordBody]; omega), recordBody,
    List.getElem?_append_right (by simp)]
  simp [hi]

theorem AtRecord.byte_eq {bytes : List Ut8} (h : AtRecord str eol next bytes) {k : Nat} {b : Ut8}
    (hb : bytes[k]? = some b) : scanByte str (some eol) (1 + 2 * k) = .ok b := by
  obtain ⟨hk, rfl⟩ := List.getElem?_eq_some_iff.mp hb
  exact h.byte k hk

/-- From byte `i` on, the loop puts the data behind what is there. -/
theorem readData_record (h : AtRecord str eol next (recordBody type addr payload ++ [cks]))
    (secSize : Nat) (left i : Nat) (hleft : i + left = payload.length) (tmp : List Ut8)
    (hroom : secSize + payload.length ≤ tmp.length) (cksum : Ut8) :
    readData str (some eol) secSize left i tmp cksum =
      .ok (tmp.take (secSize + i) ++ payload.drop i ++ tmp.drop (secSize + payload.length),
        cksum + (payload.drop i).sum) := by
  induction left generalizing i tmp cksum with
  | zero =>
    have hi : i = payload.length := by omega
    simp [readData, hi]
  | succ left ih =>
    have hi : i < payload.length := by omega
    have hbyte := h.byte_eq (recordBody_getElem? hi [cks])
    have hpos : 1 + 2 * (4 + i) = 9 + i * 2 := by omega
    rw [hpos] at hbyte
    have hdrop : payload.drop i = payload[i] :: payload.drop (i + 1) := List.drop_eq_getElem_cons hi
    have hlt : secSize + i < tmp.length := by omega
    have htake : (tmp.set (secSize + i) payload[i]).take (secSize + (i + 1)) =
        tmp.take (secSize + i) ++ [payload[i]] := by
      rw [← Nat.add_assoc, List.take_set, List.take_add_one, List.getElem?_eq_getElem hlt,
        Option.toList_some, List.set_append_right _ _ (by simp)]
      simp [List.length_take_of_le (by omega : secSize + i ≤ tmp.length)]
    have htail : (tmp.set (secSize + i) payload[i]).drop (secSize + payload.length) =
        tmp.drop (secSize + payload.length) := by
      apply List.drop_set_of_lt
      omega
    rw [readData, hbyte]
    change (if secSize + i < tmp.length then _ else _) = _
    rw [if_pos hlt, ih (i + 1) (by omega) _ (by simpa using hroom) _, htake, htail, hdrop, List.sum_cons,
      BitVec.add_assoc]
    simp

theorem recordBody_sum :
    (recordBody type addr payload).sum =
      headerSum (BitVec.ofNat 8 payload.length) addr type + payload.sum := by
  simp only [recordBody, headerSum, List.sum_append, List.sum_cons, List.sum_nil]
  ring

/-- The sum of a record with its checksum is zero. -/
theorem verifySum_record
    (h : AtRecord str eol next (recordBody type addr payload ++ [checksum (recordBody type addr payload)])) :
    verifySum str (some eol) (9 + payload.length * 2) (recordBody type addr payload).sum = .ok () := by
  have hlen : (recordBody type addr payload).length = 4 + payload.length := by
    simp [recordBody]
    omega
  have hlast : (recordBody type addr payload ++ [checksum (recordBody type addr payload)])[4 + payload.length]? =
      some (checksum (recordBody type addr payload)) := by
    rw [← hlen, List.getElem?_concat_length]
  have hbyte := h.byte_eq hlast
  have hpos : 1 + 2 * (4 + payload.length) = 9 + payload.length * 2 := by omega
  rw [hpos] at hbyte
  simp [verifySum, hbyte, checksum, bind, Except.bind]

/-- A section that has a byte counts as full. -/
theorem sectionFull_of_ne {secSize : Ut32} (hne : secSize ≠ 0) (bc : Ut8) :
    sectionFull secSize bc = true := by
  have hnonzero : decide (secSize ≠ 0) = true := decide_eq_true hne
  simp only [sectionFull, hnonzero, ite_self]

/-- Before the data are read, the section that is pending is written or there is none. -/
theorem Reads.openSection (h : Reads st base done pending) (addr : BitVec 16) (bc : Ut8) :
    ∃ rbuf, Ihex.openSection st bc addr = .ok { st with
        secStart := st.segreg + addr.setWidth 32, nextAddr := addr, secSize := 0, rbuf := rbuf } ∧
      SparseRun rbuf (toWrites done) := by
  rw [Ihex.openSection]
  split_ifs with hflush
  · obtain ⟨rbuf, hwrite, hrun⟩ := h.writeSection
    refine ⟨rbuf, ?_, hrun⟩
    rw [hwrite]
    rfl
  · rw [not_or, not_not] at hflush
    obtain ⟨hnext, hfull⟩ := hflush
    have hzero : st.secSize = 0 := by
      by_contra hne
      exact hfull (sectionFull_of_ne hne bc)
    have hnil : pending = [] := by
      have hsize := h.size_eq
      rw [hzero] at hsize
      exact List.eq_nil_of_length_eq_zero hsize.symm
    obtain ⟨ws, hrun, hws⟩ := h.run
    have hstart := h.start hnil
    refine ⟨st.rbuf, ?_, ?_⟩
    · rw [← hnext, ← hstart, ← hzero]
    · rw [hws, hnil, toWrites_empty, List.append_nil]
      exact hrun

theorem dataRecord_reads (h : Reads st base done pending)
    (hat : AtRecord str eol next (recordBody 0 addr payload ++ [checksum (recordBody 0 addr payload)]))
    (hlen : payload.length ≤ 255) (hend : addr.toNat + payload.length ≤ 65536)
    (hdisj : DisjointBlocks (done ++ [(base + addr.toNat, payload)])) :
    ∃ st', dataRecord st str (BitVec.ofNat 8 payload.length) addr = .ok (st', some next) ∧
      Reads st' base (done ++ [(base + addr.toNat, payload)]) payload := by
  obtain ⟨rbuf, hopen, hrun⟩ := h.openSection addr (BitVec.ofNat 8 payload.length)
  have hbc : (BitVec.ofNat 8 payload.length).toNat = payload.length := by
    rw [BitVec.toNat_ofNat]
    omega
  have htmp := h.tmp
  have hdata := readData_record hat 0 payload.length 0 (by omega) st.secTmp (by omega)
    (headerSum (BitVec.ofNat 8 payload.length) addr 0)
  simp only [Nat.add_zero, Nat.zero_add, List.take_zero, List.drop_zero, List.nil_append] at hdata
  have hsum := verifySum_record hat
  rw [recordBody_sum] at hsum
  have hbase := h.base_le
  have haddr := addr.isLt
  have hstart : (st.segreg + addr.setWidth 32).toNat = base + addr.toNat := by
    rw [BitVec.toNat_add, h.base_eq, BitVec.toNat_setWidth]
    omega
  refine ⟨⟨payload ++ st.secTmp.drop payload.length, st.segreg + addr.setWidth 32, st.segreg,
    addr + (BitVec.ofNat 8 payload.length).setWidth 16,
    0 + (BitVec.ofNat 8 payload.length).setWidth 32, rbuf⟩, ?_, ?_⟩
  · rw [dataRecord, hat.ends]
    simp only [bind, Except.bind]
    rw [hopen]
    simp only [hbc]
    have hzero : (0 : Ut32).toNat = 0 := rfl
    rw [hzero, hdata]
    simp only []
    rw [hsum, Option.map_some, hat.rest]
  · constructor
    · simp
      omega
    · simp [hbc]
      omega
    · exact hlen
    · simp
    · exact h.base_eq
    · exact hbase
    · intro hnil
      simp [hnil]
    · intro b hb
      obtain hb | hb := List.mem_append.mp hb
      · exact h.below b hb
      · rw [List.mem_singleton.mp hb]
        simp only []
        omega
    · exact hdisj
    · refine ⟨toWrites done, hrun, ?_⟩
      rw [toWrites_append, hstart]

theorem baseRecord_reads (h : Reads st base done pending) {b : BitVec 16}
    (hat : AtRecord str eol next (recordBody type 0 [(b >>> 8).setWidth 8, b.setWidth 8] ++
      [checksum (recordBody type 0 [(b >>> 8).setWidth 8, b.setWidth 8])])) :
    ∃ st', baseRecord st str 2 0 type = .ok (st', some next) ∧
      Reads st' (b.toNat * 2 ^ (if type = 2 then 4 else 16)) done [] := by
  obtain ⟨rbuf, hwrite, hrun⟩ := h.writeSection
  have hH : scanByte str (some eol) 9 = .ok ((b >>> 8).setWidth 8) :=
    hat.byte_eq (recordBody_getElem? (i := 0) (by simp) _)
  have hL : scanByte str (some eol) 11 = .ok (b.setWidth 8) :=
    hat.byte_eq (recordBody_getElem? (i := 1) (by simp) _)
  have hsum := verifySum_record hat
  have hcks : (recordBody type 0 [(b >>> 8).setWidth 8, b.setWidth 8]).sum =
      headerSum 2 0 type + (b >>> 8).setWidth 8 + b.setWidth 8 := by
    rw [recordBody_sum]
    simp [BitVec.add_assoc]
  rw [hcks] at hsum
  have hb := b.isLt
  refine ⟨⟨st.secTmp, (b.setWidth 32) <<< (if type = 2 then 4 else 16),
    (b.setWidth 32) <<< (if type = 2 then 4 else 16), 0, 0, rbuf⟩, ?_, ?_⟩
  · rw [baseRecord, hwrite, hat.ends]
    simp only [bind, Except.bind]
    rw [if_neg (by simp), hH]
    simp only []
    rw [hL]
    simp only []
    have hpos : 9 + [(b >>> 8).setWidth 8, b.setWidth 8].length * 2 = 13 := rfl
    rw [hpos] at hsum
    rw [hsum, halves_append, Option.map_some, hat.rest]
  · have hshift : ((b.setWidth 32) <<< (if type = 2 then 4 else 16)).toNat =
        b.toNat * 2 ^ (if type = 2 then 4 else 16) := by
      rw [BitVec.toNat_shiftLeft, BitVec.toNat_setWidth, Nat.shiftLeft_eq]
      split_ifs <;> omega
    constructor
    · exact h.tmp
    · rfl
    · simp
    · simp
    · exact hshift
    · split_ifs <;> omega
    · simp
    · exact h.below
    · exact h.disjoint
    · refine ⟨toWrites done, hrun, ?_⟩
      rw [toWrites_empty, List.append_nil]

/-- A record leaves what it says of the base and the blocks. -/
theorem parseRecord_reads (h : Reads st base done pending) {r : Rec} (hr : r.WellFormed)
    {digits gap : CStr} (hdigits : HexText digits (r.body ++ [checksum r.body])) (hgap : ':' ∉ gap)
    (next : CStr) (rs : List Rec) (hdisj : DisjointBlocks (done ++ blocks base (r :: rs))) :
    ∃ st' base' done' pending',
      parseRecord st (':' :: (digits ++ gap) ++ ':' :: next) = .ok (st', some (':' :: next)) ∧
      Reads st' base' done' pending' ∧
      done' ++ blocks base' rs = done ++ blocks base (r :: rs) := by
  have hat : AtRecord _ _ (':' :: next) _ := atRecord hdigits hgap
  have hheader := scanHeader_record hdigits (gap ++ ':' :: next)
  rw [← List.append_assoc, ← List.cons_append] at hheader
  rw [parseRecord, hheader]
  cases r with
  | data addr bytes =>
    obtain ⟨hlen, hend⟩ := hr
    have happend : done ++ blocks base (.data addr bytes :: rs) =
        done ++ [(base + addr.toNat, bytes)] ++ blocks base rs := by
      simp [blocks]
    rw [happend] at hdisj ⊢
    obtain ⟨st', hrecord, hreads⟩ := dataRecord_reads h hat hlen hend
      (hdisj.sublist (List.sublist_append_left _ _))
    exact ⟨st', base, _, bytes, hrecord, hreads, rfl⟩
  | segment b =>
    obtain ⟨st', hrecord, hreads⟩ := baseRecord_reads h hat
    exact ⟨st', _, done, [], hrecord, hreads, rfl⟩
  | linear b =>
    obtain ⟨st', hrecord, hreads⟩ := baseRecord_reads h hat
    exact ⟨st', _, done, [], hrecord, hreads, rfl⟩
  | start linear addr bytes =>
    refine ⟨st, base, done, pending, ?_, h, rfl⟩
    have hnext : (findEol (':' :: (digits ++ gap) ++ ':' :: next)).map
        (fun k => (':' :: (digits ++ gap) ++ ':' :: next).drop k) = some (':' :: next) := by
      rw [hat.ends, Option.map_some, hat.rest]
    simp only []
    rw [if_neg (by cases linear <;> simp [Rec.type]), if_neg (by cases linear <;> simp [Rec.type]),
      if_neg (by cases linear <;> simp [Rec.type]), if_pos (by cases linear <;> simp [Rec.type]), hnext]

/-- The end record writes the last section. -/
theorem parseRecord_eof (h : Reads st base done pending) {digits : CStr}
    (hdigits : HexText digits (recordBody 1 0 [] ++ [checksum (recordBody 1 0 [])])) (rest : CStr) :
    ∃ st', parseRecord st (':' :: (digits ++ rest)) = .ok (st', none) ∧
      SparseRun st'.rbuf (toWrites done) := by
  obtain ⟨rbuf, hwrite, hrun⟩ := h.writeSection
  refine ⟨{ st with rbuf := rbuf }, ?_, hrun⟩
  rw [parseRecord, scanHeader_record hdigits rest]
  simp only [hwrite]
  rfl

theorem RecordsText.cons_colon {rs : List Rec} {text : CStr} (h : RecordsText rs text) :
    ∃ next, text = ':' :: next := by
  cases h with
  | eof h => exact ⟨_, rfl⟩
  | cons head tail =>
    obtain ⟨digits, gap, rfl, -, -⟩ := head
    exact ⟨_, rfl⟩

/-- From any state between two records on, the loop puts the blocks that are left into the buffer. -/
theorem parseLoop_reads (rs : List Rec) (hrs : ∀ r ∈ rs, r.WellFormed) {text : CStr}
    (htext : RecordsText rs text) (h : Reads st base done pending)
    (hdisj : DisjointBlocks (done ++ blocks base rs)) {turns : Nat} (hturns : text.length < turns) :
    ∃ rbuf, parseLoop turns st text = .ok rbuf ∧ SparseRun rbuf (toWrites (done ++ blocks base rs)) ∧
      Below (done ++ blocks base rs) := by
  induction htext generalizing st base done pending turns with
  | @eof digits rest hdigits =>
    obtain ⟨turns, rfl⟩ := Nat.exists_eq_add_of_le' (by omega : 1 ≤ turns)
    obtain ⟨st', hrecord, hrun⟩ := parseRecord_eof h hdigits rest
    refine ⟨st'.rbuf, ?_, by simpa [blocks] using hrun, by simpa [blocks] using h.below⟩
    simp [parseLoop, hrecord, bind, Except.bind]
  | cons head tail ih =>
    rename_i r rs text texts
    obtain ⟨turns, rfl⟩ := Nat.exists_eq_add_of_le' (by omega : 1 ≤ turns)
    obtain ⟨next, rfl⟩ := tail.cons_colon
    obtain ⟨digits, gap, rfl, hdigits, hgap⟩ := head
    obtain ⟨st', base', done', pending', hrecord, hreads, hblocks⟩ :=
      parseRecord_reads h (hrs r (by simp)) hdigits hgap next rs hdisj
    rw [← hblocks] at hdisj ⊢
    obtain ⟨rbuf, hloop, hrun⟩ := ih (fun r hr => hrs r (by simp [hr])) hreads hdisj
      (by simp at hturns ⊢; omega : (':' :: next).length < turns)
    refine ⟨rbuf, ?_, hrun⟩
    simp only [parseLoop, hrecord, bind, Except.bind]
    exact hloop

end

theorem reads_init :
    Reads ⟨List.replicate 0xffff 0, 0, 0, 0, 0, rBufNewSparse⟩ 0 [] [] := by
  constructor
  · exact List.length_replicate
  · rfl
  · simp
  · simp
  · rfl
  · omega
  · simp
  · simp [Below]
  · exact List.Pairwise.nil
  · exact ⟨[], ⟨by simp [rBufNewSparse], fun _ => rfl, rfl⟩, rfl⟩

/-- The parser fills the buffer with the blocks of the records. -/
theorem ihexParse_blocks (rs : List Rec) (hrs : ∀ r ∈ rs, r.WellFormed) (text : CStr)
    (htext : RecordsText rs text) (hdisj : DisjointBlocks (blocks 0 rs)) :
    ∃ rbuf, ihexParse rBufNewSparse text = .ok rbuf ∧ SparseRun rbuf (toWrites (blocks 0 rs)) ∧
      Below (blocks 0 rs) := by
  have h := parseLoop_reads rs hrs htext reads_init hdisj (Nat.lt_succ_self text.length)
  rw [List.nil_append] at h
  exact h

/-- A read of one byte, at an address that does not stand for the cursor. -/
theorem SparseRun.read_byte {b : RBuffer} {ws : List (Ut64 × List Ut8)} (h : SparseRun b ws)
    {addr : Ut64} (haddr : addr ≠ ut64Max) (z : Ut8) :
    rBufReadAt b addr [z] = some (1, [(Overlay.lastPatch nextAddr ws addr).getD 0xff]) := by
  have hlt := addr.isLt
  have hmax : addr.toNat ≠ 18446744073709551615 := fun heq => haddr ((eq_ut64Max_iff addr).mpr heq)
  obtain ⟨out, hread, hlen, hbyte⟩ := h.reads addr [z] (by simp) (by simp; omega) (by
    intro c hc hover
    have hle : c.fromAddr ≤ addr := by simpa using hover.2.1
    exact absurd hover.1 (BitVec.not_lt.mpr hle))
  have hzero := hbyte 0 (by simp)
  rw [BitVec.add_zero] at hzero
  obtain ⟨c, rfl⟩ := List.length_eq_one_iff.mp hlen
  simp at hzero
  rw [hread, hzero]
  rfl

theorem SparseRun.read_block {rbuf : RBuffer} {bs : List Block} (h : SparseRun rbuf (toWrites bs))
    (hbelow : Below bs) (hdisj : DisjointBlocks bs) {b : Block} (hb : b ∈ bs) {i : Nat}
    (hi : i < b.2.length) (z : Ut8) :
    rBufReadAt rbuf (BitVec.ofNat 64 (b.1 + i)) [z] = some (1, [b.2[i]]) := by
  have hle := hbelow b hb
  have haddr : BitVec.ofNat 64 (b.1 + i) ≠ ut64Max := by
    rw [Ne, eq_ut64Max_iff, BitVec.toNat_ofNat]
    omega
  rw [SparseRun.read_byte h haddr, lastPatch_toWrites_eq_some hbelow hdisj hb hi, Option.getD_some]

theorem SparseRun.read_clear {rbuf : RBuffer} {bs : List Block} (h : SparseRun rbuf (toWrites bs))
    (hbelow : Below bs) {addr : Ut64} (haddr : addr ≠ ut64Max)
    (hclear : ∀ b ∈ bs, ¬b.Covers addr.toNat) (z : Ut8) :
    rBufReadAt rbuf addr [z] = some (1, [0xff]) := by
  rw [SparseRun.read_byte h haddr, lastPatch_toWrites_eq_none hbelow hclear, Option.getD_none]

/-- A text of records that do not meet is accepted, without a step outside of the section buffer,
and the buffer reads the byte of the record that covers an address, or `0xff`. The greatest address
stands for the cursor of the buffer. -/
theorem ihex_parse_records (rs : List Rec) (hrs : ∀ r ∈ rs, r.WellFormed) (text : CStr)
    (htext : RecordsText rs text) (hdisj : DisjointBlocks (blocks 0 rs)) :
    ∃ rbuf, ihexParse rBufNewSparse text = .ok rbuf ∧
      (∀ b ∈ blocks 0 rs, ∀ (i : Nat) (hi : i < b.2.length) (z : Ut8),
        rBufReadAt rbuf (BitVec.ofNat 64 (b.1 + i)) [z] = some (1, [b.2[i]])) ∧
      ∀ addr ≠ ut64Max, (∀ b ∈ blocks 0 rs, ¬b.Covers addr.toNat) → ∀ z,
        rBufReadAt rbuf addr [z] = some (1, [0xff]) := by
  obtain ⟨rbuf, hparse, hrun, hbelow⟩ := ihexParse_blocks rs hrs text htext hdisj
  refine ⟨rbuf, hparse, ?_, ?_⟩
  · intro b hb i hi z
    exact SparseRun.read_block hrun hbelow hdisj hb hi z
  · intro addr haddr hclear z
    exact SparseRun.read_clear hrun hbelow haddr hclear z

/-- Two bytes in the first segment, a new base, and a byte above it. -/
def threeRecords : List Rec := [.data 16 [0x55, 0x66], .linear 0x800, .data 0 [0x77]]

def threeRecordsText : CStr :=
  [':'] ++ printBytes false [2, 0, 16, 0, 0x55, 0x66, 0x33] ++ ['\n'] ++
  ([':'] ++ printBytes true [2, 0, 0, 4, 8, 0, 0xf2] ++ ['\n'] ++
  ([':'] ++ printBytes false [1, 0, 0, 0, 0x77, 0x88] ++ ['\r', '\n'] ++
  ([':'] ++ printBytes true [0, 0, 0, 1, 0xff] ++ ['\n'])))

theorem threeRecords_text : RecordsText threeRecords threeRecordsText := by
  apply RecordsText.cons ⟨_, ['\n'], rfl, hexText_printBytes false _, by decide⟩
  apply RecordsText.cons ⟨_, ['\n'], rfl, hexText_printBytes true _, by decide⟩
  apply RecordsText.cons ⟨_, ['\r', '\n'], rfl, hexText_printBytes false _, by decide⟩
  exact RecordsText.eof (hexText_printBytes true _)

theorem ihex_parse_records_three :
    ∃ rbuf, ihexParse rBufNewSparse threeRecordsText = .ok rbuf ∧
      rBufReadAt rbuf 17 [0] = some (1, [0x66]) ∧ rBufReadAt rbuf 0x8000000 [0] = some (1, [0x77]) ∧
      rBufReadAt rbuf 18 [0] = some (1, [0xff]) := by
  obtain ⟨rbuf, hparse, hbytes, hclear⟩ := ihex_parse_records threeRecords (by
    intro r hr
    simp only [threeRecords, List.mem_cons, List.not_mem_nil, or_false] at hr
    obtain rfl | rfl | rfl := hr <;> simp [Rec.WellFormed]) threeRecordsText threeRecords_text (by
    simp [DisjointBlocks, blocks, threeRecords, Block.Covers]
    omega)
  refine ⟨rbuf, hparse, ?_, ?_, ?_⟩
  · exact hbytes (16, [0x55, 0x66]) (by decide) 1 (by decide) 0
  · exact hbytes (0x8000000, [0x77]) (by decide) 0 (by decide) 0
  · apply hclear 18 (by decide)
    simp [blocks, threeRecords, Block.Covers]

end Radare.Ihex
