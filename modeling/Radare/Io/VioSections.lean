import Mathlib.Data.List.Chain
import Radare.Io.VioProof

namespace Radare

def RIOSection.start (s : RIOSection) : Nat := s.vaddr.toNat

def RIOSection.stop (s : RIOSection) : Nat := s.vaddr.toNat + s.vsize.toNat

/-- A mapped section of the descriptor, all of it in the map. -/
structure SectionOk (fd : Int) (m : RIOMap) (s : RIOSection) : Prop where
  mapped : s.isMapped = true
  nonzero : s.vaddr ≠ 0
  sizes : s.vsize = s.size
  fd : s.fd = fd
  room : s.stop < 18446744073709551616
  first : m.fromAddr.toNat ≤ s.offset.toNat
  last : s.offset.toNat + s.size.toNat ≤ m.toAddr.toNat

/-- Sections listed by address, none over another, all on one descriptor under one of its maps. -/
structure VreadLayout (io : RIO) (fd : Int) (m : RIOMap) (content : List Ut8) : Prop where
  file : HasFile io fd content
  current : io.curDesc.isSome = true
  unbuffered : io.bufferEnabled = false
  sections : ∀ s ∈ io.sections, SectionOk fd m s
  sorted : io.sections.Pairwise (fun s t => s.stop ≤ t.start)
  map : m ∈ io.maps ∧ m.fd = fd
  places : m.delta.toNat + (m.toAddr.toNat - m.fromAddr.toNat) < 18446744073709551616

/-- The descriptor's byte for an address in a section. -/
def sectionByte (content : List Ut8) (m : RIOMap) (s : RIOSection) (x : Nat) : Ut8 :=
  content[mapPlace m (s.offset.toNat + (x - s.start))]?.getD 0xff

/-- The map address of the first byte that is read of a section. -/
def vreadFirst (vaddr : Ut64) (s : RIOSection) : Ut64 :=
  (if vaddr < s.vaddr then s.vaddr else vaddr) - s.vaddr + s.offset

/-- How many bytes are read of a section. -/
def vreadCount (vaddr : Ut64) (len : Nat) (s : RIOSection) : Nat :=
  min (vaddr.toNat + len) s.stop - max vaddr.toNat s.start

/-- What is read of a section is looked for in a map that holds it and has the same place in the file for it as the
covering one, and this place is no address that a section moves. -/
structure PartRight (io : RIO) (m : RIOMap) (vaddr : Ut64) (len : Nat) (s : RIOSection) : Prop where
  resolved : ∃ found, (rIoMapResolveInRange io (vreadFirst vaddr s)
    (vreadFirst vaddr s + BitVec.ofNat 64 (vreadCount vaddr len s)) s.fd).or (rIoMapResolve io s.fd) = some found ∧
    MapHolds found (vreadFirst vaddr s) (vreadCount vaddr len s) ∧
    vreadFirst vaddr s - found.fromAddr + found.delta = vreadFirst vaddr s - m.fromAddr + m.delta
  placed : seekTarget io (vreadFirst vaddr s - m.fromAddr + m.delta) = vreadFirst vaddr s - m.fromAddr + m.delta
  below : vreadFirst vaddr s - m.fromAddr + m.delta ≠ ut64Max

/-- There is no gap between two listed sections, unless nothing is read of the first one. -/
def Joined (vaddr : Ut64) (s t : RIOSection) : Prop := s = t ∨ t.start = s.stop ∨ s.stop = vaddr.toNat

structure VreadWhole (io : RIO) (m : RIOMap) (vaddr : Ut64) (len : Nat) : Prop where
  joined : (rIoSectionGetInVaddrRange io vaddr (vaddr + BitVec.ofNat 64 len)).IsChain (Joined vaddr)
  parts : ∀ s ∈ io.sections, 0 < vreadCount vaddr len s → PartRight io m vaddr len s

section Listed

variable {io : RIO} {fd : Int} {m : RIOMap} {s : RIOSection} {vaddr : Ut64} {len : Nat}

theorem SectionOk.toNat_stop (h : SectionOk fd m s) : (s.vaddr + s.vsize).toNat = s.stop := by
  have hroom := h.room
  rw [RIOSection.stop] at hroom ⊢
  rw [BitVec.toNat_add]
  omega

theorem mem_listed {α : Type} {x y : α} {lo hi addr endaddr : Ut64} :
    y ∈ listed x lo hi addr endaddr ↔ y = x ∧ (lo ≤ addr ∧ addr < hi ∨ lo < endaddr ∧ endaddr < hi ∨
      addr ≤ lo ∧ hi ≤ endaddr) := by
  have hone : ∀ (p : Prop) [Decidable p], y ∈ (if p then [x] else []) ↔ y = x ∧ p := by
    intro p _
    by_cases hp : p
    · simp [hp]
    · simp [hp]
  simp only [listed, List.mem_append, hone]
  tauto

/-- The sections that are listed meet the range. -/
theorem listed_bounds (hok : ∀ s ∈ io.sections, SectionOk fd m s)
    (hlen : vaddr.toNat + len < 18446744073709551616)
    (hs : s ∈ rIoSectionGetInVaddrRange io vaddr (vaddr + BitVec.ofNat 64 len)) :
    s ∈ io.sections ∧ s.start ≤ vaddr.toNat + len ∧ vaddr.toNat ≤ s.stop := by
  obtain ⟨x, hx, hlisted⟩ := List.mem_flatMap.mp hs
  have hend := toNat_add_ofNat hlen
  rw [if_pos (hok x hx).mapped, mem_listed] at hlisted
  obtain ⟨rfl, hcases⟩ := hlisted
  have hstop := (hok s hx).toNat_stop
  simp only [BitVec.le_def, BitVec.lt_def, hend, hstop] at hcases
  refine ⟨hx, ?_⟩
  have hle : s.vaddr.toNat ≤ s.stop := by
    rw [RIOSection.stop]
    omega
  rw [RIOSection.start]
  omega

/-- Every section with a byte in the range is listed. -/
theorem listed_complete (hok : ∀ s ∈ io.sections, SectionOk fd m s)
    (hlen : vaddr.toNat + len < 18446744073709551616) (hs : s ∈ io.sections) {i : Nat} (hi : i < len)
    (hstart : s.start ≤ vaddr.toNat + i) (hstop : vaddr.toNat + i < s.stop) :
    s ∈ rIoSectionGetInVaddrRange io vaddr (vaddr + BitVec.ofNat 64 len) := by
  have hend := toNat_add_ofNat hlen
  apply List.mem_flatMap_of_mem hs
  rw [if_pos (hok s hs).mapped, mem_listed]
  refine ⟨by simp, ?_⟩
  simp only [BitVec.le_def, BitVec.lt_def, hend, (hok s hs).toNat_stop]
  rw [RIOSection.start] at hstart
  omega

end Listed

/-- Between two sections: `done` were read, and the cursor stands behind the last of them. -/
structure VreadAt (io : RIO) (m : RIOMap) (content : List Ut8) (vaddr : Ut64) (len : Nat)
    (done : List RIOSection) (st : VreadState) : Prop where
  seeked : Seeked io st.io
  length : st.buf.length = len
  low : vaddr.toNat ≤ st.tmpVaddr.toNat
  high : st.tmpVaddr.toNat ≤ vaddr.toNat + len
  tmpLen : st.tmpLen = ((vaddr.toNat + len - st.tmpVaddr.toNat : Nat) : Int)
  tmpBuf : st.tmpBuf.toNat = st.tmpVaddr.toNat - vaddr.toNat
  behind : ∀ s ∈ done, min (vaddr.toNat + len) s.stop ≤ st.tmpVaddr.toNat
  right : ∀ s ∈ done, ∀ i < len, s.start ≤ vaddr.toNat + i → vaddr.toNat + i < s.stop →
    st.buf[i]? = some (sectionByte content m s (vaddr.toNat + i))
  ranges : ∀ r ∈ st.ranges, r.1 = vaddr ∧ vaddr.toNat < r.2.toNat ∧ r.2.toNat ≤ vaddr.toNat + len ∧
    ∀ s ∈ done, r.2.toNat ≤ s.start ∨ min (vaddr.toNat + len) s.stop ≤ vaddr.toNat

structure VreadDone (io : RIO) (m : RIOMap) (content : List Ut8) (vaddr : Ut64) (len : Nat)
    (done : List RIOSection) (st : VreadState) : Prop extends VreadAt io m content vaddr len done st where
  untouched : (∀ l, done.getLast? = some l → l.stop = vaddr.toNat) → st.tmpVaddr = vaddr ∧ st.ranges = []
  last : ∀ l, done.getLast? = some l → st.tmpVaddr.toNat = min (vaddr.toNat + len) l.stop

/-- In front of the part of a section. -/
structure VreadReady (io : RIO) (m : RIOMap) (content : List Ut8) (vaddr : Ut64) (len : Nat)
    (done : List RIOSection) (s : RIOSection) (st : VreadState) : Prop
    extends VreadAt io m content vaddr len done st where
  start : s.start ≤ st.tmpVaddr.toNat
  stop : st.tmpVaddr.toNat ≤ s.stop
  fresh : st.tmpVaddr.toNat = max vaddr.toNat s.start ∨ s ∈ done ∧ min (vaddr.toNat + len) s.stop ≤ st.tmpVaddr.toNat
  before : ∀ r ∈ st.ranges, r.2.toNat ≤ s.start

section Step

variable {io : RIO} {fd : Int} {m : RIOMap} {content : List Ut8} {vaddr : Ut64} {len : Nat}
  {done : List RIOSection} {s : RIOSection} {st : VreadState}

/-- As long as nothing was read there may be a gap. -/
theorem VreadDone.gap_first (h : VreadDone io m content vaddr len done st) (hlen : len < 2147483648)
    (hnone : ∀ l, done.getLast? = some l → l.stop = vaddr.toNat) (hlow : s.start ≤ vaddr.toNat + len)
    (hhigh : vaddr.toNat ≤ s.stop) : VreadReady io m content vaddr len done s (vreadGap vaddr st s) := by
  have hstart : s.start = s.vaddr.toNat := by rw [RIOSection.start]
  have hle : s.start ≤ s.stop := by
    rw [RIOSection.start, RIOSection.stop]
    omega
  obtain ⟨hv, hr⟩ := h.untouched hnone
  have htmp := h.tmpLen
  have hbehind := h.behind
  rw [hv] at htmp hbehind
  by_cases hgap : s.vaddr > st.tmpVaddr
  · have hlt : vaddr.toNat < s.start := by
      rw [gt_iff_lt, BitVec.lt_def, hv] at hgap
      omega
    have hsub : (s.vaddr - vaddr).toNat = s.start - vaddr.toNat := by
      rw [BitVec.toNat_sub_of_le (by rw [BitVec.le_def]; omega), hstart]
    have hbuf := h.tmpBuf
    rw [hv] at hbuf
    rw [vreadGap, if_pos hgap]
    refine ⟨⟨h.seeked, h.length, ?_, ?_, ?_, ?_, ?_, h.right, ?_⟩, ?_, ?_, ?_, ?_⟩
    · simp only
      omega
    · simp only
      omega
    · have hnat : (BitVec.ofInt 64 st.tmpLen).toNat = len := by
        rw [htmp, BitVec.ofInt_natCast, BitVec.toNat_ofNat]
        omega
      simp only
      apply wrapInt_sub
      · omega
      · omega
      · omega
    · rw [BitVec.toNat_add, hsub, hbuf]
      simp only
      omega
    · intro x hx
      have := hbehind x hx
      simp only
      omega
    · intro r hmem
      rw [hr, List.nil_append, List.mem_singleton] at hmem
      rw [hmem, hv]
      exact ⟨by simp, by simp only; omega, by simp only; omega, fun x hx => Or.inr (hbehind x hx)⟩
    · simp only
      omega
    · simp only
      omega
    · left
      simp only
      omega
    · intro r hmem
      rw [hr, List.nil_append, List.mem_singleton] at hmem
      rw [hmem]
      simp only
      omega
  · have hge : s.start ≤ vaddr.toNat := by
      rw [gt_iff_lt, BitVec.lt_def, hv] at hgap
      omega
    rw [vreadGap, if_neg hgap]
    refine ⟨h.toVreadAt, ?_, ?_, ?_, ?_⟩
    · rw [hv]
      exact hge
    · rw [hv]
      exact hhigh
    · left
      rw [hv]
      omega
    · rw [hr]
      exact nofun

/-- Behind a section that was read the next one follows at once. -/
theorem VreadDone.gap_next (h : VreadDone io m content vaddr len done st) {l : RIOSection}
    (hlast : done.getLast? = some l) (hjoin : l = s ∨ s.start = l.stop) (hread : l.stop ≠ vaddr.toNat)
    (hlow : s.start ≤ vaddr.toNat + len) (hhigh : vaddr.toNat ≤ l.stop) :
    VreadReady io m content vaddr len done s (vreadGap vaddr st s) := by
  have hstart : s.start = s.vaddr.toNat := by rw [RIOSection.start]
  have hle : s.start ≤ s.stop := by
    rw [RIOSection.start, RIOSection.stop]
    omega
  have hll : l.start ≤ l.stop := by
    rw [RIOSection.start, RIOSection.stop]
    omega
  have hl : l ∈ done := List.mem_of_getLast? hlast
  have htmp := h.last l hlast
  have hlowT := h.low
  have hranges : ∀ r ∈ st.ranges, r.2.toNat ≤ l.start := by
    intro r hr
    obtain ⟨-, hlt, hrle, hbefore⟩ := h.ranges r hr
    rcases hbefore l hl with hb | hb
    · exact hb
    · omega
  have hge : s.start ≤ st.tmpVaddr.toNat := by
    rcases hjoin with heq | hjoin
    · rw [heq] at htmp
      omega
    · omega
  have hgap : ¬s.vaddr > st.tmpVaddr := by
    rw [gt_iff_lt, BitVec.lt_def]
    omega
  rw [vreadGap, if_neg hgap]
  refine ⟨h.toVreadAt, hge, ?_, ?_, ?_⟩
  · rcases hjoin with heq | hjoin
    · rw [heq] at htmp
      omega
    · omega
  · rcases hjoin with heq | hjoin
    · rw [heq] at hl htmp
      exact Or.inr ⟨hl, by omega⟩
    · exact Or.inl (by omega)
  · intro r hr
    have hrl := hranges r hr
    rcases hjoin with heq | hjoin
    · rw [heq] at hrl
      exact hrl
    · omega

theorem VreadDone.gap (h : VreadDone io m content vaddr len done st) (hlen : len < 2147483648)
    (hnext : ∀ l, done.getLast? = some l → Joined vaddr l s ∧ vaddr.toNat ≤ l.stop)
    (hlow : s.start ≤ vaddr.toNat + len) (hhigh : vaddr.toNat ≤ s.stop) :
    VreadReady io m content vaddr len done s (vreadGap vaddr st s) := by
  by_cases hnone : ∀ l, done.getLast? = some l → l.stop = vaddr.toNat
  · exact h.gap_first hlen hnone hlow hhigh
  · push Not at hnone
    obtain ⟨l, hlast, hread⟩ := hnone
    obtain ⟨hjoined, hlstop⟩ := hnext l hlast
    rcases hjoined with heq | hjoin | hstop
    · exact h.gap_next hlast (Or.inl heq) hread hlow hlstop
    · exact h.gap_next hlast (Or.inr hjoin) hread hlow hlstop
    · exact absurd hstop hread

theorem VreadReady.end_eq (h : VreadReady io m content vaddr len done s st) (hok : SectionOk fd m s)
    (hlen : vaddr.toNat + len < 18446744073709551616) :
    (vreadEnd st s).toNat = min (vaddr.toNat + len) s.stop := by
  have hhigh := h.high
  have hstop := h.stop
  have hadd : (st.tmpVaddr + BitVec.ofInt 64 st.tmpLen).toNat = vaddr.toNat + len := by
    rw [h.tmpLen, BitVec.ofInt_natCast, toNat_add_ofNat (by omega)]
    omega
  rw [vreadEnd]
  simp only [gt_iff_lt, BitVec.lt_def, hadd, hok.toNat_stop]
  split
  · rw [hok.toNat_stop]
    omega
  · rw [hadd]
    omega

/-- The map address that the part starts at. -/
theorem VreadReady.maddr (h : VreadReady io m content vaddr len done s st) (hok : SectionOk fd m s) :
    (st.tmpVaddr - s.vaddr + s.offset).toNat = s.offset.toNat + (st.tmpVaddr.toNat - s.start) := by
  have hstart := h.start
  have hstop := h.stop
  have hlast := hok.last
  have hsizes := hok.sizes
  have hlt := m.toAddr.isLt
  rw [RIOSection.start] at hstart
  rw [RIOSection.stop, hsizes] at hstop
  have hsub : (st.tmpVaddr - s.vaddr).toNat = st.tmpVaddr.toNat - s.vaddr.toNat :=
    BitVec.toNat_sub_of_le (by rw [BitVec.le_def]; exact hstart)
  rw [BitVec.toNat_add, hsub, RIOSection.start]
  omega

/-- All that is left of the read, or of the section, is asked for. -/
theorem VreadReady.size_eq (h : VreadReady io m content vaddr len done s st) (hok : SectionOk fd m s)
    (hlen : vaddr.toNat + len < 18446744073709551616) (hint : len < 2147483648) :
    vreadSize st s = some ((min (vaddr.toNat + len) s.stop - st.tmpVaddr.toNat : Nat) : Int) := by
  have hend := h.end_eq hok hlen
  have hmaddr := h.maddr hok
  have hstart := h.start
  have hstop := h.stop
  have hlow := h.low
  have hhigh := h.high
  have hlast := hok.last
  have hsizes := congrArg BitVec.toNat hok.sizes
  have hlt := m.toAddr.isLt
  have hsv : s.start = s.vaddr.toNat := by rw [RIOSection.start]
  have hsp : s.stop = s.vaddr.toNat + s.vsize.toNat := by rw [RIOSection.stop]
  have htop : (s.offset + s.size).toNat = s.offset.toNat + s.size.toNat := by
    rw [BitVec.toNat_add]
    omega
  have hsub : (vreadEnd st s - s.vaddr).toNat = (vreadEnd st s).toNat - s.vaddr.toNat :=
    BitVec.toNat_sub_of_le (by rw [BitVec.le_def, hend]; omega)
  have hfits : (vreadEnd st s - s.vaddr + s.offset).toNat ≤ s.offset.toNat + s.size.toNat := by
    rw [BitVec.toNat_add, hsub, hend]
    omega
  rw [vreadSize]
  simp only [gt_iff_lt, BitVec.lt_def, hmaddr, htop]
  rw [if_neg (by omega), if_neg (by omega), wrapInt_sub (n := min (vaddr.toNat + len) s.stop - st.tmpVaddr.toNat)
    (by rw [hend]; omega) (by rw [hend]) (by omega)]

/-- Bytes of a section that are still to be read are all that are read of it. -/
theorem VreadReady.part (h : VreadReady io m content vaddr len done s st)
    (hleft : st.tmpVaddr.toNat < min (vaddr.toNat + len) s.stop) :
    vreadFirst vaddr s = st.tmpVaddr - s.vaddr + s.offset ∧
      vreadCount vaddr len s = min (vaddr.toNat + len) s.stop - st.tmpVaddr.toNat := by
  have hstart : st.tmpVaddr.toNat = max vaddr.toNat s.start := by
    rcases h.fresh with hf | ⟨-, hf⟩
    · exact hf
    · omega
  have htmp : (if vaddr < s.vaddr then s.vaddr else vaddr) = st.tmpVaddr := by
    apply BitVec.eq_of_toNat_eq
    rw [RIOSection.start] at hstart
    split
    · next hlt =>
      rw [BitVec.lt_def] at hlt
      omega
    · next hlt =>
      rw [BitVec.lt_def] at hlt
      omega
  exact ⟨by rw [vreadFirst, htmp], by rw [vreadCount, hstart]⟩

/-- The part of a section comes into its place in the buffer. -/
theorem VreadReady.mread (readers : RIOReaders) (h : VreadReady io m content vaddr len done s st)
    (hlayout : VreadLayout io fd m content) (hok : SectionOk fd m s) (hint : len < 2147483648)
    (hpart : 0 < vreadCount vaddr len s → PartRight io m vaddr len s) {n : Nat}
    (hn : n = min (vaddr.toNat + len) s.stop - st.tmpVaddr.toNat) :
    ∃ r out io', rIoMread readers st.io s.fd (st.tmpVaddr - s.vaddr + s.offset) st.buf st.tmpBuf n =
        some (r, out, io') ∧ Seeked st.io io' ∧ SameOutside st.buf out st.tmpBuf.toNat n ∧
      ∀ k < n, out[st.tmpBuf.toNat + k]? = some (sectionByte content m s (st.tmpVaddr.toNat + k)) := by
  have hlow := h.low
  have hhigh := h.high
  have hbuf := h.tmpBuf
  have hblen := h.length
  have hb : st.io.bufferEnabled = false := h.seeked.moved.bufferEnabled.trans hlayout.unbuffered
  have hroom : st.tmpBuf.toNat + n ≤ st.buf.length := by omega
  by_cases hzero : n = 0
  · obtain ⟨r, out, io', hread, hsame, hseeked⟩ := rIoMread_total readers st.io s.fd
      (st.tmpVaddr - s.vaddr + s.offset) st.buf (p := st.tmpBuf) (n := n) hb (by omega) hroom (by omega)
    exact ⟨r, out, io', hread, hseeked, hsame, fun k hk => by omega⟩
  · obtain ⟨hfirst, hcount⟩ := h.part (by omega)
    rw [← hn] at hcount
    obtain ⟨⟨found, hres, hin, hsame⟩, hseek, hbelow⟩ := hpart (by omega)
    rw [hfirst, hcount] at hres hin
    rw [hfirst] at hsame hseek hbelow
    have hmaddr := h.maddr hok
    have hholds : MapHolds m (st.tmpVaddr - s.vaddr + s.offset) n := by
      have hmfirst := hok.first
      have hmlast := hok.last
      have hsizes := congrArg BitVec.toNat hok.sizes
      have hsv : s.start = s.vaddr.toNat := by rw [RIOSection.start]
      have hsp : s.stop = s.vaddr.toNat + s.vsize.toNat := by rw [RIOSection.stop]
      have hlow' := h.start
      exact ⟨by omega, by omega⟩
    obtain ⟨r, io', hread, hseeked⟩ := rIoMread_file readers st.buf hb
      (hok.fd ▸ hlayout.file.of_moved h.seeked.moved) (by omega) hroom hin
      (by rw [h.seeked.moved.resolve]; exact hres)
      (by rw [hsame, h.seeked.moved.seekTarget]; exact hseek) (by rw [hsame]; exact hbelow)
    rw [hsame, hholds.place hlayout.places] at hread
    have hbl : st.tmpBuf.toNat + (fileBytes content (mapPlace m (st.tmpVaddr - s.vaddr + s.offset).toNat) n).length ≤
        st.buf.length := by
      rw [fileBytes_length]
      exact hroom
    refine ⟨r, _, io', hread, hseeked, ⟨blit_length _ _ _ hbl, ?_⟩, ?_⟩
    · intro i hi
      rw [blit_getElem? _ _ _ _ hbl, fileBytes_length]
      split_ifs
      · rfl
      · omega
      · rfl
    · intro k hk
      have hplace : mapPlace m (s.offset.toNat + (st.tmpVaddr.toNat - s.start)) + k =
          mapPlace m (s.offset.toNat + (st.tmpVaddr.toNat + k - s.start)) := by
        have hmfirst := hok.first
        have hs := h.start
        rw [mapPlace, mapPlace]
        omega
      rw [blit_getElem? _ _ _ _ hbl, fileBytes_length, if_neg (by omega), if_pos (by omega),
        Nat.add_sub_cancel_left, fileBytes_getElem? _ _ hk, hmaddr, hplace, sectionByte]

/-- A section is read, and the cursor stands behind it. -/
theorem VreadReady.chunk (readers : RIOReaders) (h : VreadReady io m content vaddr len done s st)
    (hlayout : VreadLayout io fd m content) (hok : SectionOk fd m s)
    (hlen : vaddr.toNat + len < 18446744073709551616) (hint : len < 2147483648)
    (hpart : 0 < vreadCount vaddr len s → PartRight io m vaddr len s) :
    ∃ st', vreadChunk readers st s = some st' ∧
      VreadDone io m content vaddr len (done ++ [s]) st' := by
  have hend := h.end_eq hok hlen
  have hlow := h.low
  have hhigh := h.high
  have hstop := h.stop
  have hbuf := h.tmpBuf
  have hblen := h.length
  have hlt := vaddr.isLt
  obtain ⟨n, hn⟩ : ∃ n, n = min (vaddr.toNat + len) s.stop - st.tmpVaddr.toNat := ⟨_, rfl⟩
  obtain ⟨r, out, io', hread, hseeked, ⟨hlength, hsame⟩, hbytes⟩ := h.mread readers hlayout hok hint hpart hn
  have hsub : (vreadEnd st s - st.tmpVaddr).toNat = n := by
    rw [BitVec.toNat_sub_of_le (by rw [BitVec.le_def, hend]; omega), hend, hn]
  have hchunk : vreadChunk readers st s = some { st with
      io := io'
      buf := out
      tmpVaddr := vreadEnd st s
      tmpLen := wrapInt (BitVec.ofInt 64 st.tmpLen - (vreadEnd st s - st.tmpVaddr)).toNat
      tmpBuf := st.tmpBuf + (vreadEnd st s - st.tmpVaddr) } := by
    rw [vreadChunk, h.size_eq hok hlen hint, ← hn]
    dsimp only
    rw [hread]
    rfl
  refine ⟨_, hchunk, ⟨⟨h.seeked.trans hseeked, ?_, ?_, ?_, ?_, ?_, ?_, ?_, ?_⟩, ?_, ?_⟩⟩
  · exact hlength.trans hblen
  · simp only [hend]
    omega
  · simp only [hend]
    omega
  · simp only [hend]
    have htmp : (BitVec.ofInt 64 st.tmpLen).toNat = vaddr.toNat + len - st.tmpVaddr.toNat := by
      rw [h.tmpLen, BitVec.ofInt_natCast, BitVec.toNat_ofNat]
      omega
    apply wrapInt_sub
    · omega
    · omega
    · omega
  · simp only [BitVec.toNat_add, hsub, hbuf, hend]
    omega
  · intro x hx
    simp only [hend]
    rcases List.mem_append.mp hx with hx | hx
    · have := h.behind x hx
      omega
    · rw [List.mem_singleton.mp hx]
  · intro x hx i hi hxstart hxstop
    simp only
    -- the bytes in front of the cursor are kept, those behind it are new
    have hkeep : x ∈ done → vaddr.toNat + i < st.tmpVaddr.toNat →
        out[i]? = some (sectionByte content m x (vaddr.toNat + i)) := by
      intro hdone hbefore
      rw [hsame i (Or.inl (by omega))]
      exact h.right x hdone i hi hxstart hxstop
    rcases List.mem_append.mp hx with hx | hx
    · have := h.behind x hx
      exact hkeep hx (by omega)
    · rw [List.mem_singleton] at hx
      by_cases hbefore : vaddr.toNat + i < st.tmpVaddr.toNat
      · rcases h.fresh with hf | ⟨hdone, -⟩
        · rw [hx] at hxstart
          omega
        · exact hkeep (hx ▸ hdone) hbefore
      · have hk := hbytes (vaddr.toNat + i - st.tmpVaddr.toNat) (by rw [hx] at hxstop; omega)
        have hindex : st.tmpBuf.toNat + (vaddr.toNat + i - st.tmpVaddr.toNat) = i := by omega
        have haddr : st.tmpVaddr.toNat + (vaddr.toNat + i - st.tmpVaddr.toNat) = vaddr.toNat + i := by omega
        rw [hindex, haddr] at hk
        rw [hk, hx]
  · intro range hrange
    obtain ⟨hfrom, hlo, hhi, hbeforeAll⟩ := h.ranges range hrange
    refine ⟨hfrom, hlo, hhi, ?_⟩
    intro x hx
    rcases List.mem_append.mp hx with hx | hx
    · exact hbeforeAll x hx
    · rw [List.mem_singleton.mp hx]
      exact Or.inl (h.before range hrange)
  · intro hall
    have hs : s.stop = vaddr.toNat := hall s (by simp)
    have hle : s.start ≤ s.stop := by
      rw [RIOSection.start, RIOSection.stop]
      omega
    refine ⟨BitVec.eq_of_toNat_eq (by rw [hend]; omega), ?_⟩
    rw [List.eq_nil_iff_forall_not_mem]
    intro range hrange
    obtain ⟨-, hlo, -⟩ := h.ranges range hrange
    have := h.before range hrange
    omega
  · intro l hl
    simp only [List.getLast?_append, List.getLast?_singleton, Option.some_or, Option.some.injEq] at hl
    rw [hend, hl]

theorem VreadDone.round (readers : RIOReaders) (h : VreadDone io m content vaddr len done st)
    (hlayout : VreadLayout io fd m content) (hok : SectionOk fd m s)
    (hlen : vaddr.toNat + len < 18446744073709551616) (hint : len < 2147483648)
    (hpart : 0 < vreadCount vaddr len s → PartRight io m vaddr len s)
    (hnext : ∀ l, done.getLast? = some l → Joined vaddr l s ∧ vaddr.toNat ≤ l.stop)
    (hlow : s.start ≤ vaddr.toNat + len) (hhigh : vaddr.toNat ≤ s.stop) :
    ∃ st', vreadSection readers vaddr st s = some st' ∧
      VreadDone io m content vaddr len (done ++ [s]) st' := by
  rw [vreadSection, if_neg hok.nonzero]
  exact (h.gap hint hnext hlow hhigh).chunk readers hlayout hok hlen hint hpart

/-- All listed sections are read. -/
theorem VreadDone.run (readers : RIOReaders) (h : VreadDone io m content vaddr len done st)
    (hlayout : VreadLayout io fd m content) (hlen : vaddr.toNat + len < 18446744073709551616)
    (hint : len < 2147483648)
    (hparts : ∀ s ∈ io.sections, 0 < vreadCount vaddr len s → PartRight io m vaddr len s)
    (sections : List RIOSection)
    (hlisted : ∀ s ∈ sections, s ∈ io.sections ∧ s.start ≤ vaddr.toNat + len ∧ vaddr.toNat ≤ s.stop)
    (hlast : ∀ l, done.getLast? = some l → vaddr.toNat ≤ l.stop)
    (hchain : (done.getLast?.toList ++ sections).IsChain (Joined vaddr)) :
    ∃ st', sections.foldlM (vreadSection readers vaddr) st = some st' ∧
      VreadDone io m content vaddr len (done ++ sections) st' := by
  induction sections generalizing done st with
  | nil =>
    rw [List.append_nil]
    exact ⟨st, rfl, h⟩
  | cons s sections ih =>
    obtain ⟨hmem, hlow, hhigh⟩ := hlisted s List.mem_cons_self
    have hnext : ∀ l, done.getLast? = some l → Joined vaddr l s ∧ vaddr.toNat ≤ l.stop := by
      intro l hl
      refine ⟨?_, hlast l hl⟩
      rw [hl] at hchain
      exact (List.isChain_cons_cons.mp hchain).1
    obtain ⟨st', hround, hdone⟩ :=
      h.round readers hlayout (hlayout.sections s hmem) hlen hint (hparts s hmem) hnext hlow hhigh
    have hs : (done ++ [s]).getLast? = some s := by simp
    obtain ⟨st'', hrun, hall⟩ := ih hdone (fun x hx => hlisted x (List.mem_cons_of_mem s hx))
      (fun l hl => by rw [hs, Option.some.injEq] at hl; rw [← hl]; exact hhigh)
      (by rw [hs]; exact hchain.right_of_append)
    refine ⟨st'', ?_, ?_⟩
    · rw [List.foldlM_cons, hround]
      exact hrun
    · rw [List.append_assoc] at hall
      exact hall

end Step

end Radare
