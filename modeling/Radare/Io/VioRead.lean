import Radare.Io.VioSections

namespace Radare

/-- Every byte of these sections that the read asks for is in its place. -/
structure VreadRight (io : RIO) (m : RIOMap) (content : List Ut8) (vaddr : Ut64) (len : Nat)
    (done : List RIOSection) (r : List Ut8 × RIO) : Prop where
  seeked : Seeked io r.2
  length : r.1.length = len
  right : ∀ s ∈ done, ∀ i < len, s.start ≤ vaddr.toNat + i → vaddr.toNat + i < s.stop →
    r.1[i]? = some (sectionByte content m s (vaddr.toNat + i))

section Ranges

variable {io : RIO} {m : RIOMap} {content : List Ut8} {vaddr : Ut64} {len : Nat}
  {done : List RIOSection} {r : List Ut8 × RIO}

/-- A range in front of the sections is filled without a change to their bytes. -/
theorem VreadRight.range (readers : RIOReaders) (h : VreadRight io m content vaddr len done r)
    (hb : io.bufferEnabled = false) (hint : len < 2147483648) {range : Ut64 × Ut64}
    (hfrom : range.1 = vaddr) (hlow : vaddr.toNat < range.2.toNat) (hhigh : range.2.toNat ≤ vaddr.toNat + len)
    (hbefore : ∀ s ∈ done, range.2.toNat ≤ s.start ∨ min (vaddr.toNat + len) s.stop ≤ vaddr.toNat) :
    ∃ r', vreadRange readers vaddr r range = some r' ∧ VreadRight io m content vaddr len done r' := by
  have hlength := h.length
  have hzero : vaddr - vaddr = 0 := by simp
  have hsize : wrapInt (range.2 - vaddr).toNat = ((range.2.toNat - vaddr.toNat : Nat) : Int) := by
    apply wrapInt_sub
    · omega
    · rfl
    · omega
  rw [vreadRange, hfrom, hzero, hsize]
  have hroom : (0 : Ut64).toNat + (range.2.toNat - vaddr.toNat) ≤ r.1.length := by
    simp
    omega
  obtain ⟨r', hrun, ⟨hlength', hsame⟩, hseeked⟩ := vreadMaps_total readers
    (rIoMapGetMapsInRange r.2 vaddr (range.2 - vaddr)) vaddr (h.seeked.moved.bufferEnabled.trans hb)
    (by omega) hroom (by omega)
  refine ⟨r', hrun, h.seeked.trans hseeked, hlength'.trans hlength, ?_⟩
  intro s hs i hi hstart hstop
  rw [hsame i (Or.inr (by rcases hbefore s hs with hb | hb <;> simp <;> omega))]
  exact h.right s hs i hi hstart hstop

theorem VreadRight.ranges (readers : RIOReaders) (h : VreadRight io m content vaddr len done r)
    (hb : io.bufferEnabled = false) (hint : len < 2147483648) (ranges : List (Ut64 × Ut64))
    (hranges : ∀ range ∈ ranges, range.1 = vaddr ∧ vaddr.toNat < range.2.toNat ∧
      range.2.toNat ≤ vaddr.toNat + len ∧
      ∀ s ∈ done, range.2.toNat ≤ s.start ∨ min (vaddr.toNat + len) s.stop ≤ vaddr.toNat) :
    ∃ r', ranges.foldlM (vreadRange readers vaddr) r = some r' ∧
      VreadRight io m content vaddr len done r' := by
  induction ranges generalizing r with
  | nil => exact ⟨r, rfl, h⟩
  | cons range ranges ih =>
    obtain ⟨hfrom, hlow, hhigh, hbefore⟩ := hranges range List.mem_cons_self
    obtain ⟨r', hround, h'⟩ := h.range readers hb hint hfrom hlow hhigh hbefore
    obtain ⟨r'', hrun, h''⟩ := ih h' (fun x hx => hranges x (List.mem_cons_of_mem range hx))
    refine ⟨r'', ?_, h''⟩
    rw [List.foldlM_cons, hround]
    exact hrun

end Ranges

/-- The read stays in its buffer, and every byte in a section is in its place. -/
def VreadCorrect (readers : RIOReaders) (io : RIO) (m : RIOMap) (content : List Ut8) (vaddr : Ut64)
    (buf : List Ut8) : Prop :=
  ∃ r out io', rIoVread readers io vaddr buf = some (r, out, io') ∧ out.length = buf.length ∧
    ∀ s ∈ io.sections, ∀ i < buf.length, s.start ≤ vaddr.toNat + i → vaddr.toNat + i < s.stop →
      out[i]? = some (sectionByte content m s (vaddr.toNat + i))

theorem vread_correct_of_whole (readers : RIOReaders) (io : RIO) (fd : Int) (m : RIOMap)
    (content : List Ut8) (vaddr : Ut64) (buf : List Ut8) (hlayout : VreadLayout io fd m content)
    (hint : buf.length < 2147483648) (hlen : vaddr.toNat + buf.length < 18446744073709551616)
    (hwhole : VreadWhole io m vaddr buf.length) : VreadCorrect readers io m content vaddr buf := by
  have hcur : io.curDesc.isNone = false := by
    have h := hlayout.current
    cases hc : io.curDesc with
    | none =>
      rw [hc] at h
      cases h
    | some d => rfl
  rw [VreadCorrect, rIoVread, hcur, if_neg Bool.false_ne_true]
  dsimp only
  by_cases hnil : rIoSectionGetInVaddrRange io vaddr (vaddr + BitVec.ofNat 64 buf.length) = []
  · -- no section lies in the range
    rw [if_pos hnil]
    have hroom : (0 : Ut64).toNat + buf.length ≤ buf.length := by simp
    obtain ⟨r, hrun, ⟨hlength, -⟩, -⟩ := vreadMaps_total readers
      (rIoMapGetMapsInRange io vaddr (vaddr + BitVec.ofNat 64 buf.length)) vaddr hlayout.unbuffered hint
      hroom hint
    rw [hrun]
    refine ⟨1, r.1, r.2, rfl, hlength, ?_⟩
    intro s hs i hi hstart hstop
    have hmem := listed_complete hlayout.sections hlen hs hi hstart hstop
    rw [hnil] at hmem
    cases hmem
  · rw [if_neg hnil]
    have hinit : VreadDone io m content vaddr buf.length [] ⟨io, buf, vaddr, buf.length, 0, []⟩ := by
      refine ⟨⟨Seeked.refl io, rfl, Nat.le_refl _, Nat.le_add_right _ _, ?_, ?_, nofun, nofun, nofun⟩,
        fun _ => ⟨rfl, rfl⟩, nofun⟩
      · simp
      · simp
    obtain ⟨st, hrun, hdone⟩ := hinit.run readers hlayout hlen hint hwhole.parts
      (rIoSectionGetInVaddrRange io vaddr (vaddr + BitVec.ofNat 64 buf.length))
      (fun s hs => listed_bounds hlayout.sections hlen hs) nofun hwhole.joined
    rw [List.nil_append] at hdone
    have hright : VreadRight io m content vaddr buf.length _ (st.buf, st.io) :=
      ⟨hdone.seeked, hdone.length, hdone.right⟩
    obtain ⟨r, hranges, h⟩ := hright.ranges readers hlayout.unbuffered hint st.ranges hdone.ranges
    refine ⟨1, r.1, r.2, ?_, h.length, ?_⟩
    · rw [hrun]
      simp only [Option.bind_eq_bind, Option.bind_some, hranges]
    · intro s hs i hi hstart hstop
      exact h.right s (listed_complete hlayout.sections hlen hs hi hstart hstop) i hi hstart hstop

section Examples

theorem eightBytes_short : ([1, 2, 3, 4, 5, 6, 7, 8] : List Ut8).length < 4294967296 := by decide

def eightBytes : RIODesc := ⟨3, ⟨[1, 2, 3, 4, 5, 6, 7, 8], 0, eightBytes_short⟩⟩

def eightMap : RIOMap := ⟨3, 0, 0, 8⟩

/-- Eight bytes under one map. -/
def mappedBytes (sections : List RIOSection) : RIO :=
  { emptyIO with files := [eightBytes], desc := some 0, maps := [eightMap], sections := sections }

theorem mappedBytes_layout (sections : List RIOSection) (hok : ∀ s ∈ sections, SectionOk 3 eightMap s)
    (hsorted : sections.Pairwise (fun s t => s.stop ≤ t.start)) :
    VreadLayout (mappedBytes sections) 3 eightMap eightBytes.data.buf :=
  ⟨⟨0, eightBytes, rfl, rfl, rfl⟩, rfl, rfl, hok, hsorted, ⟨List.mem_singleton_self _, rfl⟩, by decide⟩

/-- Two bytes from the file's start at the address 16, two more right behind them. -/
def joinedSections : List RIOSection := [⟨0, 16, 2, 2, 16, 3⟩, ⟨2, 18, 2, 2, 16, 3⟩]

theorem mappedBytes_sections_ok {sections : List RIOSection}
    (h : ∀ s ∈ sections, s.isMapped = true ∧ s.vaddr ≠ 0 ∧ s.vsize = s.size ∧ s.fd = 3 ∧
      s.stop < 18446744073709551616 ∧ s.offset.toNat + s.size.toNat ≤ 8) :
    ∀ s ∈ sections, SectionOk 3 eightMap s := by
  intro s hs
  obtain ⟨hmapped, hzero, hsizes, hfd, hroom, hlast⟩ := h s hs
  exact ⟨hmapped, hzero, hsizes, hfd, hroom, Nat.zero_le _, hlast⟩

theorem joinedSections_listed :
    rIoSectionGetInVaddrRange (mappedBytes joinedSections) 14 (14 + BitVec.ofNat 64 6) = joinedSections := by
  rfl

theorem vread_correct_joined :
    VreadCorrect noReaders (mappedBytes joinedSections) eightMap eightBytes.data.buf 14
      (List.replicate 6 0) := by
  apply vread_correct_of_whole noReaders (mappedBytes joinedSections) 3 eightMap eightBytes.data.buf 14
    (List.replicate 6 0)
  · apply mappedBytes_layout
    · apply mappedBytes_sections_ok
      decide
    · decide
  · decide
  · decide
  · refine ⟨?_, ?_⟩
    · rw [List.length_replicate, joinedSections_listed]
      exact List.isChain_pair.mpr (Or.inr (Or.inl rfl))
    · intro s hs _
      have hpart : ∀ s ∈ joinedSections, s.fd = 3 ∧
          seekTarget (mappedBytes joinedSections) (vreadFirst 14 s - eightMap.fromAddr + eightMap.delta) =
            vreadFirst 14 s - eightMap.fromAddr + eightMap.delta ∧
          vreadFirst 14 s - eightMap.fromAddr + eightMap.delta ≠ ut64Max ∧
          (vreadFirst 14 s).toNat + vreadCount 14 6 s ≤ eightMap.toAddr.toNat := by decide
      obtain ⟨hfd, hseek, hbelow, hlast⟩ := hpart s hs
      refine ⟨⟨eightMap, ?_, ?_, rfl⟩, hseek, hbelow⟩
      · apply resolve_unique
        · exact List.mem_singleton_self _
        · exact hfd.symm
        · exact fun m hm _ => List.mem_singleton.mp hm
      · exact ⟨Nat.zero_le _, hlast⟩

/-- Two sections with a gap of two bytes between them, and a third one behind one more gap. -/
def gapSections : List RIOSection :=
  [⟨0, 4, 2, 2, 16, 3⟩, ⟨2, 8, 2, 2, 16, 3⟩, ⟨4, 12, 2, 2, 16, 3⟩]

/-- Behind a gap between two sections the bytes come into a wrong place, and behind the next one they
are written outside the buffer. -/
theorem vread_gaps_overflow :
    VreadLayout (mappedBytes gapSections) 3 eightMap eightBytes.data.buf ∧
      (rIoVread noReaders (mappedBytes gapSections) 4 (List.replicate 6 0)).map (·.2.1) =
        some [1, 2, 7, 8, 0, 0] ∧
      ¬VreadCorrect noReaders (mappedBytes gapSections) eightMap eightBytes.data.buf 4 (List.replicate 6 0) ∧
      rIoVread noReaders (mappedBytes gapSections) 4 (List.replicate 10 0) = none ∧
      ¬VreadCorrect noReaders (mappedBytes gapSections) eightMap eightBytes.data.buf 4 (List.replicate 10 0) := by
  have hbytes : (rIoVread noReaders (mappedBytes gapSections) 4 (List.replicate 6 0)).map (·.2.1) =
      some [1, 2, 7, 8, 0, 0] := by rfl
  have houtside : rIoVread noReaders (mappedBytes gapSections) 4 (List.replicate 10 0) = none := by rfl
  refine ⟨mappedBytes_layout _ (mappedBytes_sections_ok (by decide)) (by decide), hbytes, ?_, houtside, ?_⟩
  · intro h
    obtain ⟨r, out, io', hread, -, hright⟩ := h
    rw [hread, Option.map_some, Option.some.injEq] at hbytes
    have hmem : (⟨2, 8, 2, 2, 16, 3⟩ : RIOSection) ∈ (mappedBytes gapSections).sections :=
      List.mem_cons_of_mem _ List.mem_cons_self
    have hfifth := hright _ hmem 4 (by decide) (by decide) (by decide)
    rw [show out = [1, 2, 7, 8, 0, 0] from hbytes] at hfifth
    exact absurd hfifth (by decide)
  · intro h
    obtain ⟨r, out, io', hread, -⟩ := h
    rw [houtside] at hread
    cases hread

end Examples

end Radare
