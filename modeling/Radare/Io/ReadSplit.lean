import Radare.Io.ReadRounds

namespace Radare

/-- The chunk at offset `j` of a read of `n` bytes at `a`, and what follows it, is right. -/
inductive ChunkRight (io : RIO) (d : RIODesc) (a : Ut64) (n : Nat) : Nat → Prop
  /-- The chunk is the rest of the read, and the places of its addresses run on in the file. -/
  | last (j : Nat) (hsize : chunkSize io a n j = n - j)
      (hrun : ∀ i < n - j, StandsFor io d (chunkPlace io a j + i) (addrAt a (j + i)))
      (hfile : chunkPlace io a j + (n - j) ≤ d.data.size ∨ d.data.size ≤ chunkPlace io a j ∨
        breaksOff io (chunkStart io a j) = true ∧ io.oxff = 0xff) : ChunkRight io d a n j
  /-- The chunk is cut in front of an address from which the rest is right. -/
  | hop (j : Nat) (hsize : chunkSize io a n j < n - j)
      (hrun : ∀ i < chunkSize io a n j, StandsFor io d (chunkPlace io a j + i) (addrAt a (j + i)))
      (hfile : chunkPlace io a j + chunkSize io a n j ≤ d.data.size ∨
        d.data.size ≤ chunkPlace io a j)
      (hstay : chunkStart io a j = addrAt a j)
      (hbreak : breaksOff io (addrAt a j) = false)
      (hknown : known io (addrAt a (j + chunkSize io a n j)) = true)
      (next : ChunkRight io d a n (j + chunkSize io a n j)) : ChunkRight io d a n j
  /-- No section moves an address and the places run on wherever the read is cut. -/
  | steady (j : Nat)
      (hstay : ∀ i, j ≤ i → i < n → known io (addrAt a i) = true →
        chunkStart io a i = addrAt a i ∧ breaksOff io (addrAt a i) = false)
      (hrun : ∀ i, j ≤ i → i < n → known io (addrAt a i) = true → ∀ k, i ≤ k → k < n →
        StandsFor io d ((filePlace io (addrAt a i)).toNat + (k - i)) (addrAt a k)) :
      ChunkRight io d a n j

/-- The loop comes from the start of the read to its first known address: in single steps while a
section lies ahead, or in one skip to the start of a map. -/
def GapCrossed (io : RIO) (a : Ut64) (n f : Nat) : Prop :=
  (∀ i < f, (rIoSectionGetFirstInVaddrRange io (addrAt a i) (addrAt a n)).isSome = true) ∨
  rIoSectionGetFirstInVaddrRange io a (addrAt a n) = none ∧
    ∃ m, rIoMapGetFirstMapInRange io a (addrAt a n) = some m ∧ m.fromAddr = addrAt a f

/-- The read of `n` bytes at `a` meets none of the loop's faults. -/
def ReadRight (io : RIO) (d : RIODesc) (a : Ut64) (n : Nat) : Prop :=
  (∀ i < n, known io (addrAt a i) = false) ∨
  ∃ f < n, (∀ i < f, known io (addrAt a i) = false) ∧ known io (addrAt a f) = true ∧
    GapCrossed io a n f ∧ ChunkRight io d a n f

namespace PlainRead

variable {io : RIO} {d : RIODesc} {a : Ut64} {n : Nat} (h : PlainRead io d a n)
include h

omit h in
/-- A chunk that neither meets the end of the file nor starts behind it takes all it is asked. -/
theorem chunkTaken_eq (p l : Nat) (hfile : p + l ≤ d.data.size ∨ d.data.size ≤ p) :
    chunkTaken d p l = l := by
  have hf : d.data.found p l = min l (d.data.size - p) := rfl
  rw [chunkTaken]
  split <;> omega

theorem readsTo_last {j : Nat} {st : ReadState} (hst : AtOffset io d a n j st) (hj : j < n)
    (hk : known io (addrAt a j) = true) (hsize : chunkSize io a n j = n - j)
    (hrun : ∀ i < n - j, StandsFor io d (chunkPlace io a j + i) (addrAt a (j + i)))
    (hfile : chunkPlace io a j + (n - j) ≤ d.data.size ∨ d.data.size ≤ chunkPlace io a j ∨
      breaksOff io (chunkStart io a j) = true ∧ io.oxff = 0xff) : ReadsTo io d a n st := by
  have hl := hst.len
  have htaken (hf : chunkPlace io a j + (n - j) ≤ d.data.size ∨ d.data.size ≤ chunkPlace io a j) :
      chunkTaken d (chunkPlace io a j) (chunkSize io a n j) = n - j := by
    rw [hsize, chunkTaken_eq _ _ hf]
  cases hb : breaksOff io (chunkStart io a j) with
  | true =>
    obtain ⟨off, pos, hstop⟩ := h.chunkStep_stop hst hj hb
    refine ReadsTo.stop (by omega) ((h.readStep_known hst hj hk).trans hstop) ?_ ⟨off, pos, rfl⟩
    have hlen := chunkBytes_length io d (chunkPlace io a j) (chunkSize io a n j)
    have hfill := filled_chunk io d a n j (n - j)
      (chunkBytes io d (chunkPlace io a j) (chunkSize io a n j)) (by omega) (by omega) (by
        intro i hi
        rw [byteAt_of_standsFor io d _ _ (hrun i hi)]
        rcases hfile with hf | hf | ⟨-, hff⟩
        · exact chunkBytes_getElem? io d _ _ i (by rw [htaken (Or.inl hf)]; exact hi)
        · exact chunkBytes_getElem? io d _ _ i (by rw [htaken (Or.inr hf)]; exact hi)
        · exact chunkBytes_getElem?_ff io d _ _ i (by omega) hff)
    rw [Nat.sub_self, List.replicate_zero, blit, List.length_nil, Nat.add_zero, List.append_nil,
      List.take_append_drop, Nat.add_sub_cancel' (Nat.le_of_lt hj)] at hfill
    exact hfill
  | false =>
    have hf : chunkPlace io a j + (n - j) ≤ d.data.size ∨ d.data.size ≤ chunkPlace io a j := by
      rcases hfile with hf | hf | ⟨hb', -⟩
      · exact Or.inl hf
      · exact Or.inr hf
      · rw [hb] at hb'
        exact absurd hb' Bool.false_ne_true
    have ht := htaken hf
    exact h.readsTo_chunk hst hj hk hb (fun i hi => hrun i (by omega)) (fun hlt => by omega)
      (fun st' hst' => ReadsTo.done hst' (by omega))

theorem readsTo_of_chunkRight {j : Nat} (hc : ChunkRight io d a n j) (hj : j < n)
    (hk : known io (addrAt a j) = true) (st : ReadState) (hst : AtOffset io d a n j st) :
    ReadsTo io d a n st := by
  induction hc generalizing st with
  | last j hsize hrun hfile => exact h.readsTo_last hst hj hk hsize hrun hfile
  | hop j hsize hrun hfile hstay hbreak hknown _ ih =>
    have ht := chunkTaken_eq _ _ hfile
    refine h.readsTo_chunk hst hj hk (hstay ▸ hbreak) (fun i hi => hrun i (by omega))
      (fun _ => hstay) (fun st' hst' => ?_)
    rw [ht] at hst'
    exact ih (by omega) hknown st' hst'
  | steady j hstay hrun =>
    exact h.readsTo_steady j (n - j) j st (le_refl _) (le_refl j) hst hk hstay hrun

omit h in
theorem endaddr_eq {j : Nat} {st : ReadState} (hst : AtOffset io d a n j st) (hj : j < n) :
    st.addr + BitVec.ofNat 64 st.len + BitVec.ofNat 64 st.w = addrAt a n := by
  rw [hst.addr hj, hst.len, hst.w hj, BitVec.add_assoc, ← BitVec.ofNat_add,
    Nat.sub_add_cancel (Nat.le_of_lt hj), addrAt]

/-- A section ahead leaves the length of the last step. -/
theorem gapLength_section {j : Nat} {st : ReadState} (hst : AtOffset io d a n j st) (hj : j < n)
    (hs : (rIoSectionGetFirstInVaddrRange io (addrAt a j) (addrAt a n)).isSome = true) :
    gapLength st = some st.l := by
  obtain ⟨off, pos, hio⟩ := hst.placed
  have hb := h.below
  have hfirst : rIoSectionGetFirstInVaddrRange (io.placed d off pos) (addrAt a j) (addrAt a n) =
      rIoSectionGetFirstInVaddrRange io (addrAt a j) (addrAt a n) := rfl
  have hroom : n - j ≤ (ut64Max - a).toNat := by
    rw [BitVec.toNat_sub_of_le (by rw [BitVec.le_def, toNat_ut64Max]; omega), toNat_ut64Max]
    omega
  obtain ⟨s, hsome⟩ := Option.isSome_iff_exists.mp hs
  rw [gapLength, endaddr_eq hst hj, cursor_eq hst hj, hio, hfirst, hsome, hst.len, hst.addr hj]
  simp only [if_pos hroom]

/-- Without a section ahead the first map is skipped to. -/
theorem gapLength_map {f : Nat} {st : ReadState} (hst : AtOffset io d a n 0 st) (hf : f < n)
    (hs : rIoSectionGetFirstInVaddrRange io a (addrAt a n) = none) (m : RIOMap)
    (hm : rIoMapGetFirstMapInRange io a (addrAt a n) = some m) (hfrom : m.fromAddr = addrAt a f) :
    gapLength st = some (f : Int) := by
  obtain ⟨off, pos, hio⟩ := hst.placed
  have hn := h.len
  have h0 : addrAt a 0 = a := BitVec.add_zero a
  have hfirst : rIoSectionGetFirstInVaddrRange (io.placed d off pos) a (addrAt a n) =
      rIoSectionGetFirstInVaddrRange io a (addrAt a n) := rfl
  have hmap : rIoMapGetFirstMapInRange (io.placed d off pos) a (addrAt a n) =
      rIoMapGetFirstMapInRange io a (addrAt a n) := rfl
  have hdist : (addrAt a f - a).toNat = f := by
    rw [addrAt, BitVec.add_comm, BitVec.add_sub_cancel, BitVec.toNat_ofNat]
    omega
  rw [gapLength, endaddr_eq hst (by omega), cursor_eq hst (by omega), h0, hio, hfirst, hs]
  simp only
  rw [hmap, hm]
  simp only [hfrom, hst.addr (by omega), hst.len, hdist]
  rw [if_neg (by omega), wrapInt_of_range (by omega) (by omega)]

theorem readsTo_steps (f m j : Nat) (st : ReadState) (hm : f - j ≤ m) (hj : j ≤ f) (hf : f < n)
    (hst : AtOffset io d a n j st) (hl : st.l ≤ 1)
    (hgap : ∀ i < f, known io (addrAt a i) = false)
    (hs : ∀ i < f, (rIoSectionGetFirstInVaddrRange io (addrAt a i) (addrAt a n)).isSome = true)
    (hrest : ∀ st', AtOffset io d a n f st' → ReadsTo io d a n st') : ReadsTo io d a n st := by
  induction m generalizing j st with
  | zero =>
    have hjf : j = f := by omega
    exact hrest st (hjf ▸ hst)
  | succ m ih =>
    by_cases hjf : j = f
    · exact hrest st (hjf ▸ hst)
    · have hlt : j < f := by omega
      have hone : (if st.l = 0 then 1 else st.l) = 1 := by
        have := hst.l
        split <;> omega
      obtain ⟨st', hstep, hl', hst'⟩ := h.gapStep_again hst (by omega) st.l
        (h.gapLength_section hst (by omega) (hs j hlt)) (by
          intro i _ hji hi
          rw [hone] at hi
          have hij : i = j := by omega
          rw [hij]
          exact byteAt_blank _ (fun hk => by rw [hgap j hlt] at hk; cases hk))
      rw [hone] at hst' hl'
      have hlen := hst.len
      have hlen' := hst'.len
      exact ReadsTo.again (by omega) ((h.readStep_gap hst (by omega) (hgap j hlt)).trans hstep)
        (by omega) (ih (j + 1) st' (by omega) (by omega) hst' (by omega))

theorem readsTo_of_gapCrossed {f : Nat} (st : ReadState) (hf : f < n)
    (hst : AtOffset io d a n 0 st) (hl : st.l = 0)
    (hgap : ∀ i < f, known io (addrAt a i) = false) (hc : GapCrossed io a n f)
    (hrest : ∀ st', AtOffset io d a n f st' → ReadsTo io d a n st') : ReadsTo io d a n st := by
  obtain hs | ⟨hs, m, hm, hfrom⟩ := hc
  · exact h.readsTo_steps f f 0 st (by omega) (by omega) hf hst (by omega) hgap hs hrest
  · by_cases h0 : f = 0
    · exact hrest st (h0 ▸ hst)
    · have hfl : (if (f : Int) = 0 then 1 else (f : Int)) = f := by rw [if_neg (by omega)]
      obtain ⟨st', hstep, -, hst'⟩ := h.gapStep_again hst (by omega) f
        (h.gapLength_map hst hf hs m hm hfrom) (by
          intro i _ _ hi
          rw [hfl] at hi
          exact byteAt_blank _ (fun hk => by rw [hgap i (by omega)] at hk; cases hk))
      rw [hfl, Int.toNat_natCast, Nat.zero_add] at hst'
      have hlen := hst.len
      have hlen' := hst'.len
      exact ReadsTo.again (by omega)
        ((h.readStep_gap hst (by omega) (hgap 0 (by omega))).trans hstep) (by omega)
        (hrest st' hst')

/-- A read without faults returns what one-byte reads find, wherever the file stands. -/
theorem rIoReadAt_right (readers : RIOReaders) (hr : ReadRight io d a n) (off pos : Ut64) :
    ∃ off' pos', rIoReadAt readers (io.placed d off pos) a n =
      some ((n : Int), filled io d a n n, io.placed d off' pos') := by
  have hplain : PlainPath (io.placed d off pos) :=
    ⟨h.one.plain.vio, h.one.plain.raw, h.one.plain.sectonly, h.one.plain.buffer⟩
  have hst : AtOffset io d a n 0 (readStart (io.placed d off pos) a n) := by
    refine ⟨⟨a, pos, rfl⟩, ?_, rfl, fun _ => rfl, fun _ => rfl, le_refl 0⟩
    rw [filled_zero]
    rfl
  have hto : ReadsTo io d a n (readStart (io.placed d off pos) a n) := by
    obtain hall | ⟨f, hf, hgap, hk, hc, hright⟩ := hr
    · exact h.readsTo_blank n 0 _ (by omega) hst
        (fun i _ hi hki => by rw [hall i hi] at hki; cases hki)
    · exact h.readsTo_of_gapCrossed _ hf hst rfl hgap hc
        (fun st' hst' => h.readsTo_of_chunkRight hright hf hk st' hst')
  obtain ⟨st', hloop, hbuf, off', pos', hio⟩ := hto n (le_refl n)
  refine ⟨off', pos', ?_⟩
  rw [rIoReadAt_plain readers _ hplain, hloop, Option.map_some, hbuf, hio]

end PlainRead

/-- No one-byte read meets a fault. -/
theorem readRight_one (io : RIO) (d : RIODesc) (x : Ut64) : ReadRight io d x 1 := by
  have h0 : addrAt x 0 = x := BitVec.add_zero x
  cases hk : known io x with
  | false =>
    refine Or.inl (fun i hi => ?_)
    rw [Nat.lt_one_iff.mp hi, h0, hk]
  | true =>
    refine Or.inr ⟨0, one_pos, fun i hi => absurd hi (Nat.not_lt_zero i), by rw [h0, hk],
      Or.inl (fun i hi => absurd hi (Nat.not_lt_zero i)), ChunkRight.last 0 ?_ ?_ ?_⟩
    · rw [chunkSize]
      split <;> omega
    · intro i hi
      have hplace : chunkPlace io x 0 = (filePlace io x).toNat := rfl
      rw [Nat.lt_one_iff.mp hi, Nat.add_zero, h0, hplace, StandsFor]
      split
      · exact ⟨hk, rfl⟩
      · next hp => exact fun _ => by omega
    · omega

theorem filled_one (io : RIO) (d : RIODesc) (x : Ut64) : filled io d x 1 1 = [byteAt io d x] := by
  have h0 : addrAt x 0 = x := BitVec.add_zero x
  simp [filled, List.range_succ, h0]

theorem filled_split (io : RIO) (d : RIODesc) (a : Ut64) (n k : Nat) (hk : k ≤ n) :
    filled io d a n n =
      filled io d a k k ++ filled io d (addrAt a k) (n - k) (n - k) := by
  apply List.ext_getElem?
  intro i
  rw [List.getElem?_append, filled_length]
  by_cases hi : i < k
  · rw [if_pos hi, filled_getElem? io d a n n i (by omega), filled_getElem? io d a k k i hi,
      if_pos hi, if_pos (by omega)]
  · rw [if_neg hi]
    by_cases hn : i < n
    · have haddr : addrAt (addrAt a k) (i - k) = addrAt a i := by
        rw [addrAt, addrAt, addrAt, BitVec.add_assoc, ← BitVec.ofNat_add,
          Nat.add_sub_cancel' (by omega)]
      rw [filled_getElem? io d a n n i hn, filled_getElem? io d _ _ _ (i - k) (by omega),
        if_pos hn, if_pos (by omega), haddr]
    · rw [List.getElem?_eq_none (by rw [filled_length]; omega),
        List.getElem?_eq_none (by rw [filled_length]; omega)]

/-- One read of `len` bytes gives what two reads after each other give, wherever it is split, and
what one-byte reads give. -/
structure Splits (readers : RIOReaders) (io : RIO) (addr : Ut64) (len : Nat) : Prop where
  two : ∀ k ≤ len, ∃ bs cs io₁ io₂ io',
    rIoReadAt readers io addr k = some ((k : Int), bs, io₁) ∧
    rIoReadAt readers io₁ (addrAt addr k) ((len - k : Nat) : Int) =
      some (((len - k : Nat) : Int), cs, io₂) ∧
    rIoReadAt readers io addr len = some ((len : Int), bs ++ cs, io')
  bytes : ∃ bs io', rIoReadAt readers io addr len = some ((len : Int), bs, io') ∧
    bs.length = len ∧
    ∀ i b, bs[i]? = some b →
      ∃ io₁, rIoReadAt readers io (addrAt addr i) 1 = some (1, [b], io₁)

/-- Neither the parts of the read up to an offset nor those behind it meet a fault of the loop. -/
def PartsRight (io : RIO) (d : RIODesc) (addr : Ut64) (len : Nat) : Prop :=
  ∀ k ≤ len, ReadRight io d addr k ∧ ReadRight io d (addrAt addr k) (len - k)

theorem read_splits_of_partsRight (readers : RIOReaders) (io : RIO) (d : RIODesc) (addr : Ut64)
    (len : Nat) (hread : PlainRead io d addr len) (hright : PartsRight io d addr len) :
    Splits readers io addr len := by
  have hone := hread.one
  have hb := hread.below
  have hpart (a : Ut64) (n : Nat) (ha : a.toNat + n ≤ addr.toNat + len) (hn : n ≤ len) :
      PlainRead io d a n :=
    ⟨hone, hread.cached, by omega, by have := hread.len; omega⟩
  have haddr (k : Nat) (hk : k ≤ len) : (addrAt addr k).toNat = addr.toNat + k :=
    hread.toNat_addrAt hk
  obtain ⟨off', pos', hbig⟩ := hread.rIoReadAt_right readers (hright len (le_refl len)).1
    io.off d.data.offset
  rw [← hone.eq_placed] at hbig
  constructor
  · intro k hk
    obtain ⟨hfst, hsnd⟩ := hright k hk
    obtain ⟨off₁, pos₁, h1⟩ := (hpart addr k (by omega) hk).rIoReadAt_right readers hfst
      io.off d.data.offset
    obtain ⟨off₂, pos₂, h2⟩ := (hpart (addrAt addr k) (len - k) (by rw [haddr k hk]; omega)
      (by omega)).rIoReadAt_right readers hsnd off₁ pos₁
    rw [← hone.eq_placed] at h1
    exact ⟨_, _, _, _, _, h1, h2, by rw [hbig, filled_split io d addr len k hk]⟩
  · refine ⟨_, _, hbig, filled_length io d addr len len, fun i b hi => ?_⟩
    have hlt : i < len := by
      have := (List.getElem?_eq_some_iff.mp hi).1
      rwa [filled_length] at this
    rw [filled_getElem? io d addr len len i hlt, if_pos hlt, Option.some.injEq] at hi
    obtain ⟨off₁, pos₁, h1⟩ := (hpart (addrAt addr i) 1 (by rw [haddr i (by omega)]; omega)
      (by omega)).rIoReadAt_right readers (readRight_one io d _) io.off d.data.offset
    rw [← hone.eq_placed, filled_one, hi] at h1
    exact ⟨_, h1⟩

section Examples

instance (io : RIO) (d : RIODesc) (p : Nat) (x : Ut64) : Decidable (StandsFor io d p x) := by
  unfold StandsFor
  infer_instance

def sevenBytes : RIODesc := ⟨3, ⟨[1, 2, 3, 4, 5, 6, 7], 0, by decide⟩⟩

/-- Seven bytes, the first five of which are mapped from the address 2 to the address 7. -/
def mappedIO : RIO :=
  { emptyIO with files := [sevenBytes], desc := some 0, maps := [⟨3, 0, 2, 7⟩] }

theorem mappedIO_plainRead (a : Ut64) (n : Nat) (hb : a.toNat + n < 18446744073709551616)
    (hn : n < 2147483648) : PlainRead mappedIO sevenBytes a n := by
  refine ⟨⟨rfl, rfl, by decide, ?_, rfl, ⟨rfl, rfl, rfl, rfl⟩⟩, rfl, hb, hn⟩
  intro m hm
  rw [List.mem_singleton.mp hm]
  rfl

/-- A read in one chunk. -/
theorem readRight_single {io : RIO} {d : RIODesc} {a : Ut64} {n : Nat} (hn : 0 < n)
    (hk : known io (addrAt a 0) = true) (hsize : chunkSize io a n 0 = n - 0)
    (hrun : ∀ i < n - 0, StandsFor io d (chunkPlace io a 0 + i) (addrAt a (0 + i)))
    (hfile : chunkPlace io a 0 + (n - 0) ≤ d.data.size) : ReadRight io d a n :=
  Or.inr ⟨0, hn, fun i hi => absurd hi (Nat.not_lt_zero i), hk,
    Or.inl (fun i hi => absurd hi (Nat.not_lt_zero i)), .last 0 hsize hrun (Or.inl hfile)⟩

theorem read_splits_mapped : Splits noReaders mappedIO 3 2 := by
  have hnone : ∀ a, ReadRight mappedIO sevenBytes a 0 :=
    fun a => Or.inl (fun i hi => absurd hi (Nat.not_lt_zero i))
  apply read_splits_of_partsRight noReaders mappedIO sevenBytes 3 2
    (mappedIO_plainRead 3 2 (by decide) (by decide))
  intro k hk
  have hcases : k = 0 ∨ k = 1 ∨ k = 2 := by omega
  rcases hcases with rfl | rfl | rfl
  · exact ⟨hnone _, readRight_single (by decide) (by decide) (by decide) (by decide) (by decide)⟩
  · exact ⟨readRight_one _ _ _, readRight_one _ _ _⟩
  · exact ⟨readRight_single (by decide) (by decide) (by decide) (by decide) (by decide), hnone _⟩

/-- A chunk is not cut at the end of the map: the byte behind it is read all the same. -/
theorem read_runs_over_map : PlainRead mappedIO sevenBytes 6 2 ∧ ¬Splits noReaders mappedIO 6 2 := by
  refine ⟨mappedIO_plainRead 6 2 (by decide) (by decide), ?_⟩
  intro h
  have hbig : (rIoReadAt noReaders mappedIO 6 2).map (fun r => r.2.1) = some [5, 6] := by decide
  have hbyte : (rIoReadAt noReaders mappedIO (addrAt 6 1) 1).map (fun r => r.2.1) = some [0xff] := by
    decide
  obtain ⟨bs, io', hread, -, hall⟩ := h.bytes
  have hbig' : (rIoReadAt noReaders mappedIO 6 2).map (fun r => r.2.1) = some bs :=
    congrArg (Option.map (fun r => r.2.1)) hread
  rw [hbig, Option.some.injEq] at hbig'
  obtain ⟨io₁, hone⟩ := hall 1 6 (by rw [← hbig']; rfl)
  have hbyte' := congrArg (Option.map (fun r => r.2.1)) hone
  rw [hbyte] at hbyte'
  cases hbyte'

end Examples

end Radare
