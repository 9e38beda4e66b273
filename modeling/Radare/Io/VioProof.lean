import Radare.Io.ReadRounds
import Radare.Io.Vio

namespace Radare

/-- Only offsets differ, and the current descriptor stays. -/
structure Seeked (io io' : RIO) : Prop where
  moved : Moved io io'
  desc : io'.desc = io.desc

theorem Seeked.refl (io : RIO) : Seeked io io := ⟨Moved.refl io, rfl⟩

theorem Seeked.trans {io io' io'' : RIO} (h : Seeked io io') (h' : Seeked io' io'') : Seeked io io'' :=
  ⟨h.moved.trans h'.moved, h'.desc.trans h.desc⟩

theorem Moved.bufferEnabled {io io' : RIO} (h : Moved io io') : io'.bufferEnabled = io.bufferEnabled := by
  obtain ⟨⟨off, files, desc, rfl⟩, -⟩ := h
  rfl

theorem rIoSeek_seeked (io : RIO) (offset : Ut64) (whence : RIOSeek) :
    Seeked io (rIoSeek io offset whence).2 := by
  refine ⟨rIoSeek_moved io offset whence, ?_⟩
  rw [rIoSeek]
  split
  · rfl
  · split
    · rfl
    · split
      · rfl
      · dsimp only
        split <;> rfl

/-- A read through a descriptor stores nothing, or as many bytes as asked for. -/
theorem rIoPread_total (readers : RIOReaders) (io : RIO) (paddr : Ut64) (len : Nat)
    (hb : io.bufferEnabled = false) (hlen : len < 2147483648) :
    ((rIoPread readers io paddr len).2.1 = [] ∨ (rIoPread readers io paddr len).2.1.length = len) ∧
      Seeked io (rIoPread readers io paddr len).2.2 := by
  have hseek := rIoSeek_seeked io paddr .set
  rw [rIoPread]
  split
  · split
    · exact ⟨Or.inr (List.length_replicate ..), Seeked.refl io⟩
    · exact ⟨Or.inl rfl, Seeked.refl io⟩
  · dsimp only
    rw [if_neg (by rw [hseek.moved.bufferEnabled, hb]; exact Bool.false_ne_true)]
    split
    · exact ⟨Or.inl rfl, hseek⟩
    · next d hd => exact ⟨Or.inr (d.data.read_length len hlen), hseek⟩

/-- The end of a read cut to the end of its map. -/
theorem mapPart_clip {map : RIOMap} {maddr endaddr : Ut64} {n : Nat} (hn : n < 2147483648)
    (hend : endaddr.toNat = maddr.toNat + n) (hin : ¬ (endaddr > map.toAddr ∧ maddr > map.toAddr)) :
    ∃ k ≤ n, (if endaddr > map.toAddr then wrapInt (map.toAddr - maddr).toNat else (n : Int)) = k ∧
      (if endaddr > map.toAddr then map.toAddr else endaddr).toNat = maddr.toNat + k ∧
      ∀ i < n, maddr.toNat + i < map.toAddr.toNat ↔ i < k := by
  simp only [gt_iff_lt, BitVec.lt_def] at hin ⊢
  by_cases hout : map.toAddr.toNat < endaddr.toNat
  · rw [if_pos hout, if_pos hout]
    refine ⟨map.toAddr.toNat - maddr.toNat, by omega, ?_, by omega, fun i hi => by omega⟩
    exact wrapInt_sub (by omega) rfl (by omega)
  · rw [if_neg hout, if_neg hout]
    exact ⟨n, Nat.le_refl n, rfl, hend, fun i hi => by omega⟩

/-- The map holds the address `maddr + i`. -/
def RIOMap.Inside (m : RIOMap) (maddr : Ut64) (i : Nat) : Prop :=
  m.fromAddr.toNat ≤ maddr.toNat + i ∧ maddr.toNat + i < m.toAddr.toNat

/-- How many bytes of a transfer lie in front of the map. -/
def RIOMap.skipped (m : RIOMap) (maddr : Ut64) : Nat := m.fromAddr.toNat - maddr.toNat

/-- The bytes of a transfer that a map holds lie from the returned place on, in the returned number. -/
theorem mapPart_inside {m : RIOMap} {maddr : Ut64} {n : Nat} (hn : n < 2147483648) (hw : maddr.toNat + n < 18446744073709551616) :
    (mapPart m maddr n = none ∧ ∀ i < n, ¬m.Inside maddr i) ∨
      ∃ j : Nat, mapPart m maddr n = some (BitVec.ofNat 64 (m.skipped maddr), (j : Int)) ∧
        m.skipped maddr + j ≤ n ∧ ∀ i < n, m.Inside maddr i ↔ m.skipped maddr ≤ i ∧ i < m.skipped maddr + j := by
  have hend := toNat_add_ofNat hw
  rw [mapPart, BitVec.ofInt_natCast]
  generalize maddr + BitVec.ofNat 64 n = endaddr at hend
  dsimp only
  by_cases hout : endaddr > m.toAddr ∧ maddr > m.toAddr
  · refine Or.inl ⟨if_pos hout, ?_⟩
    intro i hi hin
    obtain ⟨-, hbelow⟩ := hin
    have hgt := BitVec.lt_def.mp hout.2
    omega
  · rw [if_neg hout]
    simp only [RIOMap.Inside, RIOMap.skipped]
    obtain ⟨k, hkn, hlen, hstop, hbelow⟩ := mapPart_clip hn hend hout
    rw [hlen, BitVec.ofInt_natCast]
    generalize (if endaddr > m.toAddr then m.toAddr else endaddr) = stop at hstop
    by_cases hbefore : maddr < m.fromAddr
    · rw [if_pos hbefore]
      rw [BitVec.lt_def] at hbefore
      have hd : (m.fromAddr - maddr).toNat = m.fromAddr.toNat - maddr.toNat :=
        BitVec.toNat_sub_of_le (by rw [BitVec.le_def]; omega)
      have hk : (BitVec.ofNat 64 k).toNat = k := by
        rw [BitVec.toNat_ofNat]
        omega
      by_cases hshort : stop < m.fromAddr ∨ BitVec.ofNat 64 k < m.fromAddr - maddr
      · rw [if_pos hshort]
        refine Or.inl ⟨rfl, ?_⟩
        intro i hi hin
        rw [BitVec.lt_def, BitVec.lt_def, hstop, hk, hd] at hshort
        have hik := (hbelow i hi).mp hin.2
        omega
      · rw [if_neg hshort]
        rw [BitVec.lt_def, BitVec.lt_def, hstop, hk, hd] at hshort
        refine Or.inr ⟨k - (m.fromAddr.toNat - maddr.toNat), ?_, by omega, ?_⟩
        · have hrest : wrapInt (BitVec.ofNat 64 k - (m.fromAddr - maddr)).toNat =
              ((k - (m.fromAddr.toNat - maddr.toNat) : Nat) : Int) :=
            wrapInt_sub (by omega) (by omega) (by omega)
          rw [hrest, ← hd, BitVec.ofNat_toNat, BitVec.setWidth_eq]
        · intro i hi
          rw [hbelow i hi]
          omega
    · rw [if_neg hbefore]
      rw [BitVec.lt_def] at hbefore
      have hzero : m.fromAddr.toNat - maddr.toNat = 0 := by omega
      refine Or.inr ⟨k, by rw [hzero]; rfl, by omega, ?_⟩
      intro i hi
      rw [hbelow i hi]
      omega

/-- The part of a read in a map lies in the read. -/
theorem mapPart_spec {map : RIOMap} {maddr d : Ut64} {n : Nat} {r : Int} (hn : n < 2147483648)
    (hw : maddr.toNat + n < 18446744073709551616) (h : mapPart map maddr n = some (d, r)) :
    ∃ k : Nat, r = k ∧ d.toNat + k ≤ n := by
  rcases mapPart_inside hn hw with ⟨hnone, -⟩ | ⟨j, hpart, hj, -⟩
  · rw [hnone] at h
    cases h
  · rw [hpart] at h
    obtain ⟨rfl, rfl⟩ := Prod.mk.inj (Option.some.inj h)
    refine ⟨j, rfl, ?_⟩
    rw [BitVec.toNat_ofNat]
    omega

/-- The bytes of a buffer outside a part of it are as before. -/
def SameOutside (buf out : List Ut8) (p n : Nat) : Prop :=
  out.length = buf.length ∧ ∀ i, i < p ∨ p + n ≤ i → out[i]? = buf[i]?

theorem SameOutside.refl (buf : List Ut8) (p n : Nat) : SameOutside buf buf p n :=
  ⟨rfl, fun _ _ => rfl⟩

theorem SameOutside.trans {buf out out' : List Ut8} {p n : Nat} (h : SameOutside buf out p n)
    (h' : SameOutside out out' p n) : SameOutside buf out' p n :=
  ⟨h'.1.trans h.1, fun i hi => (h'.2 i hi).trans (h.2 i hi)⟩

/-- A store inside the buffer. -/
theorem store_total (buf bs : List Ut8) (p : Ut64) (q n : Nat)
    (hbs : bs = [] ∨ q ≤ p.toNat ∧ p.toNat + bs.length ≤ q + n) (hq : q + n ≤ buf.length) :
    ∃ out, store buf p bs = some out ∧ SameOutside buf out q n := by
  rw [store]
  by_cases hnil : bs = []
  · rw [if_pos hnil]
    exact ⟨buf, rfl, SameOutside.refl buf q n⟩
  · rcases hbs with hbs | ⟨hlo, hhi⟩
    · exact absurd hbs hnil
    · rw [if_neg hnil, if_pos (by omega)]
      refine ⟨_, rfl, blit_length buf p.toNat bs (by omega), ?_⟩
      intro i hi
      rw [blit_getElem? buf p.toNat bs i (by omega)]
      split_ifs
      · rfl
      · omega
      · rfl

/-- The length of a read that does not reach over the top of the addresses. -/
theorem mread_clip (maddr : Ut64) {n : Nat} (hn : n < 2147483648) :
    ∃ k ≤ n, (if ut64Max - BitVec.ofInt 64 n < maddr then wrapInt (ut64Max - maddr).toNat
      else (n : Int)) = k ∧ maddr.toNat + k < 18446744073709551616 ∧
      (k = n ∨ maddr.toNat + k = 18446744073709551615) := by
  have hmax := toNat_ut64Max
  have hlt := maddr.isLt
  have hroom : (ut64Max - BitVec.ofInt 64 n).toNat = 18446744073709551615 - n := by
    rw [BitVec.ofInt_natCast, BitVec.toNat_sub_of_le, hmax, BitVec.toNat_ofNat]
    · omega
    · rw [BitVec.le_def, hmax, BitVec.toNat_ofNat]
      omega
  by_cases hover : ut64Max - BitVec.ofInt 64 n < maddr
  · rw [if_pos hover]
    rw [BitVec.lt_def, hroom] at hover
    exact ⟨18446744073709551615 - maddr.toNat, by omega, wrapInt_sub (by omega) (by omega) (by omega),
      by omega, Or.inr (by omega)⟩
  · rw [if_neg hover]
    rw [BitVec.lt_def, hroom] at hover
    exact ⟨n, Nat.le_refl n, rfl, by omega, Or.inl rfl⟩

/-- The descriptor that was current is put back. -/
theorem Seeked.restore {io io' : RIO} {desc : Option Nat} (h : Seeked { io with desc := desc } io') :
    Seeked io { io' with desc := io.desc } := by
  obtain ⟨⟨⟨off, files, desc', rfl⟩, hc⟩, -⟩ := h
  exact ⟨⟨⟨off, files, io.desc, rfl⟩, hc⟩, rfl⟩

/-- A read through the maps stays in its part of the buffer. -/
theorem rIoMread_total (readers : RIOReaders) (io : RIO) (fd : Int) (maddr : Ut64) (buf : List Ut8)
    {p : Ut64} {n : Nat} (hb : io.bufferEnabled = false) (hn : n < 2147483648)
    (hp : p.toNat + n ≤ buf.length) (hbuf : buf.length < 2147483648) :
    ∃ r out io', rIoMread readers io fd maddr buf p n = some (r, out, io') ∧
      SameOutside buf out p.toNat n ∧ Seeked io io' := by
  have hsame := SameOutside.refl buf p.toNat n
  rw [rIoMread, if_neg (by omega)]
  obtain ⟨k, hkn, hk, hw, -⟩ := mread_clip maddr hn
  rw [hk]
  dsimp only
  cases hmap : (rIoMapResolveInRange io maddr (maddr + BitVec.ofInt 64 k) fd).or (rIoMapResolve io fd) with
  | none => exact ⟨_, _, _, rfl, hsame, Seeked.refl io⟩
  | some map =>
    cases hpart : mapPart map maddr k with
    | none =>
      dsimp only
      rw [hpart]
      exact ⟨_, _, _, rfl, hsame, Seeked.refl io⟩
    | some part =>
      obtain ⟨d, m⟩ := part
      obtain ⟨j, rfl, hj⟩ := mapPart_spec (by omega) hw hpart
      dsimp only
      rw [hpart]
      dsimp only
      cases hdesc : rIoDescGet io fd with
      | none => exact ⟨_, _, _, rfl, hsame, Seeked.refl io⟩
      | some i =>
        dsimp only
        rw [Int.toNat_natCast]
        obtain ⟨hbytes, hkept⟩ := rIoPread_total readers { io with desc := some i }
          (maddr + d - map.fromAddr + map.delta) j hb (by omega)
        generalize rIoPread readers { io with desc := some i }
          (maddr + d - map.fromAddr + map.delta) j = r at hbytes hkept
        have hpd : (p + d).toNat = p.toNat + d.toNat := by
          rw [BitVec.toNat_add, Nat.mod_eq_of_lt (by omega)]
        obtain ⟨out, hout, hsame'⟩ := store_total buf r.2.1 (p + d) p.toNat n (by
            rcases hbytes with hnil | hlen
            · exact Or.inl hnil
            · exact Or.inr ⟨by omega, by omega⟩) hp
        rw [hout]
        exact ⟨_, _, _, rfl, hsame', hkept.restore⟩

theorem vreadMaps_total (readers : RIOReaders) (maps : List RIOMap) (vaddr : Ut64) {io : RIO}
    {buf : List Ut8} {p : Ut64} {n : Nat} (hb : io.bufferEnabled = false) (hn : n < 2147483648)
    (hp : p.toNat + n ≤ buf.length) (hbuf : buf.length < 2147483648) :
    ∃ r, vreadMaps readers maps vaddr p n io buf = some r ∧ SameOutside buf r.1 p.toNat n ∧
      Seeked io r.2 := by
  have hfold : ∀ (maps : List RIOMap) (r : List Ut8 × RIO), SameOutside buf r.1 p.toNat n → Seeked io r.2 →
      ∃ r', maps.foldlM (fun (r : List Ut8 × RIO) m =>
        (rIoMread readers r.2 m.fd vaddr r.1 p n).map (·.2)) r = some r' ∧
        SameOutside buf r'.1 p.toNat n ∧ Seeked io r'.2 := by
    intro maps
    induction maps with
    | nil => exact fun r hs hk => ⟨r, rfl, hs, hk⟩
    | cons m maps ih =>
      intro r hs hk
      have hlen := hs.1
      obtain ⟨x, out, io', hread, hsame, hkept⟩ := rIoMread_total readers r.2 m.fd vaddr r.1
        (p := p) (hk.moved.bufferEnabled.trans hb) hn (by omega) (by omega)
      obtain ⟨r', hrun, h'⟩ := ih (out, io') (hs.trans hsame) (hk.trans hkept)
      refine ⟨r', ?_, h'⟩
      rw [List.foldlM_cons, hread]
      exact hrun
  obtain ⟨r, hrun, hs, hk⟩ := hfold maps (buf, io) (SameOutside.refl buf p.toNat n) (Seeked.refl io)
  have hlen := hs.1
  simp only [vreadMaps, hrun, Option.bind_eq_bind, Option.bind_some]
  cases hcur : r.2.curDesc with
  | none => exact ⟨r, rfl, hs, hk⟩
  | some d =>
    obtain ⟨x, out, io', hread, hsame, hkept⟩ := rIoMread_total readers r.2 d.fd vaddr r.1
      (p := p) (hk.moved.bufferEnabled.trans hb) hn (by omega) (by omega)
    dsimp only
    rw [hread]
    exact ⟨(out, io'), rfl, hs.trans hsame, hk.trans hkept⟩

/-- The descriptor `fd` is open on a file with these contents. -/
def HasFile (io : RIO) (fd : Int) (content : List Ut8) : Prop :=
  ∃ i d, rIoDescGet io fd = some i ∧ io.files[i]? = some d ∧ d.data.buf = content

theorem HasFile.of_moved {io io' : RIO} {fd : Int} {content : List Ut8} (h : HasFile io fd content)
    (hm : Moved io io') : HasFile io' fd content := by
  have hget : ∀ io : RIO, rIoDescGet io fd =
      if fd < 0 then none else io.contents.findIdx? (fun x => x.1 = fd) := by
    intro io
    rw [rIoDescGet, RIO.contents, List.findIdx?_map]
    rfl
  obtain ⟨i, d, hi, hd, rfl⟩ := h
  have hat : io'.contents[i]? = some (d.fd, d.data.buf) := by
    rw [hm.contents, RIO.contents, List.getElem?_map, hd, Option.map_some]
  rw [ RIO.contents, List.getElem?_map] at hat
  obtain ⟨d', hd', heq⟩ := Option.map_eq_some_iff.mp hat
  refine ⟨i, d', ?_, hd', (Prod.mk.inj heq).2⟩
  rw [hget, hm.contents, ← hget, hi]

theorem prepend_subset (io : RIO) (addr endaddr : Ut64) :
    ∀ m ∈ rIoMapGetMapsInRangePrepend io addr endaddr, m ∈ io.maps := by
  have hfold : ∀ (maps acc : List RIOMap), ∀ m ∈ maps.foldl (fun acc m =>
      let acc := if m.fromAddr ≤ addr ∧ addr < m.toAddr then acc ++ [m] else acc
      let acc := if m.fromAddr < endaddr ∧ endaddr < m.toAddr then m :: acc else acc
      if addr ≤ m.fromAddr ∧ m.toAddr ≤ endaddr then m :: acc else acc) acc, m ∈ acc ∨ m ∈ maps := by
    intro maps
    induction maps with
    | nil => exact fun acc m hm => Or.inl hm
    | cons x maps ih =>
      intro acc m hm
      rcases ih _ m hm with hacc | hmaps
      · have hor : m ∈ acc ∨ m = x := by
          dsimp only at hacc
          split_ifs at hacc
          all_goals simp [or_comm] at hacc ⊢
          all_goals tauto
        rcases hor with h | h
        · exact Or.inl h
        · exact Or.inr (h ▸ List.mem_cons_self)
      · exact Or.inr (List.mem_cons_of_mem _ hmaps)
  intro m hm
  rcases hfold io.maps [] m hm with h | h
  · cases h
  · exact h

/-- The one map of a descriptor is found for it. -/
theorem resolve_unique {io : RIO} {fd : Int} {m : RIOMap} (hm : m ∈ io.maps) (hfd : m.fd = fd)
    (honly : ∀ m' ∈ io.maps, m'.fd = fd → m' = m) (addr endaddr : Ut64) :
    (rIoMapResolveInRange io addr endaddr fd).or (rIoMapResolve io fd) = some m := by
  have hres : rIoMapResolve io fd = some m := by
    cases hf : rIoMapResolve io fd with
    | none =>
      rw [rIoMapResolve, List.find?_eq_none] at hf
      exact absurd (by simpa using hfd) (hf m hm)
    | some m' =>
      have hp := List.find?_some hf
      rw [honly m' (List.mem_of_find?_eq_some hf) (by simpa using hp)]
  cases hf : rIoMapResolveInRange io addr endaddr fd with
  | none => exact hres
  | some m' =>
    have hp := List.find?_some hf
    have hmem := prepend_subset io addr endaddr m' (List.mem_of_find?_eq_some hf)
    rw [honly m' hmem (by simpa using hp)]
    rfl

theorem rIoSeek_curDesc {io : RIO} {d : RIODesc} {x : Ut64} (hb : io.bufferEnabled = false)
    (hd : io.curDesc = some d) (hx : seekTarget io x ≠ ut64Max) :
    (rIoSeek io x .set).2.curDesc =
      some { d with data := { d.data with offset := d.data.clamp (seekTarget io x) } } := by
  rw [rIoSeek, hb, if_neg Bool.false_ne_true, if_neg hx, hd]
  dsimp only
  rw [if_pos rfl]
  cases hi : io.desc with
  | none =>
    rw [ RIO.curDesc, hi] at hd
    cases hd
  | some i =>
    have hat : io.files[i]? = some d := by
      rw [ RIO.curDesc, hi] at hd
      exact hd
    simp only [ RIO.curDesc, RIO.setData, hi, Option.bind_some, List.getElem?_modify, hat]
    simp
    rfl

/-- The bytes of a file from a place on; behind its end a read leaves `0xff`. -/
def fileBytes (content : List Ut8) (p n : Nat) : List Ut8 :=
  (List.range n).map (fun k => content[p + k]?.getD 0xff)

@[simp] theorem fileBytes_length (content : List Ut8) (p n : Nat) : (fileBytes content p n).length = n := by
  simp [fileBytes]

theorem fileBytes_getElem? (content : List Ut8) (p : Nat) {n k : Nat} (hk : k < n) :
    (fileBytes content p n)[k]? = some (content[p + k]?.getD 0xff) := by
  simp [fileBytes, hk]

theorem read_clamp_bytes (m : RIOMalloc) (t : Ut64) (n : Nat) (hn : n < 2147483648) :
    (RIOMalloc.read { m with offset := m.clamp t } n).2 = fileBytes m.buf t.toNat n := by
  have hs : m.size = m.buf.length := rfl
  rw [m.read_clamp t n hn]
  apply List.ext_getElem?
  intro k
  have hf : m.found t.toNat n = min n (m.size - t.toNat) := rfl
  have hlen : ((m.buf.drop t.toNat).take (m.found t.toNat n)).length = m.found t.toNat n := by
    rw [List.length_take, List.length_drop]
    omega
  simp only [List.getElem?_append, hlen]
  by_cases hk : k < n
  · rw [fileBytes_getElem? _ _ hk]
    by_cases hin : k < m.found t.toNat n
    · have hplace : t.toNat + k < m.buf.length := by omega
      rw [if_pos hin, List.getElem?_take_of_lt hin, List.getElem?_drop, List.getElem?_eq_getElem hplace]
      simp
    · have hplace : m.buf.length ≤ t.toNat + k := by omega
      rw [if_neg hin, List.getElem?_eq_none hplace, List.getElem?_replicate_of_lt (by omega)]
      simp
  · have hin : ¬k < m.found t.toNat n := by omega
    have hout : (fileBytes m.buf t.toNat n)[k]? = none := by
      rw [List.getElem?_eq_none]
      simp
      omega
    rw [if_neg hin, hout, List.getElem?_eq_none]
    simp
    omega

/-- A read at a place that no section moves. -/
theorem rIoPread_file (readers : RIOReaders) (io : RIO) {d : RIODesc} {paddr : Ut64} {n : Nat}
    (hb : io.bufferEnabled = false) (hd : io.curDesc = some d) (hseek : seekTarget io paddr = paddr)
    (hmax : paddr ≠ ut64Max) (hn : n < 2147483648) :
    (rIoPread readers io paddr n).2.1 = fileBytes d.data.buf paddr.toNat n := by
  have hcur := rIoSeek_curDesc (x := paddr) hb hd (by rw [hseek]; exact hmax)
  have hkept := (rIoSeek_seeked io paddr .set).moved.bufferEnabled
  rw [rIoPread, if_neg hmax]
  dsimp only
  rw [if_neg (by rw [hkept, hb]; exact Bool.false_ne_true), hcur, hseek]
  exact read_clamp_bytes d.data paddr n hn

theorem Moved.resolve {io io' : RIO} (h : Moved io io') (addr endaddr : Ut64) (fd : Int) :
    (rIoMapResolveInRange io' addr endaddr fd).or (rIoMapResolve io' fd) =
      (rIoMapResolveInRange io addr endaddr fd).or (rIoMapResolve io fd) := by
  obtain ⟨⟨off, files, desc, rfl⟩, -⟩ := h
  rfl

theorem Moved.seekTarget {io io' : RIO} (h : Moved io io') (x : Ut64) : seekTarget io' x = seekTarget io x := by
  obtain ⟨⟨off, files, desc, rfl⟩, -⟩ := h
  rfl

/-- The place in the file of an address that a map holds. -/
def mapPlace (m : RIOMap) (maddr : Nat) : Nat := maddr - m.fromAddr.toNat + m.delta.toNat

/-- All the bytes are in the map. -/
structure MapHolds (m : RIOMap) (maddr : Ut64) (n : Nat) : Prop where
  first : m.fromAddr.toNat ≤ maddr.toNat
  last : maddr.toNat + n ≤ m.toAddr.toNat

theorem MapHolds.part {m : RIOMap} {maddr : Ut64} {n : Nat} (h : MapHolds m maddr n) :
    mapPart m maddr n = some (0, (n : Int)) := by
  have hfirst := h.first
  have hlast := h.last
  have hlt := m.toAddr.isLt
  have hend : (maddr + BitVec.ofNat 64 n).toNat = maddr.toNat + n := toNat_add_ofNat (by omega)
  have hin : ¬maddr + BitVec.ofNat 64 n > m.toAddr := by
    rw [gt_iff_lt, BitVec.lt_def, hend]
    omega
  have hstart : ¬maddr < m.fromAddr := by
    rw [BitVec.lt_def]
    omega
  rw [mapPart, BitVec.ofInt_natCast]
  simp only [hin, hstart, false_and, if_false]

theorem MapHolds.place {m : RIOMap} {maddr : Ut64} {n : Nat} (h : MapHolds m maddr n)
    (hplaces : m.delta.toNat + (m.toAddr.toNat - m.fromAddr.toNat) < 18446744073709551616) :
    (maddr - m.fromAddr + m.delta).toNat = mapPlace m maddr.toNat := by
  have hfirst := h.first
  have hlast := h.last
  have hsub : (maddr - m.fromAddr).toNat = maddr.toNat - m.fromAddr.toNat :=
    BitVec.toNat_sub_of_le (by rw [BitVec.le_def]; omega)
  rw [BitVec.toNat_add, hsub, mapPlace]
  omega

/-- A read through a map that holds it all. -/
theorem rIoMread_file (readers : RIOReaders) {io : RIO} {fd : Int} {content : List Ut8} {m : RIOMap}
    {maddr : Ut64} {n : Nat} (buf : List Ut8) {p : Ut64} (hb : io.bufferEnabled = false)
    (hfile : HasFile io fd content) (hn : n < 2147483648) (hp : p.toNat + n ≤ buf.length)
    (hm : MapHolds m maddr n)
    (hres : (rIoMapResolveInRange io maddr (maddr + BitVec.ofNat 64 n) fd).or (rIoMapResolve io fd) = some m)
    (hseek : seekTarget io (maddr - m.fromAddr + m.delta) = maddr - m.fromAddr + m.delta)
    (hmax : maddr - m.fromAddr + m.delta ≠ ut64Max) :
    ∃ r io', rIoMread readers io fd maddr buf p n =
        some (r, blit buf p.toNat (fileBytes content (maddr - m.fromAddr + m.delta).toNat n), io') ∧ Seeked io io' := by
  obtain ⟨i, d, hi, hd, rfl⟩ := hfile
  have hlast := hm.last
  have hlt := m.toAddr.isLt
  have hroom : ¬ut64Max - BitVec.ofInt 64 n < maddr := by
    have hsub : (ut64Max - BitVec.ofNat 64 n).toNat = 18446744073709551615 - n := by
      have hof : (BitVec.ofNat 64 n).toNat = n := by
        rw [BitVec.toNat_ofNat]
        omega
      rw [BitVec.toNat_sub_of_le (by rw [BitVec.le_def, toNat_ut64Max, hof]; omega), toNat_ut64Max, hof]
    rw [BitVec.ofInt_natCast, BitVec.lt_def, hsub]
    omega
  have hcur : RIO.curDesc { io with desc := some i } = some d := hd
  have hbytes := rIoPread_file readers { io with desc := some i } hb hcur hseek hmax hn
  obtain ⟨-, hseeked⟩ := rIoPread_total readers { io with desc := some i }
    (maddr - m.fromAddr + m.delta) n hb hn
  rw [rIoMread, if_neg (by omega), if_neg hroom]
  dsimp only
  rw [BitVec.ofInt_natCast, hres]
  dsimp only
  rw [hm.part]
  dsimp only
  rw [hi]
  dsimp only
  have hzero : ∀ x : Ut64, x + 0 = x := by simp
  rw [Int.toNat_natCast, hzero maddr, hzero p, hbytes, store]
  by_cases hnil : fileBytes d.data.buf (maddr - m.fromAddr + m.delta).toNat n = []
  · have hsame : blit buf p.toNat [] = buf := by simp [blit]
    rw [if_pos hnil, hnil, hsame]
    exact ⟨_, _, rfl, hseeked.restore⟩
  · rw [if_neg hnil, if_pos (by rw [fileBytes_length]; exact hp)]
    exact ⟨_, _, rfl, hseeked.restore⟩

end Radare
