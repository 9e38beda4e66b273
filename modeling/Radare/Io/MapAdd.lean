import Radare.Io.Map

namespace Radare

/-- `r_io_map_new` refuses a map that would end past the address space. -/
def rIoMapNew (io : RIO) (fd : Int) (delta addr size : Ut64) : Option (RIOMap × RIO) :=
  if ut64Max - size < addr then none
  else
    let m : RIOMap := ⟨fd, delta, addr, addr + size⟩
    some (m, { io with maps := io.maps ++ [m] })

/-- A request is refused when one of its two ends lies in a map of the descriptor. -/
def rIoMapAdd (io : RIO) (fd : Int) (delta addr size : Ut64) : Option (RIOMap × RIO) :=
  if io.maps.any (fun m => m.fd = fd && (m.has addr || m.has (addr + size))) then none
  else rIoMapNew io fd delta addr size

/-- The first multiple of the alignment above the end of the map. -/
def RIOMap.alignedEnd (m : RIOMap) (loadAlign : Ut64) : Ut64 :=
  m.toAddr + (loadAlign - m.toAddr % loadAlign)

/-- The address the loop tries, `next_addr`. -/
def RIOMap.behind (m : RIOMap) (addr loadAlign : Ut64) : Ut64 :=
  if addr > m.alignedEnd loadAlign then addr else m.alignedEnd loadAlign

/-- Both branches of the loop body leave it, so it sees the first map only. The call recurses, and
`none` is a call that has not returned within the fuel. -/
def rIoMapAddNextAvailable : Nat → RIO → Int → Ut64 → Ut64 → Ut64 → Ut64 →
    Option (Option (RIOMap × RIO))
  | 0, _, _, _, _, _, _ => none
  | fuel + 1, io, fd, delta, addr, size, loadAlign =>
    match io.maps with
    | [] => some (rIoMapNew io fd delta addr size)
    | m :: _ =>
      if m.fd = fd && (m.has (m.behind addr loadAlign) || m.has (addr + size)) then
        rIoMapAddNextAvailable fuel io fd delta (m.alignedEnd loadAlign) size loadAlign
      else some (rIoMapNew io fd delta (m.behind addr loadAlign) size)

inductive MapOp where
  | add (fd : Int) (delta addr size : Ut64)
  | addNext (fd : Int) (delta addr size loadAlign : Ut64)

/-- The call returns a map. -/
def MapOp.Succeeds (io io' : RIO) : MapOp → Prop
  | .add fd delta addr size => ∃ m, rIoMapAdd io fd delta addr size = some (m, io')
  | .addNext fd delta addr size loadAlign =>
    ∃ fuel m, rIoMapAddNextAvailable fuel io fd delta addr size loadAlign = some (some (m, io'))

/-- The sizes are positive, and neither the end of the request nor the aligned end of the map the
call looks at wraps. -/
def MapOp.NoWrap (io : RIO) : MapOp → Prop
  | .add _ _ addr size => 0 < size.toNat ∧ addr.toNat + size.toNat < 18446744073709551616
  | .addNext _ _ addr size loadAlign => 0 < size.toNat ∧ 0 < loadAlign.toNat ∧
    addr.toNat + size.toNat < 18446744073709551616 ∧
    ∀ m ∈ io.maps.head?,
      m.toAddr.toNat + (loadAlign.toNat - m.toAddr.toNat % loadAlign.toNat) < 18446744073709551616

/-- A call and the state it meets. -/
structure MapCall where
  before : RIO
  op : MapOp

/-- A run of successful calls. -/
inductive MapRun : RIO → List MapCall → RIO → Prop
  | nil (io : RIO) : MapRun io [] io
  | step {io io₁ io' : RIO} {op : MapOp} {calls : List MapCall}
      (hop : op.Succeeds io io₁) (hrun : MapRun io₁ calls io') : MapRun io (⟨io, op⟩ :: calls) io'

/-- No two maps of one descriptor share an address. -/
def MapsDisjoint (maps : List RIOMap) : Prop :=
  maps.Pairwise (fun m n => m.fd = n.fd → ∀ x, ¬ (m.has x = true ∧ n.has x = true))

/-- What neither call looks at: a map of the descriptor that lies wholly inside the range, and
for `r_io_map_add_next_available` the maps behind the first. -/
def MapOp.Fits (io : RIO) : MapOp → Prop
  | .add fd _ addr size =>
    ∀ m ∈ io.maps, m.fd = fd → ¬ (addr < m.fromAddr ∧ m.toAddr ≤ addr + size)
  | .addNext fd _ addr size loadAlign =>
    match io.maps with
    | [] => True
    | first :: rest => ∀ m ∈ rest, m.fd = fd →
      ¬ (m.fromAddr < first.behind addr loadAlign + size ∧ first.behind addr loadAlign < m.toAddr)

theorem RIOMap.has_iff (m : RIOMap) (x : Ut64) :
    m.has x = true ↔ m.fromAddr.toNat ≤ x.toNat ∧ x.toNat < m.toAddr.toNat := by
  simp [RIOMap.has, BitVec.le_def, BitVec.lt_def]

/-- What both calls come down to: one map is appended, and it does not wrap. -/
structure AppendsMap (io io' : RIO) (fd : Int) (addr size : Ut64) : Prop where
  appended : ∃ delta, io'.maps = io.maps ++ [⟨fd, delta, addr, addr + size⟩]
  fits : addr.toNat + size.toNat < 18446744073709551616

theorem rIoMapNew_appends {io io' : RIO} {fd : Int} {delta addr size : Ut64} {m : RIOMap}
    (h : rIoMapNew io fd delta addr size = some (m, io')) : AppendsMap io io' fd addr size := by
  rw [rIoMapNew] at h
  split at h
  · cases h
  · next hfit =>
    obtain ⟨rfl, rfl⟩ := Prod.mk.inj (Option.some.inj h)
    refine ⟨⟨delta, rfl⟩, ?_⟩
    have hs := size.isLt
    have hsub : (ut64Max - size).toNat = 18446744073709551615 - size.toNat := by
      rw [BitVec.toNat_sub_of_le (by rw [BitVec.le_def, toNat_ut64Max]; omega), toNat_ut64Max]
    rw [BitVec.lt_def, hsub] at hfit
    omega

/-- The aligned end lies above the map. -/
theorem RIOMap.lt_alignedEnd (m : RIOMap) (loadAlign : Ut64) (ha : 0 < loadAlign.toNat)
    (hw : m.toAddr.toNat + (loadAlign.toNat - m.toAddr.toNat % loadAlign.toNat) <
      18446744073709551616) :
    m.toAddr.toNat < (m.alignedEnd loadAlign).toNat := by
  have hmod := Nat.mod_lt m.toAddr.toNat ha
  have hsub : (loadAlign - m.toAddr % loadAlign).toNat =
      loadAlign.toNat - m.toAddr.toNat % loadAlign.toNat := by
    rw [BitVec.toNat_sub_of_le (by rw [BitVec.le_def, BitVec.toNat_umod]; omega),
      BitVec.toNat_umod]
  rw [RIOMap.alignedEnd, BitVec.toNat_add, hsub, Nat.mod_eq_of_lt (by omega)]
  omega

theorem RIOMap.alignedEnd_le_behind (m : RIOMap) (addr loadAlign : Ut64) :
    (m.alignedEnd loadAlign).toNat ≤ (m.behind addr loadAlign).toNat := by
  rw [RIOMap.behind]
  split
  · next h =>
    rw [gt_iff_lt, BitVec.lt_def] at h
    omega
  · exact le_refl _

theorem RIOMap.behind_alignedEnd (m : RIOMap) (addr loadAlign : Ut64)
    (h : addr.toNat ≤ (m.alignedEnd loadAlign).toNat) :
    m.behind addr loadAlign = m.alignedEnd loadAlign := by
  rw [RIOMap.behind, if_neg]
  rw [gt_iff_lt, BitVec.lt_def]
  omega

/-- A call that already starts at the aligned end of the first map adds its map there, however
often it recurses. -/
theorem addNextAvailable_retry (fuel : Nat) {io io' : RIO} {first : RIOMap} {rest : List RIOMap}
    (hmaps : io.maps = first :: rest) (fd : Int) (delta size loadAlign : Ut64) {m : RIOMap}
    (h : rIoMapAddNextAvailable fuel io fd delta (first.alignedEnd loadAlign) size loadAlign =
      some (some (m, io'))) :
    rIoMapNew io fd delta (first.alignedEnd loadAlign) size = some (m, io') := by
  induction fuel with
  | zero => cases h
  | succ fuel ih =>
    rw [rIoMapAddNextAvailable, hmaps] at h
    simp only at h
    split at h
    · exact ih h
    · rw [first.behind_alignedEnd _ _ (le_refl _)] at h
      exact Option.some.inj h

/-- The map goes behind the first one, whichever way the call takes. -/
theorem addNextAvailable_cons {fuel : Nat} {io io' : RIO} {first : RIOMap} {rest : List RIOMap}
    (hmaps : io.maps = first :: rest) (fd : Int) (delta addr size loadAlign : Ut64) {m : RIOMap}
    (ha : 0 < loadAlign.toNat) (hend : addr.toNat + size.toNat < 18446744073709551616)
    (hw : first.toAddr.toNat + (loadAlign.toNat - first.toAddr.toNat % loadAlign.toNat) <
      18446744073709551616)
    (h : rIoMapAddNextAvailable fuel io fd delta addr size loadAlign = some (some (m, io'))) :
    rIoMapNew io fd delta (first.behind addr loadAlign) size = some (m, io') := by
  cases fuel with
  | zero => cases h
  | succ fuel =>
    rw [rIoMapAddNextAvailable, hmaps] at h
    simp only at h
    split at h
    · next hc =>
      have habove := first.lt_alignedEnd loadAlign ha hw
      have hbehind := first.alignedEnd_le_behind addr loadAlign
      have hnot : first.has (first.behind addr loadAlign) = false := by
        rw [Bool.eq_false_iff]
        intro hhas
        have := (first.has_iff _).mp hhas
        omega
      rw [hnot, Bool.false_or, Bool.and_eq_true] at hc
      have hin := (first.has_iff _).mp hc.2
      rw [BitVec.toNat_add, Nat.mod_eq_of_lt hend] at hin
      rw [first.behind_alignedEnd addr loadAlign (by omega)]
      exact addNextAvailable_retry fuel hmaps fd delta size loadAlign h
    · exact Option.some.inj h

/-- The range a successful call maps. -/
def MapOp.place (io : RIO) : MapOp → Int × Ut64 × Ut64
  | .add fd _ addr size => (fd, addr, size)
  | .addNext fd _ addr size loadAlign =>
    (fd, match io.maps with
      | [] => addr
      | first :: _ => first.behind addr loadAlign, size)

theorem MapOp.Succeeds.appends {io io' : RIO} {op : MapOp} (h : op.Succeeds io io')
    (hw : op.NoWrap io) :
    AppendsMap io io' (op.place io).1 (op.place io).2.1 (op.place io).2.2 := by
  cases op with
  | add fd delta addr size =>
    obtain ⟨m, hadd⟩ := h
    rw [rIoMapAdd] at hadd
    split at hadd
    · cases hadd
    · exact rIoMapNew_appends hadd
  | addNext fd delta addr size loadAlign =>
    obtain ⟨fuel, m, hadd⟩ := h
    obtain ⟨-, ha, hend, hall⟩ := hw
    cases hmaps : io.maps with
    | nil =>
      cases fuel with
      | zero => cases hadd
      | succ fuel =>
        rw [rIoMapAddNextAvailable, hmaps] at hadd
        simpa [MapOp.place, hmaps] using rIoMapNew_appends (Option.some.inj hadd)
    | cons first rest =>
      have hnew := addNextAvailable_cons hmaps fd delta addr size loadAlign ha hend
        (hall first (by simp [hmaps])) hadd
      simpa [MapOp.place, hmaps] using rIoMapNew_appends hnew

theorem MapOp.NoWrap.size_pos {io : RIO} {op : MapOp} (hw : op.NoWrap io) :
    0 < (op.place io).2.2.toNat := by
  cases op with
  | add fd delta addr size => exact hw.1
  | addNext fd delta addr size loadAlign => exact hw.1

/-- Two ranges that are not empty share an address exactly when each starts before the other
ends. -/
theorem RIOMap.apart_iff (m n : RIOMap) (hm : m.fromAddr.toNat < m.toAddr.toNat)
    (hn : n.fromAddr.toNat < n.toAddr.toNat) :
    (∀ x, ¬ (m.has x = true ∧ n.has x = true)) ↔
      ¬ (m.fromAddr.toNat < n.toAddr.toNat ∧ n.fromAddr.toNat < m.toAddr.toNat) := by
  simp only [RIOMap.has_iff]
  constructor
  · intro hno hmeet
    -- the later of the two starts lies in both
    by_cases h : m.fromAddr.toNat ≤ n.fromAddr.toNat
    · exact hno n.fromAddr (by omega)
    · exact hno m.fromAddr (by omega)
  · intro hno x hx
    omega

/-- The new map meets no map of its descriptor exactly when the call fits. -/
theorem MapOp.Succeeds.apart_iff_fits {io io' : RIO} {op : MapOp} (h : op.Succeeds io io')
    (hw : op.NoWrap io) (hne : ∀ m ∈ io.maps, m.fromAddr.toNat < m.toAddr.toNat) :
    (∀ m ∈ io.maps, m.fd = (op.place io).1 →
      ¬ (m.fromAddr.toNat < ((op.place io).2.1 + (op.place io).2.2).toNat ∧
        (op.place io).2.1.toNat < m.toAddr.toNat)) ↔ op.Fits io := by
  have hfits := (h.appends hw).fits
  cases op with
  | add fd delta addr size =>
    obtain ⟨m, hadd⟩ := h
    rw [rIoMapAdd] at hadd
    split at hadd
    · cases hadd
    · next hany =>
      have hnone : ∀ n ∈ io.maps, n.fd = fd → n.has addr = false ∧ n.has (addr + size) = false := by
        simpa using hany
      apply forall₃_congr
      intro n hn hfd
      obtain ⟨hstart, hstop⟩ := hnone n hn hfd
      have hlen := hne n hn
      rw [Bool.eq_false_iff, ne_eq, n.has_iff] at hstart hstop
      simp only [MapOp.place, BitVec.lt_def, BitVec.le_def]
      omega
  | addNext fd delta addr size loadAlign =>
    obtain ⟨-, ha, hend, hall⟩ := hw
    cases hmaps : io.maps with
    | nil => simp [MapOp.Fits, hmaps]
    | cons first rest =>
      have habove := first.lt_alignedEnd loadAlign ha (hall first (by simp [hmaps]))
      have hbehind := first.alignedEnd_le_behind addr loadAlign
      simp only [MapOp.Fits, MapOp.place, hmaps, List.forall_mem_cons, BitVec.lt_def]
      constructor
      · exact fun hno => hno.2
      · exact fun hno => ⟨fun _ => by omega, hno⟩

theorem mapsDisjoint_append (maps : List RIOMap) (n : RIOMap) :
    MapsDisjoint (maps ++ [n]) ↔ MapsDisjoint maps ∧
      ∀ m ∈ maps, m.fd = n.fd → ∀ x, ¬ (m.has x = true ∧ n.has x = true) := by
  simp [MapsDisjoint, List.pairwise_append]

/-- One call keeps the maps of each descriptor apart exactly when it fits, and adds no empty map. -/
theorem MapOp.Succeeds.disjoint_iff {io io' : RIO} {op : MapOp} (h : op.Succeeds io io')
    (hw : op.NoWrap io) (hne : ∀ m ∈ io.maps, m.fromAddr.toNat < m.toAddr.toNat) :
    (MapsDisjoint io'.maps ↔ MapsDisjoint io.maps ∧ op.Fits io) ∧
      ∀ m ∈ io'.maps, m.fromAddr.toNat < m.toAddr.toNat := by
  obtain ⟨⟨delta, hmaps⟩, hfit⟩ := h.appends hw
  have hpos := hw.size_pos
  have hend := BitVec.toNat_add (op.place io).2.1 (op.place io).2.2
  rw [Nat.mod_eq_of_lt hfit] at hend
  constructor
  · rw [hmaps, mapsDisjoint_append, ← h.apart_iff_fits hw hne]
    apply and_congr_right
    intro _
    apply forall₃_congr
    intro m hm _
    exact m.apart_iff _ (hne m hm) (by simp only [hend]; omega)
  · intro m hm
    rw [hmaps, List.mem_append, List.mem_singleton] at hm
    rcases hm with hm | rfl
    · exact hne m hm
    · simp only [hend]
      omega

theorem MapRun.disjoint_iff {io io' : RIO} {calls : List MapCall} (h : MapRun io calls io')
    (hw : ∀ c ∈ calls, c.op.NoWrap c.before)
    (hne : ∀ m ∈ io.maps, m.fromAddr.toNat < m.toAddr.toNat) :
    MapsDisjoint io'.maps ↔ MapsDisjoint io.maps ∧ ∀ c ∈ calls, c.op.Fits c.before := by
  induction h with
  | nil io => simp
  | step hop hrun ih =>
    obtain ⟨hstep, hne'⟩ := hop.disjoint_iff (hw _ List.mem_cons_self) hne
    rw [ih (fun c hc => hw c (by simp [hc])) hne', hstep, List.forall_mem_cons, and_assoc]

/-- A run of successful calls leaves the maps of each descriptor apart exactly when every call
fits. -/
theorem map_run_disjoint_iff (io io' : RIO) (hempty : io.maps = []) (calls : List MapCall)
    (hrun : MapRun io calls io') (hw : ∀ c ∈ calls, c.op.NoWrap c.before) :
    MapsDisjoint io'.maps ↔ ∀ c ∈ calls, c.op.Fits c.before := by
  rw [hrun.disjoint_iff hw (by simp [hempty]), hempty]
  simp [MapsDisjoint]

/-- The state with the given maps and nothing else. -/
def withMaps (maps : List RIOMap) : RIO := { emptyIO with maps := maps }

theorem map_run_disjoint_two_calls :
    MapsDisjoint (withMaps [⟨3, 0, 16, 32⟩, ⟨3, 0, 48, 64⟩]).maps := by
  refine (map_run_disjoint_iff (withMaps []) _ rfl
    [⟨withMaps [], .add 3 0 16 16⟩, ⟨withMaps [⟨3, 0, 16, 32⟩], .addNext 3 0 0 16 16⟩]
    (.step ⟨_, rfl⟩ (.step ⟨2, _, rfl⟩ (.nil _))) ?_).mpr ?_
  · simp [MapOp.NoWrap, withMaps]
  · simp [MapOp.Fits, withMaps]

/-- A second map around the first one is added: neither of its ends lies in the first. -/
theorem map_add_swallows_map :
    ∃ calls io', MapRun (withMaps []) calls io' ∧ (∀ c ∈ calls, c.op.NoWrap c.before) ∧
      ¬ MapsDisjoint io'.maps := by
  refine ⟨[⟨withMaps [], .add 3 0 16 16⟩, ⟨withMaps [⟨3, 0, 16, 32⟩], .add 3 0 0 256⟩],
    withMaps [⟨3, 0, 16, 32⟩, ⟨3, 0, 0, 256⟩], .step ⟨_, rfl⟩ (.step ⟨_, rfl⟩ (.nil _)), ?_, ?_⟩
  · simp [MapOp.NoWrap]
  · intro h
    exact List.pairwise_pair.mp h rfl 20 (by decide)

end Radare
