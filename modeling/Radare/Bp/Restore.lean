import Radare.Bp.BpTable

namespace Radare.Bp

open Framework

/-- `write_at` stores `size` bytes of the buffer; an item without bytes is left alone. -/
def rBpRestoreOne (b : RBreakpointItem) (set : Bool) (m : Ut64 → Ut8) : Ut64 → Ut8 :=
  if set then
    match b.bbytes with
    | none => m
    | some bbytes => if b.hw ≠ 0 then m else memWrite m b.addr (bbytes.take b.size.toNat)
  else
    match b.obytes with
    | none => m
    | some obytes => if b.hw ≠ 0 then m else memWrite m b.addr (obytes.take b.size.toNat)

/-- The breakpoint at `addr` is left out, unless `addr` is zero; `handled` is the answer of
`bp->breakpoint`, false where there is no such handler. -/
def rBpRestoreExcept (handled : RBreakpointItem → Bool → Bool) (bp : RBreakpoint) (set : Bool)
    (addr : Ut64) (m : Ut64 → Ut8) : Option (Ut64 → Ut8) :=
  bp.bps.foldlM (fun m i => (bp.heap.object i).map (fun b =>
    if addr ≠ 0 ∧ b.addr = addr then m
    else if handled b set then m
    else rBpRestoreOne b set m)) m

def rBpRestore (handled : RBreakpointItem → Bool → Bool) (bp : RBreakpoint) (set : Bool)
    (m : Ut64 → Ut8) : Option (Ut64 → Ut8) := rBpRestoreExcept handled bp set 0 m

theorem copyTrap_length {buf buf' : List Ut8} {off : Nat} {b : RBreakpointArch}
    (h : copyTrap buf off b = some buf') : buf'.length = buf.length := by
  rw [copyTrap] at h
  split at h
  · cases h
    apply length_overwrite
    rw [List.length_take]
    omega
  · cases h

theorem padTraps_length {b : RBreakpointArch} {buf buf' : List Ut8} (h : padTraps b buf = some buf') :
    buf'.length = buf.length := by
  simp only [padTraps, List.foldlM_cons, List.foldlM_nil, Option.bind_eq_bind,
    Option.bind_eq_some_iff] at h
  obtain ⟨b1, h1, b2, h2, b3, h3, b4, h4, h5⟩ := h
  cases h5
  rw [copyTrap_length h4, copyTrap_length h3, copyTrap_length h2, copyTrap_length h1]

theorem putTrap_length {cur : RBreakpointPlugin} {buf buf' : List Ut8} {b : Option RBreakpointArch}
    {ret : Int} (h : putTrap cur buf b = some (buf', ret)) : buf'.length = buf.length := by
  cases b with
  | some b =>
    simp only [putTrap, Option.map_eq_some_iff, Prod.mk.injEq] at h
    obtain ⟨out, hcopy, heq, -⟩ := h
    rw [← heq]
    exact copyTrap_length hcopy
  | none =>
    rw [putTrap] at h
    split at h
    · cases h
    · split at h
      · cases h
      · split at h
        · cases h
          rfl
        · simp only [Option.map_eq_some_iff, Prod.mk.injEq] at h
          obtain ⟨out, hpad, heq, -⟩ := h
          rw [← heq]
          exact padTraps_length hpad

/-- The bytes are written into the buffer, whose length stays. -/
theorem getBytes_length {bp : RBreakpoint} {buf buf' : List Ut8} {len endian ret : Int}
    (h : rBpGetBytes bp buf len endian = some (buf', ret)) : buf'.length = buf.length := by
  rw [rBpGetBytes] at h
  split at h
  · cases h
    rfl
  · split at h
    · cases h
    · exact putTrap_length h
    · split at h
      · obtain ⟨found, -, hfound⟩ := Option.bind_eq_some_iff.mp h
        exact putTrap_length hfound
      · exact putTrap_length h

/-- A software breakpoint added while the memory is `m`: the saved bytes are those at the address
before the offset is added. -/
structure SavedFrom (m : Ut64 → Ut8) (delta : Ut64) (b : RBreakpointItem) : Prop where
  hw : b.hw = 0
  size : 1 ≤ b.size ∧ b.size ≤ 2147483647
  obytes : b.obytes = some (memRead m (b.addr - delta) b.size.toNat)
  bbytes : ∃ bbytes, b.bbytes = some bbytes ∧ b.size.toNat ≤ bbytes.length

/-- All listed items are such breakpoints. -/
structure AllSaved (m : Ut64 → Ut8) (delta : Ut64) (bp : RBreakpoint) : Prop where
  owned : TableOwned bp
  delta_eq : bp.delta = delta
  saved : ∀ i ∈ bp.bps, ∀ b, bp.heap.object i = some b → SavedFrom m delta b

/-- The calls the breakpoints of a debugged process are set and removed with. -/
def SwCall : BpCall → Prop
  | .addSw _ _ _ => True
  | .del _ => True
  | _ => False

section
variable {m : Ut64 → Ut8} {delta : Ut64} {bp bp' : RBreakpoint}

theorem ItemFor.saved (hdelta : bp.delta = delta) {addr : Ut64} {n : Int} {item : RBreakpointItem}
    (h : ItemFor bp (some (memRead m addr n.toNat)) addr n rBpTypeSw item) : SavedFrom m delta item := by
  obtain ⟨h1, h16, hobytes, bbytes, hbbytes, hget⟩ := h.bytes rfl
  have haddr : item.addr - delta = addr := by
    rw [h.addr_eq, hdelta, BitVec.add_sub_cancel]
  have hlen := getBytes_length hget
  rw [List.length_replicate] at hlen
  apply SavedFrom.mk
  · exact h.hw_eq
  · rw [h.size_eq]
    omega
  · rw [hobytes, haddr, h.size_eq, Option.map_some, List.take_of_length_le]
    rw [memRead_length]
  · refine ⟨bbytes, hbbytes, ?_⟩
    rw [h.size_eq, hlen]
    omega

theorem TableAdded.allSaved {item : RBreakpointItem} (ha : TableAdded bp bp' item)
    (hitem : SavedFrom m delta item) (h : AllSaved m delta bp) : AllSaved m delta bp' := by
  apply AllSaved.mk (ha.owned h.owned) (ha.delta.trans h.delta_eq)
  intro i hi b hb
  rw [ha.object] at hb
  by_cases hnext : i = bp.heap.next
  · rw [hnext, Function.update_self] at hb
    cases hb
    exact hitem
  · rw [Function.update_of_ne hnext] at hb
    rw [ha.bps, List.mem_append, List.mem_singleton] at hi
    exact h.saved i (hi.resolve_right hnext) b hb

theorem step_allSaved {c : BpCall} (hc : SwCall c) (h : AllSaved m delta bp)
    (hstep : bpStep (memRead m) bp c = some bp') : AllSaved m delta bp' := by
  cases c with
  | addSw addr size rwx =>
    simp only [bpStep, rBpAddSw, Option.map_eq_some_iff] at hstep
    obtain ⟨⟨r, bp1⟩, hadd, hbp⟩ := hstep
    cases hbp
    rcases rBpAdd_cases hadd with ⟨-, heq⟩ | ⟨-, item, ha, hitem⟩ | ⟨-, -, -, hd⟩
    · subst heq
      exact h
    · exact ha.allSaved (hitem.saved h.delta_eq) h
    · apply AllSaved.mk (hd.owned h.owned) (hd.delta.trans h.delta_eq)
      intro i hi b hb
      rw [hd.bps] at hi
      rw [hd.object] at hb
      exact h.saved i hi b hb
  | del addr =>
    rcases del_cases h.owned hstep with ⟨-, heq⟩ | ⟨-, gone, hr⟩
    · subst heq
      exact h
    · apply AllSaved.mk (hr.owned h.owned) (hr.delta.trans h.delta_eq)
      intro i hi b hb
      rw [hr.bps, List.mem_filter] at hi
      rw [hr.object, if_neg (by simpa using hi.2)] at hb
      exact h.saved i hi.1 b hb
  | addHw => cases hc
  | delIndex => cases hc
  | delAll => cases hc

theorem run_allSaved {calls : List BpCall} (hcalls : ∀ c ∈ calls, SwCall c) (h : AllSaved m delta bp)
    (hrun : bpRun (memRead m) bp calls = some bp') : AllSaved m delta bp' := by
  induction calls generalizing bp with
  | nil =>
    cases hrun
    exact h
  | cons c cs ih =>
    obtain ⟨bp1, hstep, hrest⟩ := Option.bind_eq_some_iff.mp hrun
    exact ih (fun c hc => hcalls c (by simp [hc])) (step_allSaved (hcalls c (by simp)) h hstep) hrest

end

/-- The listed breakpoints in the order of the list. -/
def RBreakpoint.items (bp : RBreakpoint) : List RBreakpointItem := bp.bps.filterMap bp.heap.object

/-- The address lies in the range of the breakpoint. -/
def Covers (b : RBreakpointItem) (x : Ut64) : Prop := (x - b.addr).toNat < b.size.toNat

/-- Without a `bp->breakpoint` handler nothing is handled elsewhere. -/
def noHandler : RBreakpointItem → Bool → Bool := fun _ _ => false

/-- What is written for a breakpoint, and where. -/
def block (set : Bool) (b : RBreakpointItem) : Ut64 × List Ut8 :=
  (b.addr, (((if set then b.bbytes else b.obytes).getD []).take b.size.toNat))

section
variable {m : Ut64 → Ut8} {delta : Ut64} {bp : RBreakpoint}

theorem AllSaved.mem_items (h : AllSaved m delta bp) {b : RBreakpointItem} (hb : b ∈ bp.items) :
    SavedFrom m delta b := by
  obtain ⟨i, hi, hobj⟩ := List.mem_filterMap.mp hb
  exact h.saved i hi b hobj

theorem restoreOne_eq {b : RBreakpointItem} (hb : SavedFrom m delta b) (set : Bool) (m' : Ut64 → Ut8) :
    rBpRestoreOne b set m' = Overlay.write nextAddr m' (block set b).1 (block set b).2 := by
  obtain ⟨bbytes, hbb, -⟩ := hb.bbytes
  cases set <;> simp [rBpRestoreOne, block, hb.hw, hb.obytes, hbb, memWrite]

/-- Setting and clearing write the blocks of the listed breakpoints one after the other. -/
theorem restore_eq (h : AllSaved m delta bp) (set : Bool) (m' : Ut64 → Ut8) :
    rBpRestore noHandler bp set m' =
      some (Overlay.writes nextAddr m' (bp.items.map (block set))) := by
  have hlist : ∀ (is : List Nat) (m' : Ut64 → Ut8), (∀ i ∈ is, i ∈ bp.bps) →
      is.foldlM (fun m i => (bp.heap.object i).map (fun b =>
        if (0 : Ut64) ≠ 0 ∧ b.addr = 0 then m
        else if noHandler b set then m
        else rBpRestoreOne b set m)) m' =
      some (Overlay.writes nextAddr m' ((is.filterMap bp.heap.object).map (block set))) := by
    intro is
    induction is with
    | nil => simp [Overlay.writes]
    | cons i is ih =>
      intro m' hmem
      obtain ⟨b, hb⟩ := Option.isSome_iff_exists.mp (h.owned.live i (hmem i (by simp)))
      have hone := restoreOne_eq (h.saved i (hmem i (by simp)) b hb) set m'
      rw [List.foldlM_cons, hb, List.filterMap_cons, hb, List.map_cons, Overlay.writes,
        List.foldl_cons, ← hone]
      simp only [ne_eq, not_true, false_and, if_false, noHandler, Bool.false_eq_true, Option.map_some,
        Option.bind_eq_bind, Option.bind_some]
      exact ih _ (fun j hj => hmem j (by simp [hj]))
  exact hlist bp.bps m' (fun i hi => hi)

theorem SavedFrom.block_length {b : RBreakpointItem} (hb : SavedFrom m delta b) (set : Bool) :
    (block set b).2.length = b.size.toNat := by
  obtain ⟨bbytes, hbb, hlen⟩ := hb.bbytes
  cases set <;> simp [block, hb.obytes, hbb, memRead_length, hlen]

theorem SavedFrom.patch {b : RBreakpointItem} (hb : SavedFrom m delta b) (set : Bool) (x : Ut64) :
    Overlay.patch nextAddr (block set b).1 (block set b).2 x = (block set b).2[(x - b.addr).toNat]? := by
  have hlen := hb.block_length set
  have hsize := hb.size
  exact patch_nextAddr b.addr _ x (by omega)

theorem SavedFrom.patch_isSome {b : RBreakpointItem} (hb : SavedFrom m delta b) (set : Bool) (x : Ut64) :
    (Overlay.patch nextAddr (block set b).1 (block set b).2 x).isSome ↔ Covers b x := by
  rw [hb.patch, Covers, ← hb.block_length set]
  simp

/-- The saved byte for an address is the one the memory held `delta` below it. -/
theorem SavedFrom.saved_byte {b : RBreakpointItem} (hb : SavedFrom m delta b) {x : Ut64} {c : Ut8}
    (hc : Overlay.patch nextAddr (block false b).1 (block false b).2 x = some c) : c = m (x - delta) := by
  have hcov : (x - b.addr).toNat < b.size.toNat := (hb.patch_isSome false x).mp (by rw [hc]; rfl)
  rw [hb.patch] at hc
  simp only [block, hb.obytes, Bool.false_eq_true, if_false, Option.getD_some,
    List.getElem?_take_of_lt hcov, memRead_getElem? m (b.addr - delta) _ _ hcov, Option.some.injEq] at hc
  rw [← hc, BitVec.ofNat_toNat, BitVec.setWidth_eq]
  congr 1
  bv_omega

theorem not_covered (h : AllSaved m delta bp) (set : Bool) {x : Ut64}
    (hx : ¬∃ b ∈ bp.items, Covers b x) :
    Overlay.lastPatch nextAddr (bp.items.map (block set)) x = none := by
  apply Overlay.lastPatch_eq_none
  intro w hw
  obtain ⟨b, hb, hblock⟩ := List.mem_map.mp hw
  rw [← hblock]
  by_contra hne
  exact hx ⟨b, hb, ((h.mem_items hb).patch_isSome set x).mp (Option.isSome_iff_ne_none.mpr hne)⟩

/-- After both passes a covered address holds what the memory held `delta` below it. -/
theorem clear_apply (h : AllSaved m delta bp) (m' : Ut64 → Ut8) (x : Ut64) :
    ((∃ b ∈ bp.items, Covers b x) →
        Overlay.writes nextAddr m' (bp.items.map (block false)) x = m (x - delta)) ∧
      ((¬∃ b ∈ bp.items, Covers b x) →
        Overlay.writes nextAddr m' (bp.items.map (block false)) x = m' x) := by
  rw [Overlay.writes_apply]
  constructor
  · intro ⟨b, hb, hcov⟩
    have hlast : Overlay.lastPatch nextAddr (bp.items.map (block false)) x = some (m (x - delta)) := by
      apply Overlay.lastPatch_eq_some
      · exact ⟨block false b, List.mem_map_of_mem hb, ((h.mem_items hb).patch_isSome false x).mpr hcov⟩
      · intro w hw c hc
        obtain ⟨d, hd, hblock⟩ := List.mem_map.mp hw
        rw [← hblock] at hc
        exact (h.mem_items hd).saved_byte hc
    rw [hlast, Option.getD_some]
  · intro hno
    rw [not_covered h false hno, Option.getD_none]

end

/-- Setting the breakpoints changes only their ranges and puts their traps there, the later one
where two overlap, and clearing them gives the memory back. -/
structure Reversible (m : Ut64 → Ut8) (bp : RBreakpoint) (m1 m2 : Ut64 → Ut8) : Prop where
  set : rBpRestore noHandler bp true m = some m1
  clear : rBpRestore noHandler bp false m1 = some m2
  frame : ∀ x, (¬∃ b ∈ bp.items, Covers b x) → m1 x = m x
  traps : ∀ pre b post, bp.items = pre ++ b :: post → ∀ x, Covers b x → (∀ c ∈ post, ¬Covers c x) →
    ((b.bbytes.getD [])[(x - b.addr).toNat]?) = some (m1 x)
  back : m2 = m

theorem AllSaved.traps {m : Ut64 → Ut8} {delta : Ut64} {bp : RBreakpoint} (h : AllSaved m delta bp)
    (m' : Ut64 → Ut8) (pre : List RBreakpointItem) (b : RBreakpointItem) (post : List RBreakpointItem)
    (hitems : bp.items = pre ++ b :: post) (x : Ut64) (hcov : Covers b x)
    (hpost : ∀ c ∈ post, ¬Covers c x) :
    (b.bbytes.getD [])[(x - b.addr).toNat]? =
      some (Overlay.writes nextAddr m' (bp.items.map (block true)) x) := by
  have hsaved : ∀ c ∈ b :: post, SavedFrom m delta c := fun c hc => h.mem_items (by
    rw [hitems]
    exact List.mem_append_right _ hc)
  have hnone : Overlay.lastPatch nextAddr (post.map (block true)) x = none := by
    apply Overlay.lastPatch_eq_none
    intro w hw
    obtain ⟨c, hc, hblock⟩ := List.mem_map.mp hw
    rw [← hblock]
    by_contra hne
    exact hpost c hc (((hsaved c (by simp [hc])).patch_isSome true x).mp (Option.isSome_iff_ne_none.mpr hne))
  obtain ⟨byte, hbyte⟩ := Option.isSome_iff_exists.mp (((hsaved b (by simp)).patch_isSome true x).mpr hcov)
  rw [Overlay.writes_apply, hitems, List.map_append, List.map_cons, Overlay.lastPatch_append_list,
    Overlay.lastPatch_cons, hnone, Option.none_or, hbyte, Option.some_or, Option.getD_some]
  rw [(hsaved b (by simp)).patch] at hbyte
  rw [← hbyte, block]
  simp only [if_true]
  rw [List.getElem?_take_of_lt hcov]

/-- However the breakpoints were added and deleted, inserting and removing them is reversible
exactly when the bytes they cover are the ones `delta` below. -/
theorem breakpoints_reversible_iff (m : Ut64 → Ut8) (staticPlugins : List RBreakpointPlugin)
    (cur : Option RBreakpointPlugin) (bits endian : Int) (delta : Ut64) (calls : List BpCall)
    (hcalls : ∀ c ∈ calls, SwCall c) (bp : RBreakpoint)
    (hrun : bpRun (memRead m) ((rBpNew staticPlugins).configure cur bits endian delta) calls = some bp) :
    (∃ m1 m2, Reversible m bp m1 m2) ↔
      ∀ b ∈ bp.items, ∀ x, Covers b x → m (x - delta) = m x := by
  obtain ⟨-, hbps, hidx, hdelta⟩ := start_table staticPlugins cur bits endian delta rfl
  have hstart : AllSaved m delta ((rBpNew staticPlugins).configure cur bits endian delta) := by
    apply AllSaved.mk (TableOwned.of_empty hbps hidx) hdelta
    simp [hbps]
  have h := run_allSaved hcalls hstart hrun
  obtain ⟨m1, hm1⟩ : ∃ m1, Overlay.writes nextAddr m (bp.items.map (block true)) = m1 := ⟨_, rfl⟩
  have hset : rBpRestore noHandler bp true m = some m1 := by rw [restore_eq h, hm1]
  constructor
  · intro ⟨n1, m2, hrev⟩ b hb x hcov
    have hclear := hrev.clear
    rw [restore_eq h, Option.some.injEq] at hclear
    have hx := (clear_apply h n1 x).1 ⟨b, hb, hcov⟩
    rw [← hx, hclear, hrev.back]
  · intro hbytes
    refine ⟨m1, Overlay.writes nextAddr m1 (bp.items.map (block false)), ?_⟩
    apply Reversible.mk hset (restore_eq h false m1)
    · intro x hno
      rw [← hm1, Overlay.writes_apply, not_covered h true hno, Option.getD_none]
    · intro pre b post hitems x hcov hpost
      rw [← hm1]
      exact h.traps m pre b post hitems x hcov hpost
    · funext x
      by_cases hcov : ∃ b ∈ bp.items, Covers b x
      · obtain ⟨b, hb, hc⟩ := hcov
        rw [(clear_apply h m1 x).1 ⟨b, hb, hc⟩, hbytes b hb x hc]
      · rw [(clear_apply h m1 x).2 hcov, ← hm1, Overlay.writes_apply, not_covered h true hcov,
          Option.getD_none]

/-- A memory that holds at each address the address itself. -/
def addressBytes : Ut64 → Ut8 := fun x => x.setWidth 8

/-- The table after one `r_bp_add_sw` at 0x1000 with the offset `delta`. -/
def oneBreakpoint (delta : Ut64) : Option RBreakpoint :=
  bpRun (memRead addressBytes) ((rBpNew []).configure (some rBpPluginX86) 32 0 delta) [.addSw 0x1000 1 0]

theorem breakpoints_reversible_x86 :
    ∃ bp, oneBreakpoint 0 = some bp ∧
      ((∃ m1 m2, Reversible addressBytes bp m1 m2) ↔
        ∀ b ∈ bp.items, ∀ x, Covers b x → addressBytes (x - 0) = addressBytes x) := by
  have hsome : (oneBreakpoint 0).isSome = true := by decide
  obtain ⟨bp, hbp⟩ := Option.isSome_iff_exists.mp hsome
  exact ⟨bp, hbp, breakpoints_reversible_iff addressBytes [] (some rBpPluginX86) 32 0 0
    [.addSw 0x1000 1 0] (by simp [SwCall]) bp hbp⟩

/-- With the offset 1 the byte of 0x1000 comes back at 0x1001. -/
theorem breakpoint_restores_other_byte :
    ¬∃ bp m1 m2, oneBreakpoint 1 = some bp ∧ Reversible addressBytes bp m1 m2 := by
  intro ⟨bp, m1, m2, hbp, hrev⟩
  have hend : ((oneBreakpoint 1).bind (fun bp => (rBpRestore noHandler bp true addressBytes).bind
      (fun m1 => (rBpRestore noHandler bp false m1).map (fun m2 => m2 0x1001)))) = some 0 := by
    decide
  rw [hbp, Option.bind_some, hrev.set, Option.bind_some, hrev.clear, Option.map_some, hrev.back] at hend
  revert hend
  decide

end Radare.Bp
