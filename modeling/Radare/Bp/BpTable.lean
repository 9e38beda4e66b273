import Radare.Bp.Bp

namespace Radare.Bp

open Framework

/-- Slots, list and counter tell the same breakpoints. -/
structure TableAgrees (bp : RBreakpoint) : Prop where
  slots : (bp.bpsIdx.filterMap id).Perm bp.bps
  nodup : bp.bps.Nodup
  count : bp.nbps = bp.bps.length
  index : ∀ idx item, rBpGetIndex bp idx = some item → item ∈ bp.bps

/-- What every run keeps: listed items are alive, and a slot without a listed item points to a
freed one. -/
structure TableOwned (bp : RBreakpoint) : Prop where
  live : ∀ i ∈ bp.bps, (bp.heap.object i).isSome
  nodup : bp.bps.Nodup
  slot : ∀ i, some i ∈ bp.bpsIdx → i < bp.heap.next ∧ (i ∈ bp.bps ∨ bp.heap.object i = none)

/-- The counter is too high, or a slot points to a freed item. -/
def TableBroken (bp : RBreakpoint) : Prop :=
  (bp.bps.length : Int) < bp.nbps ∨ ∃ i, some i ∈ bp.bpsIdx ∧ bp.heap.object i = none

structure TableAdded (bp bp' : RBreakpoint) (item : RBreakpointItem) : Prop where
  bps : bp'.bps = bp.bps ++ [bp.heap.next]
  bpsIdx : bp'.bpsIdx = placeSlot bp.heap.next bp.bpsIdx
  nbps : bp'.nbps = bp.nbps + 1
  next : bp'.heap.next = bp.heap.next + 1
  object : bp'.heap.object = Function.update bp.heap.object bp.heap.next (some item)
  delta : bp'.delta = bp.delta

/-- The item of a failed addition is freed and stays in its slot. -/
structure TableDangling (bp bp' : RBreakpoint) : Prop where
  bps : bp'.bps = bp.bps
  bpsIdx : bp'.bpsIdx = placeSlot bp.heap.next bp.bpsIdx
  next : bp'.heap.next = bp.heap.next + 1
  object : bp'.heap.object = bp.heap.object
  delta : bp'.delta = bp.delta

/-- Some listed items are freed and no longer listed. -/
structure TableRemoved (bp bp' : RBreakpoint) (gone : List Nat) : Prop where
  some : ∃ i, i ∈ gone ∧ i ∈ bp.bps
  bps : bp'.bps = bp.bps.filter (fun i => i ∉ gone)
  bpsIdx : bp'.bpsIdx = bp.bpsIdx
  nbps : bp'.nbps = bp.nbps
  next : bp'.heap.next = bp.heap.next
  object : ∀ i, bp'.heap.object i = if i ∈ gone then none else bp.heap.object i
  delta : bp'.delta = bp.delta

theorem mem_placeSlot (k : Nat) (slots : List (Option Nat)) (i : Nat) :
    some i ∈ placeSlot k slots ↔ i = k ∨ some i ∈ slots := by
  induction slots with
  | nil => simp [placeSlot]
  | cons s slots ih =>
    cases s with
    | none => simp [placeSlot]
    | some j =>
      simp only [placeSlot, List.mem_cons, ih]
      tauto

theorem filterMap_placeSlot (k : Nat) (slots : List (Option Nat)) :
    ((placeSlot k slots).filterMap id).Perm (k :: slots.filterMap id) := by
  induction slots with
  | nil => simp [placeSlot]
  | cons s slots ih =>
    cases s with
    | none => simp [placeSlot]
    | some j =>
      simp only [placeSlot, List.filterMap_cons, id]
      exact (ih.cons j).trans (List.Perm.swap k j _)

theorem getIndex_mem {bp : RBreakpoint} {idx : Int} {i : Nat} (h : rBpGetIndex bp idx = some i) :
    some i ∈ bp.bpsIdx := by
  rw [rBpGetIndex] at h
  split at h
  · rw [Option.join_eq_some_iff] at h
    exact List.mem_of_getElem? h
  · cases h

/-- The first and the last part of the table make the third. -/
theorem TableAgrees.of_perm {bp : RBreakpoint} (hslots : (bp.bpsIdx.filterMap id).Perm bp.bps)
    (hnodup : bp.bps.Nodup) (hcount : bp.nbps = bp.bps.length) : TableAgrees bp where
  slots := hslots
  nodup := hnodup
  count := hcount
  index := by
    intro idx item hi
    have hmem := getIndex_mem hi
    exact hslots.subset (List.mem_filterMap.mpr ⟨some item, hmem, rfl⟩)

theorem TableBroken.not_agrees {bp : RBreakpoint} (hown : TableOwned bp) (h : TableBroken bp) :
    ¬TableAgrees bp := by
  intro ha
  rcases h with hlt | ⟨i, hi, hdead⟩
  · have := ha.count
    omega
  · have hmem := ha.slots.subset (List.mem_filterMap.mpr ⟨some i, hi, rfl⟩)
    have hlive := hown.live i hmem
    rw [hdead] at hlive
    simp at hlive

section
variable {bp bp' : RBreakpoint}

theorem TableOwned.next_not_mem (h : TableOwned bp) : bp.heap.next ∉ bp.bps := by
  intro hmem
  have := bp.heap.lt_next (h.live _ hmem)
  omega

theorem TableAdded.owned {item : RBreakpointItem} (ha : TableAdded bp bp' item) (h : TableOwned bp) :
    TableOwned bp' := by
  apply TableOwned.mk
  · intro i hi
    rw [ha.bps, List.mem_append, List.mem_singleton] at hi
    rw [ha.object]
    rcases hi with hi | hi
    · have := bp.heap.lt_next (h.live i hi)
      rw [Function.update_of_ne (by omega)]
      exact h.live i hi
    · simp [hi]
  · rw [ha.bps]
    apply List.Nodup.append h.nodup (List.nodup_singleton _)
    intro i hi hn
    rw [List.mem_singleton] at hn
    exact h.next_not_mem (hn ▸ hi)
  · intro i hi
    rw [ha.bpsIdx, mem_placeSlot] at hi
    rw [ha.next, ha.bps, ha.object]
    rcases hi with hi | hi
    · exact ⟨by omega, by simp [hi]⟩
    · obtain ⟨hlt, hor⟩ := h.slot i hi
      rw [Function.update_of_ne (by omega)]
      exact ⟨by omega, hor.imp_left (fun hm => by simp [hm])⟩

theorem TableAdded.agrees {item : RBreakpointItem} (ha : TableAdded bp bp' item) (hown : TableOwned bp)
    (h : TableAgrees bp) : TableAgrees bp' := by
  apply TableAgrees.of_perm
  · rw [ha.bpsIdx, ha.bps]
    have hcons := (filterMap_placeSlot bp.heap.next bp.bpsIdx).trans (h.slots.cons _)
    exact hcons.trans (List.perm_append_singleton _ _).symm
  · exact (ha.owned hown).nodup
  · rw [ha.nbps, ha.bps, h.count]
    simp

theorem TableAdded.broken {item : RBreakpointItem} (ha : TableAdded bp bp' item) (hown : TableOwned bp)
    (h : TableBroken bp) : TableBroken bp' := by
  rcases h with hlt | ⟨i, hi, hdead⟩
  · left
    rw [ha.nbps, ha.bps, List.length_append, List.length_singleton]
    omega
  · right
    have := (hown.slot i hi).1
    refine ⟨i, ?_, ?_⟩
    · rw [ha.bpsIdx, mem_placeSlot]
      exact Or.inr hi
    · rw [ha.object, Function.update_of_ne (by omega)]
      exact hdead

theorem TableDangling.owned (hd : TableDangling bp bp') (h : TableOwned bp) : TableOwned bp' := by
  apply TableOwned.mk
  · intro i hi
    rw [hd.bps] at hi
    rw [hd.object]
    exact h.live i hi
  · rw [hd.bps]
    exact h.nodup
  · intro i hi
    rw [hd.bpsIdx, mem_placeSlot] at hi
    rw [hd.next, hd.bps, hd.object]
    rcases hi with hi | hi
    · exact ⟨by omega, Or.inr (bp.heap.fresh i (by omega))⟩
    · obtain ⟨hlt, hor⟩ := h.slot i hi
      exact ⟨by omega, hor⟩

theorem TableDangling.broken (hd : TableDangling bp bp') : TableBroken bp' := by
  right
  refine ⟨bp.heap.next, ?_, ?_⟩
  · rw [hd.bpsIdx, mem_placeSlot]
    exact Or.inl rfl
  · rw [hd.object]
    exact bp.heap.fresh _ (Nat.le_refl _)

theorem TableRemoved.length_lt {gone : List Nat} (hr : TableRemoved bp bp' gone) :
    bp'.bps.length < bp.bps.length := by
  obtain ⟨i, hgone, hi⟩ := hr.some
  rw [hr.bps]
  exact List.length_filter_lt_length_iff_exists.mpr ⟨i, hi, by simp [hgone]⟩

theorem TableRemoved.owned {gone : List Nat} (hr : TableRemoved bp bp' gone) (h : TableOwned bp) :
    TableOwned bp' := by
  apply TableOwned.mk
  · intro i hi
    rw [hr.bps, List.mem_filter] at hi
    rw [hr.object, if_neg (by simpa using hi.2)]
    exact h.live i hi.1
  · rw [hr.bps]
    exact h.nodup.filter _
  · intro i hi
    rw [hr.bpsIdx] at hi
    obtain ⟨hlt, hor⟩ := h.slot i hi
    rw [hr.next, hr.bps, hr.object, List.mem_filter]
    by_cases hgone : i ∈ gone
    · exact ⟨hlt, Or.inr (if_pos hgone)⟩
    · rw [if_neg hgone]
      exact ⟨hlt, hor.imp_left (fun hm => ⟨hm, by simpa using hgone⟩)⟩

theorem TableRemoved.broken {gone : List Nat} (hr : TableRemoved bp bp' gone)
    (h : TableBroken bp ∨ TableAgrees bp) : TableBroken bp' := by
  have hlen := hr.length_lt
  rcases h with (hlt | ⟨i, hi, hdead⟩) | ha
  · left
    rw [hr.nbps]
    omega
  · right
    refine ⟨i, by rwa [hr.bpsIdx], ?_⟩
    rw [hr.object, hdead]
    simp
  · left
    rw [hr.nbps, ha.count]
    omega

/-- `r_bp_add` returns before it takes a slot. -/
def AddRefused (bp : RBreakpoint) (addr : Ut64) (size rwx : Int) : Prop :=
  addr = ut64Max ∨ size < 1 ∨ ∃ i, rBpGetIn bp addr rwx = some (some i)

/-- `r_bp_get_bytes` has a trap of the asked size. -/
def HasTrap (bp : RBreakpoint) (size : Int) : Prop :=
  size + 16 ≤ 2147483647 ∧
    ∃ bbytes, rBpGetBytes bp (List.replicate (size + 16).toNat 0) size bp.endian = some (bbytes, size)

/-- The calls that leave the table in order: nothing is deleted, and an addition that takes a slot
succeeds. -/
def CallFits (bp : RBreakpoint) : BpCall → Prop
  | .addSw addr size rwx =>
    AddRefused bp addr (if size < 1 then 1 else size) rwx ∨ HasTrap bp (if size < 1 then 1 else size)
  | .addHw _ _ _ => True
  | .del addr => bp.heap.find (fun b => b.addr = addr) bp.bps = some none
  | .delIndex idx => rBpGetIndex bp idx = none
  | .delAll => bp.bps = []

theorem listItem_added {item : RBreakpointItem} {r : Option Nat}
    (h : listItem (rBpItemNew bp).2 (rBpItemNew bp).1 item = some (r, bp')) :
    TableAdded bp bp' item := by
  simp only [listItem, Option.map_eq_some_iff, Prod.mk.injEq] at h
  obtain ⟨heap, hs, -, hbp⟩ := h
  obtain ⟨-, hobj, hnext⟩ := ObjectHeap.store_eq_some hs
  subst hbp
  apply TableAdded.mk
  · simp [rBpItemNew]
  · simp [rBpItemNew]
  · simp [rBpItemNew]
  · simp [rBpItemNew, ObjectHeap.alloc, hnext]
  · simp only [hobj, rBpItemNew, ObjectHeap.alloc, Function.update_idem]
  · simp [rBpItemNew]

theorem exists_listItem (bp : RBreakpoint) (item : RBreakpointItem) :
    ∃ r, listItem (rBpItemNew bp).2 (rBpItemNew bp).1 item = some r := by
  obtain ⟨heap, hs⟩ := ObjectHeap.exists_store
    (h := (rBpItemNew bp).2.heap) (i := (rBpItemNew bp).1) (by simp [rBpItemNew, ObjectHeap.alloc]) item
  exact ⟨_, by rw [listItem, hs, Option.map_some]⟩

/-- What `r_bp_add` writes into a new item; a hardware breakpoint has no bytes. -/
structure ItemFor (bp : RBreakpoint) (obytes : Option (List Ut8)) (addr : Ut64) (n hw : Int)
    (item : RBreakpointItem) : Prop where
  addr_eq : item.addr = addr + bp.delta
  size_eq : item.size = n
  hw_eq : item.hw = hw
  bytes : hw = 0 → 1 ≤ n ∧ n + 16 ≤ 2147483647 ∧ item.obytes = obytes.map (List.take n.toNat) ∧
    ∃ bbytes, item.bbytes = some bbytes ∧
      rBpGetBytes bp (List.replicate (n + 16).toNat 0) n bp.endian = some (bbytes, n)

/-- What `r_bp_add` can do to the table. -/
theorem rBpAdd_cases {obytes : Option (List Ut8)} {addr : Ut64} {size hw rwx : Int} {r : Option Nat}
    (h : rBpAdd bp obytes addr size hw rwx = some (r, bp')) :
    (AddRefused bp addr size rwx ∧ bp' = bp) ∨
      ((hw ≠ 0 ∨ HasTrap bp size) ∧
        ∃ item, TableAdded bp bp' item ∧ ItemFor bp obytes addr size hw item) ∨
      (¬AddRefused bp addr size rwx ∧ hw = 0 ∧ ¬HasTrap bp size ∧ TableDangling bp bp') := by
  rw [rBpAdd] at h
  split at h
  · obtain ⟨-, hbp⟩ := Prod.mk.inj (Option.some.inj h)
    left
    exact ⟨by rw [AddRefused, ← or_assoc]; exact Or.inl ‹_›, hbp.symm⟩
  · rename_i hearly
    split at h
    · cases h
    · obtain ⟨-, hbp⟩ := Prod.mk.inj (Option.some.inj h)
      left
      exact ⟨Or.inr (Or.inr ⟨_, ‹_›⟩), hbp.symm⟩
    · rename_i hnone
      have hnot : ¬AddRefused bp addr size rwx := by
        intro href
        rcases href with ha | hs | ⟨i, hi⟩
        · exact hearly (Or.inl ha)
        · exact hearly (Or.inr hs)
        · rw [hnone] at hi
          cases hi
      right
      simp only [] at h
      split at h
      · rename_i hhw
        split at h
        · cases h
        · rename_i hsize
          split at h
          · cases h
          · rename_i bbytes ret hbytes
            split at h
            · rename_i hret
              right
              simp only [Option.map_eq_some_iff, Prod.mk.injEq] at h
              obtain ⟨heap, hf, -, hbp⟩ := h
              obtain ⟨-, hobj, hnext⟩ := ObjectHeap.free_eq_some hf
              subst hbp
              refine ⟨hnot, hhw, ?_, ?_⟩
              · intro ⟨_, b, hb⟩
                rw [hbytes] at hb
                simp only [Option.some.injEq, Prod.mk.injEq] at hb
                exact hret hb.2
              · apply TableDangling.mk
                · simp [rBpItemNew]
                · simp [rBpItemNew]
                · simp [rBpItemNew, ObjectHeap.alloc, hnext]
                · have hfresh := bp.heap.fresh _ (Nat.le_refl _)
                  simp only [hobj, rBpItemNew, ObjectHeap.alloc, Function.update_idem]
                  rw [← hfresh, Function.update_eq_self]
                · simp [rBpItemNew]
            · rename_i hret
              left
              have hret' : ret = size := by omega
              rw [hret'] at hbytes
              refine ⟨Or.inr ⟨by omega, bbytes, hbytes⟩, _, listItem_added h, ?_⟩
              apply ItemFor.mk
              · simp [newItem]
              · simp [newItem]
              · simp [newItem]
              · intro _
                exact ⟨by omega, by omega, by simp, bbytes, by simp, hbytes⟩
      · left
        refine ⟨Or.inl ‹_›, _, listItem_added h, ?_⟩
        apply ItemFor.mk
        · simp [newItem]
        · simp [newItem]
        · simp [newItem]
        · intro hzero
          exact absurd hzero ‹_›

theorem getIn_isSome (hown : TableOwned bp) (addr : Ut64) (rwx : Int) :
    ∃ r, rBpGetIn bp addr rwx = some r := by
  rcases bp.heap.find_spec (fun b => inRange b addr && matchProt b rwx) bp.bps hown.live with h | h
  · exact ⟨_, h.1⟩
  · obtain ⟨i, -, b, hfind, -⟩ := h
    exact ⟨_, hfind⟩

theorem exists_rBpAdd (hown : TableOwned bp) (obytes : Option (List Ut8)) (addr : Ut64)
    (size hw rwx : Int) (hfit : AddRefused bp addr size rwx ∨ hw ≠ 0 ∨ HasTrap bp size) :
    ∃ r, rBpAdd bp obytes addr size hw rwx = some r := by
  rw [rBpAdd]
  by_cases hearly : addr = ut64Max ∨ size < 1
  · exact ⟨_, if_pos hearly⟩
  · rw [if_neg hearly]
    obtain ⟨found, hfound⟩ := getIn_isSome hown addr rwx
    rw [hfound]
    cases found with
    | some i => exact ⟨_, rfl⟩
    | none =>
      simp only []
      by_cases hhw : hw = 0
      · have htrap : HasTrap bp size := by
          rcases hfit with href | hne | htrap
          · rcases href with ha | hs | ⟨i, hi⟩
            · exact absurd (Or.inl ha) hearly
            · exact absurd (Or.inr hs) hearly
            · rw [hfound] at hi
              cases hi
          · exact absurd hhw hne
          · exact htrap
        obtain ⟨hsize, bbytes, hb⟩ := htrap
        rw [if_pos hhw, if_neg (by omega), hb]
        simp only [ne_eq, not_true, if_false]
        exact exists_listItem bp _
      · rw [if_neg hhw]
        exact exists_listItem bp _

variable {readAt : Ut64 → Nat → List Ut8}

theorem listDelete_removed (hown : TableOwned bp) {i : Nat} (hi : i ∈ bp.bps)
    (h : listDelete bp i = some bp') : TableRemoved bp bp' [i] := by
  simp only [listDelete, Option.map_eq_some_iff] at h
  obtain ⟨heap, hf, hbp⟩ := h
  obtain ⟨-, hobj, hnext⟩ := ObjectHeap.free_eq_some hf
  subst hbp
  apply TableRemoved.mk
  · exact ⟨i, by simp, hi⟩
  · rw [hown.nodup.erase_eq_filter]
    apply List.filter_congr
    intro j _
    by_cases hji : j = i <;> simp [hji]
  · simp
  · simp
  · exact hnext
  · intro j
    rw [hobj]
    by_cases hji : j = i <;> simp [hji]
  · simp

theorem addSw_cases {addr : Ut64} {size rwx : Int}
    (h : bpStep readAt bp (.addSw addr size rwx) = some bp') :
    (CallFits bp (.addSw addr size rwx) ∧ (bp' = bp ∨ ∃ item, TableAdded bp bp' item)) ∨
      (¬CallFits bp (.addSw addr size rwx) ∧ TableDangling bp bp') := by
  simp only [bpStep, rBpAddSw, Option.map_eq_some_iff] at h
  obtain ⟨⟨r, bp1⟩, hadd, hbp⟩ := h
  cases hbp
  rcases rBpAdd_cases hadd with ⟨href, heq⟩ | ⟨hw | htrap, item, ha, -⟩ | ⟨href, -, htrap, hd⟩
  · exact Or.inl ⟨Or.inl href, Or.inl heq⟩
  · exact absurd rfl hw
  · exact Or.inl ⟨Or.inr htrap, Or.inr ⟨item, ha⟩⟩
  · exact Or.inr ⟨not_or.mpr ⟨href, htrap⟩, hd⟩

theorem addHw_cases {addr : Ut64} {size rwx : Int}
    (h : bpStep readAt bp (.addHw addr size rwx) = some bp') :
    bp' = bp ∨ ∃ item, TableAdded bp bp' item := by
  simp only [bpStep, rBpAddHw, Option.map_eq_some_iff] at h
  obtain ⟨⟨r, bp1⟩, hadd, hbp⟩ := h
  cases hbp
  rcases rBpAdd_cases hadd with ⟨-, heq⟩ | ⟨-, item, ha, -⟩ | ⟨-, hw, -⟩
  · exact Or.inl heq
  · exact Or.inr ⟨item, ha⟩
  · exact absurd hw (by decide)

theorem del_cases (hown : TableOwned bp) {addr : Ut64} (h : bpStep readAt bp (.del addr) = some bp') :
    (CallFits bp (.del addr) ∧ bp' = bp) ∨
      (¬CallFits bp (.del addr) ∧ ∃ gone, TableRemoved bp bp' gone) := by
  simp only [bpStep, rBpDel] at h
  rw [CallFits]
  rcases bp.heap.find_spec (fun b => b.addr = addr) bp.bps hown.live with ⟨hn, -⟩ | ⟨i, hi, b, hfind, -⟩
  · rw [hn] at h
    left
    exact ⟨hn, by simpa using h.symm⟩
  · rw [hfind] at h
    right
    simp only [Option.map_map, Option.map_eq_some_iff, Function.comp_apply] at h
    obtain ⟨bp1, hdel, hbp⟩ := h
    subst hbp
    exact ⟨by simp [hfind], [i], listDelete_removed hown hi hdel⟩

theorem delAll_cases (hown : TableOwned bp) (h : bpStep readAt bp .delAll = some bp') :
    (CallFits bp .delAll ∧ bp' = bp) ∨ (¬CallFits bp .delAll ∧ ∃ gone, TableRemoved bp bp' gone) := by
  simp only [bpStep, rBpDelAll] at h
  rw [CallFits]
  by_cases hempty : bp.bps = []
  · rw [if_pos hempty] at h
    left
    exact ⟨hempty, by simpa using h.symm⟩
  · rw [if_neg hempty] at h
    right
    obtain ⟨heap, hfree, hnext, hobj⟩ := ObjectHeap.freeAll_spec bp.bps bp.heap hown.nodup hown.live
    rw [hfree] at h
    simp only [Option.map_some, Option.some.injEq] at h
    subst h
    refine ⟨hempty, bp.bps, ?_⟩
    apply TableRemoved.mk
    · obtain ⟨i, hi⟩ := List.exists_mem_of_ne_nil _ hempty
      exact ⟨i, hi, hi⟩
    · symm
      apply List.filter_eq_nil_iff.mpr
      simp
    · simp
    · simp
    · exact hnext
    · exact hobj
    · simp

/-- The item in a slot is freed by its list or has been freed before, so the second `free` is
always one too many. -/
theorem delIndex_cases (hown : TableOwned bp) {idx : Int}
    (h : bpStep readAt bp (.delIndex idx) = some bp') : CallFits bp (.delIndex idx) ∧ bp' = bp := by
  simp only [bpStep, rBpDelIndex] at h
  rw [CallFits]
  split at h
  · rename_i hrange
    split at h
    · rename_i hslot
      refine ⟨hslot, ?_⟩
      have hsame : bp.bpsIdx.set idx.toNat none = bp.bpsIdx := by
        rw [slotInRange, Bool.and_eq_true, decide_eq_true_eq, decide_eq_true_eq] at hrange
        have hlt : idx.toNat < bp.bpsIdx.length := by omega
        rw [rBpGetIndex, if_pos (by simp [slotInRange]; omega), List.getElem?_eq_getElem hlt] at hslot
        have hval : bp.bpsIdx[idx.toNat] = none := by simpa using hslot
        rw [← hval, List.set_getElem_self]
      simpa [hsame] using h.symm
    · rename_i i hslot
      exfalso
      obtain ⟨-, hor⟩ := hown.slot i (getIndex_mem hslot)
      simp only [Option.map_bind, Option.bind_eq_some_iff, Option.map_map, Function.comp_apply,
        Option.map_eq_some_iff] at h
      obtain ⟨bp1, hlist, heap, hfree, -⟩ := h
      have hlive := (ObjectHeap.free_eq_some hfree).1
      split at hlist
      · rename_i hmem
        have hobj := (listDelete_removed hown hmem hlist).object i
        rw [hobj] at hlive
        simp at hlive
      · rename_i hmem
        cases hlist
        rw [hor.resolve_left hmem] at hlive
        simp at hlive
  · rename_i hrange
    refine ⟨by rw [rBpGetIndex, if_neg hrange], ?_⟩
    simpa using h.symm

/-- Every call either fits and keeps or extends the table, or breaks it. -/
theorem step_cases (hown : TableOwned bp) {c : BpCall} (h : bpStep readAt bp c = some bp') :
    (CallFits bp c ∧ (bp' = bp ∨ ∃ item, TableAdded bp bp' item)) ∨
      (¬CallFits bp c ∧ (TableDangling bp bp' ∨ ∃ gone, TableRemoved bp bp' gone)) := by
  cases c with
  | addSw addr size rwx =>
    exact (addSw_cases h).imp_right (fun hd => ⟨hd.1, Or.inl hd.2⟩)
  | addHw addr size rwx => exact Or.inl ⟨trivial, addHw_cases h⟩
  | del addr =>
    rcases del_cases hown h with ⟨hf, heq⟩ | ⟨hf, hr⟩
    · exact Or.inl ⟨hf, Or.inl heq⟩
    · exact Or.inr ⟨hf, Or.inr hr⟩
  | delIndex idx =>
    obtain ⟨hf, heq⟩ := delIndex_cases hown h
    exact Or.inl ⟨hf, Or.inl heq⟩
  | delAll =>
    rcases delAll_cases hown h with ⟨hf, heq⟩ | ⟨hf, hr⟩
    · exact Or.inl ⟨hf, Or.inl heq⟩
    · exact Or.inr ⟨hf, Or.inr hr⟩

variable (readAt) in
theorem exists_step (hown : TableOwned bp) {c : BpCall} (hfit : CallFits bp c) :
    ∃ bp' : RBreakpoint, bpStep readAt bp c = some bp' := by
  cases c with
  | addSw addr size rwx =>
    obtain ⟨r, hr⟩ := exists_rBpAdd hown (some (readAt addr (if size < 1 then 1 else size).toNat)) addr
      (if size < 1 then 1 else size) rBpTypeSw rwx (hfit.imp_right Or.inr)
    exact ⟨r.2, by simp only [bpStep, rBpAddSw, hr, Option.map_some]⟩
  | addHw addr size rwx =>
    obtain ⟨r, hr⟩ := exists_rBpAdd hown none addr size rBpTypeHw rwx (Or.inr (Or.inl (by decide)))
    exact ⟨r.2, by simp only [bpStep, rBpAddHw, hr, Option.map_some]⟩
  | del addr =>
    rw [CallFits] at hfit
    exact ⟨bp, by simp [bpStep, rBpDel, hfit]⟩
  | delIndex idx =>
    rw [CallFits] at hfit
    rw [bpStep, rBpDelIndex, hfit]
    split <;> exact ⟨_, rfl⟩
  | delAll =>
    rw [CallFits] at hfit
    exact ⟨bp, by simp [bpStep, rBpDelAll, hfit]⟩

variable (readAt) in
/-- Every call of the run fits the state it is made in. -/
def RunFits (bp : RBreakpoint) : List BpCall → Prop
  | [] => True
  | c :: cs => CallFits bp c ∧ ∀ bp', bpStep readAt bp c = some bp' → RunFits bp' cs

theorem run_broken {calls : List BpCall} (hown : TableOwned bp) (hb : TableBroken bp)
    (h : bpRun readAt bp calls = some bp') : ¬TableAgrees bp' := by
  induction calls generalizing bp with
  | nil =>
    cases h
    exact hb.not_agrees hown
  | cons c cs ih =>
    obtain ⟨bp1, hstep, hrun⟩ := Option.bind_eq_some_iff.mp h
    rcases step_cases hown hstep with ⟨-, heq | ⟨item, ha⟩⟩ | ⟨-, hd | ⟨gone, hr⟩⟩
    · subst heq
      exact ih hown hb hrun
    · exact ih (ha.owned hown) (ha.broken hown hb) hrun
    · exact ih (hd.owned hown) hd.broken hrun
    · exact ih (hr.owned hown) (hr.broken (Or.inl hb)) hrun

/-- From a table in order, exactly the runs of fitting calls end with one. -/
theorem run_agrees_iff {calls : List BpCall} (hown : TableOwned bp) (hgood : TableAgrees bp) :
    (∃ bp', bpRun readAt bp calls = some bp' ∧ TableAgrees bp') ↔ RunFits readAt bp calls := by
  induction calls generalizing bp with
  | nil => exact ⟨fun _ => trivial, fun _ => ⟨bp, rfl, hgood⟩⟩
  | cons c cs ih =>
    constructor
    · intro ⟨bp', hrun, hagree⟩
      obtain ⟨bp1, hstep, hrest⟩ := Option.bind_eq_some_iff.mp hrun
      rcases step_cases hown hstep with ⟨hfit, heq | ⟨item, ha⟩⟩ | ⟨-, hd | ⟨gone, hr⟩⟩
      · refine ⟨hfit, ?_⟩
        intro bp2 hstep2
        rw [hstep] at hstep2
        cases hstep2
        subst heq
        exact (ih hown hgood).mp ⟨bp', hrest, hagree⟩
      · refine ⟨hfit, ?_⟩
        intro bp2 hstep2
        rw [hstep] at hstep2
        cases hstep2
        exact (ih (ha.owned hown) (ha.agrees hown hgood)).mp ⟨bp', hrest, hagree⟩
      · exact absurd hagree (run_broken (hd.owned hown) hd.broken hrest)
      · exact absurd hagree (run_broken (hr.owned hown) (hr.broken (Or.inr hgood)) hrest)
    · intro ⟨hfit, hnext⟩
      obtain ⟨bp1, hstep⟩ := exists_step readAt hown hfit
      have hrest := hnext bp1 hstep
      rw [bpRun, hstep, Option.bind_some]
      rcases step_cases hown hstep with ⟨-, heq | ⟨item, ha⟩⟩ | ⟨hno, -⟩
      · subst heq
        exact (ih hown hgood).mpr hrest
      · exact (ih (ha.owned hown) (ha.agrees hown hgood)).mpr hrest
      · exact absurd hfit hno

end

theorem pluginAdd_fold (staticPlugins : List RBreakpointPlugin) (bp : RBreakpoint) :
    (staticPlugins.foldl rBpPluginAdd bp).nbps = bp.nbps + staticPlugins.length ∧
      (staticPlugins.foldl rBpPluginAdd bp).bps = bp.bps ∧
      (staticPlugins.foldl rBpPluginAdd bp).bpsIdx = bp.bpsIdx ∧
      (staticPlugins.foldl rBpPluginAdd bp).heap = bp.heap := by
  induction staticPlugins generalizing bp with
  | nil => simp
  | cons p ps ih =>
    obtain ⟨hn, hb, hx, hh⟩ := ih (rBpPluginAdd bp p)
    rw [List.foldl_cons, hn, hb, hx, hh]
    simp [rBpPluginAdd]
    omega

/-- A new table is empty, and its counter has counted the static plugins. -/
theorem start_table (staticPlugins : List RBreakpointPlugin) (cur : Option RBreakpointPlugin)
    (bits endian : Int) (delta : Ut64) {bp : RBreakpoint}
    (hbp : (rBpNew staticPlugins).configure cur bits endian delta = bp) :
    bp.nbps = staticPlugins.length ∧ bp.bps = [] ∧ bp.bpsIdx = List.replicate 16 none ∧
      bp.delta = delta := by
  obtain ⟨hn, hb, hx, -⟩ := pluginAdd_fold staticPlugins
    ⟨0, 0, none, [], 0, [], List.replicate 16 none, 0, ObjectHeap.empty⟩
  subst hbp
  refine ⟨?_, hb, hx, by simp [RBreakpoint.configure]⟩
  rw [RBreakpoint.configure, rBpNew]
  simpa using hn

theorem TableOwned.of_empty {bp : RBreakpoint} (hbps : bp.bps = [])
    (hidx : bp.bpsIdx = List.replicate 16 none) : TableOwned bp where
  live := by simp [hbps]
  nodup := by simp [hbps]
  slot := by simp [hidx]

def rBpPluginX86 : RBreakpointPlugin where
  nbps := 2
  bps := [⟨0, 1, 0, [0xcc]⟩, ⟨0, 2, 0, [0xcd, 0x03]⟩, ⟨0, 0, 0, []⟩]

end Radare.Bp
