import Radare.Io.CacheProof
import Radare.Io.Read

namespace Radare

section
variable (readers : RIOReaders)

/-- The current offset is physical; the read works on virtual addresses. -/
def rIoRead (io : RIO) (len : Int) : Option (Int × RIO) :=
  if io.curDesc.isNone || io.off = ut64Max then some (-1, io)
  else if io.enforceRwx &&& rIoReadFlag ≠ 0 ∧ rIoSectionGetRwx io io.off &&& rIoReadFlag = 0 then
    some (-1, io)
  else
    let vaddr := rIoSectionMaddrToVaddr io io.off
    (rIoReadAt readers io (if vaddr = ut64Max then io.off else vaddr) len).map (fun r =>
      (r.1, if r.1 > 0 then { r.2.2 with off := r.2.2.off + BitVec.ofInt 64 r.1 } else r.2.2))

def RIOCache.inside (c : RIOCache) (lo hi : Ut64) : Bool := c.fromAddr ≥ lo && c.toAddr ≤ hi

/-- The item is taken back through `writeAt` in mode 2, and only the first item that lies inside
is. An item that was never written out leaves the cache and is freed with its node; the flag is
cleared in it all the same, and that store is outside any block. -/
def cacheInvalidateWith (writeAt : RIO → Ut64 → List Ut8 → Option (Int × RIO)) (io : RIO)
    (lo hi : Ut64) : Option (Bool × RIO) :=
  if lo < hi then
    match io.cache.findIdx? (fun c => c.inside lo hi) with
    | none => some (false, io)
    | some i =>
      match io.cache[i]? with
      | none => some (false, io)
      | some c =>
        (writeAt { io with cached := 2 } c.fromAddr c.odata).bind (fun r =>
          if c.written then
            some (true, { r.2 with
              cached := io.cached
              cache := r.2.cache.modify i (fun c => { c with written := false }) })
          else none)
  else some (false, io)

/-- The mask is applied to the new bytes; what was read for it is not used. -/
def applyMask (io : RIO) (buf : List Ut8) : Option (Option (List Ut8) × RIO) :=
  match io.writeMask with
  | none => some (some buf, io)
  | some mask =>
    if buf = [] then some (none, io)
    else
      (rIoRead readers (rIoSeek io io.off .set).2 buf.length).map (fun r =>
        (some (buf.mapIdx (fun i b => b &&& mask.getD (i % mask.length) 0)),
          (rIoSeek r.2 r.2.off .set).2))

/-- The write through the plugin, from the offset inside the map. A failure outside mode 2 takes
cached items back, and that runs in mode 2. -/
def writePlugin (io : RIO) (buf : List Ut8) : Option (Int × RIO) :=
  let io := { (rIoMapSelect io io.off).2 with off := io.off }
  let io : RIO := match rIoMapGet io io.off with
    | some m => { io with off := io.off - m.fromAddr }
    | none => io
  let r : Int × RIO := match io.curDesc with
    | some d => ((d.data.write buf).1, io.setData (d.data.write buf).2)
    | none => (-1, io)
  if r.1 = -1 then
    if io.cached ≠ 2 then
      (cacheInvalidateWith (fun io addr buf => some (rIoCacheWrite io addr buf)) r.2 r.2.off
        (r.2.off + 1)).map (fun s => (r.1, s.2))
    else some r
  else
    match r.2.curDesc with
    | some d =>
      let io := rIoMapWriteUpdate r.2 d.fd r.2.off (BitVec.ofInt 64 r.1)
      some (r.1, { io with off := io.off + BitVec.ofInt 64 r.1 })
    | none => some r

def rIoWrite (io : RIO) (buf : List Ut8) : Option (Int × RIO) :=
  if io.enforceRwx &&& rIoWriteFlag ≠ 0 ∧ rIoSectionGetRwx io io.off &&& rIoWriteFlag = 0 then
    some (-1, io)
  else
    let r : Int × RIO := if io.cached ≠ 0 then rIoCacheWrite io io.off buf else (-1, io)
    if io.cached ≠ 0 ∧ r.1 = buf.length then some (buf.length, r.2)
    else
      let buf := if io.cached ≠ 0 ∧ r.1 > 0 then buf.drop r.1.toNat else buf
      match applyMask readers r.2 buf with
      | none => none
      | some (none, io) => some (-1, io)
      | some (some buf, io) => writePlugin io buf

def rIoWriteAt (io : RIO) (addr : Ut64) (buf : List Ut8) : Option (Int × RIO) :=
  if io.cached ≠ 0 then some (rIoCacheWrite io addr buf)
  else rIoWrite readers (rIoSeek io addr .set).2 buf

def rIoCacheInvalidate (io : RIO) (lo hi : Ut64) : Option (Bool × RIO) :=
  cacheInvalidateWith (rIoWriteAt readers) io lo hi

/-- The loop ends with the first item that lies inside. -/
def rIoCacheCommit (io : RIO) (lo hi : Ut64) : Option RIO :=
  match io.cache.findIdx? (fun c => c.inside lo hi) with
  | none => some io
  | some i =>
    match io.cache[i]? with
    | none => some io
    | some c =>
      (rIoWriteAt readers { io with cached := 2 } c.fromAddr c.data).map (fun r =>
        { r.2 with
          cached := io.cached
          cache := if r.1 = 0 then r.2.cache
            else r.2.cache.modify i (fun c => { c with written := true }) })

/-- In mode 2 a write goes to the cache, which refuses it. -/
theorem rIoWriteAt_mode_two (io : RIO) (addr : Ut64) (buf : List Ut8) (h : io.cached = 2) :
    rIoWriteAt readers io addr buf = some (0, io) := by
  rw [rIoWriteAt, if_pos (by omega), rIoCacheWrite, if_pos h]

/-- Committing leaves everything as it is. -/
theorem rIoCacheCommit_eq (io : RIO) (lo hi : Ut64) : rIoCacheCommit readers io lo hi = some io := by
  rw [rIoCacheCommit]
  split
  · rfl
  · split
    · rfl
    · rw [rIoWriteAt_mode_two readers _ _ _ rfl]
      rfl

end

section
variable (readers : RIOReaders)

/-- The byte a one-byte read leaves. -/
def readByte (io : RIO) (addr : Ut64) : Option (List Ut8) :=
  (rIoReadAt readers io addr 1).map (fun r => r.2.1)

def RIOCache.covers (c : RIOCache) (addr : Ut64) : Prop :=
  c.fromAddr.toNat ≤ addr.toNat ∧ addr.toNat < c.fromAddr.toNat + c.size

def RIO.withCached (io : RIO) (c : Int) : RIO := { io with cached := c }

def RIO.uncached (io : RIO) : RIO := io.withCached 0

/-- What a commit is for: the items inside are marked, and without the cache the file shows there
what the cached view showed, and elsewhere what it showed before. -/
structure CommitMeets (io io' : RIO) (lo hi : Ut64) : Prop where
  written : ∀ (i : Nat) (c : RIOCache), io.cache[i]? = some c → c.inside lo hi = true →
    ∃ c' : RIOCache, io'.cache[i]? = some c' ∧ c'.written = true
  stored : ∀ addr, (∃ c ∈ io.cache, c.inside lo hi = true ∧ c.covers addr) →
    readByte readers io'.uncached addr = readByte readers io addr
  kept : ∀ addr, (¬ ∃ c ∈ io.cache, c.inside lo hi = true ∧ c.covers addr) →
    readByte readers io'.uncached addr = readByte readers io.uncached addr

/-- A write of the log as the commit sees it. -/
def writeInside (lo hi : Ut64) (w : Ut64 × List Ut8) : Bool :=
  w.1 ≥ lo && w.1 + BitVec.ofNat 64 w.2.length ≤ hi

variable {readers} in
theorem CacheRun.inside_eq {io : RIO} {ws : List (Ut64 × List Ut8)} (h : CacheRun io ws)
    (lo hi : Ut64) {c : RIOCache} (hc : c ∈ io.cache) :
    c.inside lo hi = writeInside lo hi (c.fromAddr, c.data) := by
  rw [RIOCache.inside, h.ends c hc]
  rfl

/-- A commit that changes nothing meets its purpose only where no uncommitted item is inside. -/
theorem CommitMeets.outside {io : RIO} {ws : List (Ut64 × List Ut8)} (h : CacheRun io ws)
    {lo hi : Ut64} (hm : CommitMeets readers io io lo hi) :
    ∀ w ∈ ws, writeInside lo hi w = false := by
  intro w hw
  rw [← h.log] at hw
  obtain ⟨c, hc, rfl⟩ := List.mem_map.mp hw
  rw [← h.inside_eq lo hi hc]
  by_contra hin
  rw [Bool.not_eq_false] at hin
  obtain ⟨i, hget⟩ := List.mem_iff_getElem?.mp hc
  obtain ⟨c', hc', hwr⟩ := hm.written i c hget hin
  obtain rfl := Option.some.inj (hget.symm.trans hc')
  rw [h.uncommitted c hc] at hwr
  exact nomatch hwr

/-- A commit does what it is for exactly when it has nothing to do. -/
theorem cache_commit_meets_iff (io : RIO) (hempty : io.cache = []) (hmode : io.cached = 1)
    (ws : List (Ut64 × List Ut8)) (lo hi : Ut64) :
    (∃ io', rIoCacheCommit readers (cacheWrites io ws) lo hi = some io' ∧
      CommitMeets readers (cacheWrites io ws) io' lo hi) ↔
      ∀ w ∈ ws, writeInside lo hi w = false := by
  have hrun := cacheRun_of_empty io hempty hmode ws
  rw [rIoCacheCommit_eq]
  constructor
  · rintro ⟨io', hio, hm⟩
    obtain rfl := Option.some.inj hio
    exact hm.outside readers hrun
  · intro hno
    have hnone : ∀ c ∈ (cacheWrites io ws).cache, c.inside lo hi = false := by
      intro c hc
      rw [hrun.inside_eq lo hi hc]
      apply hno
      rw [← hrun.log]
      exact List.mem_map.mpr ⟨c, hc, rfl⟩
    refine ⟨_, rfl, ?_, ?_, fun _ _ => rfl⟩
    · intro i c hi' hin
      rw [hnone c (List.mem_of_getElem? hi')] at hin
      exact nomatch hin
    · rintro addr ⟨c, hc, hin, -⟩
      rw [hnone c hc] at hin
      exact nomatch hin

end

theorem cache_commit_meets_elsewhere :
    ∃ io', rIoCacheCommit noReaders (cacheWrites (cachedFile smallFile) [(2, [10, 11])]) 4 8 =
        some io' ∧
      CommitMeets noReaders (cacheWrites (cachedFile smallFile) [(2, [10, 11])]) io' 4 8 :=
  (cache_commit_meets_iff noReaders (cachedFile smallFile) rfl rfl [(2, [10, 11])] 4 8).mpr
    (by decide)

/-- The file takes the two bytes, but committing the cached write of them leaves it unwritten. -/
theorem cache_commit_writes_nothing :
    (rIoWriteAt noReaders (cachedFile smallFile).uncached 2 [10, 11]).map Prod.fst = some 2 ∧
    ¬ ∃ io', rIoCacheCommit noReaders (cacheWrites (cachedFile smallFile) [(2, [10, 11])]) 0 8 =
        some io' ∧
      CommitMeets noReaders (cacheWrites (cachedFile smallFile) [(2, [10, 11])]) io' 0 8 := by
  refine ⟨by decide, ?_⟩
  rintro ⟨io', hio, hm⟩
  rw [rIoCacheCommit_eq] at hio
  obtain rfl := Option.some.inj hio
  have hrun := cacheRun_of_empty (cachedFile smallFile) rfl rfl [(2, [10, 11])]
  exact absurd (hm.outside noReaders hrun (2, [10, 11]) (List.mem_singleton_self _)) (by decide)

section
variable (readers : RIOReaders)

/-- What a revert is for: the items inside are gone, the others remain in their order, and bytes
that only items inside covered are those of the file again. -/
structure RevertMeets (io io' : RIO) (lo hi : Ut64) : Prop where
  gone : ∀ c ∈ io'.cache, c.inside lo hi = false
  kept : io'.cache = io.cache.filter (fun c => !c.inside lo hi)
  backing : ∀ addr, (∃ c ∈ io.cache, c.covers addr) →
    (∀ c ∈ io.cache, c.covers addr → c.inside lo hi = true) →
    readByte readers io' addr = readByte readers io'.uncached addr

/-- The flag of an item that was never written out is cleared after the item is gone. -/
theorem rIoCacheInvalidate_eq {io : RIO} {ws : List (Ut64 × List Ut8)} (h : CacheRun io ws)
    (lo hi : Ut64) (hlt : lo < hi) :
    rIoCacheInvalidate readers io lo hi =
      if ∃ c ∈ io.cache, c.inside lo hi = true then none else some (false, io) := by
  rw [rIoCacheInvalidate, cacheInvalidateWith, if_pos hlt]
  cases hf : io.cache.findIdx? (fun c => c.inside lo hi) with
  | none =>
    have hno := List.findIdx?_eq_none_iff.mp hf
    rw [if_neg]
    rintro ⟨c, hc, hin⟩
    rw [hno c hc] at hin
    exact nomatch hin
  | some i =>
    obtain ⟨hi', hin, -⟩ := List.findIdx?_eq_some_iff_getElem.mp hf
    have hw := h.uncommitted _ (List.getElem_mem hi')
    rw [if_pos ⟨_, List.getElem_mem hi', hin⟩]
    simp only [List.getElem?_eq_getElem hi']
    rw [rIoWriteAt_mode_two readers _ _ _ rfl]
    simp only [Option.bind_some, hw, Bool.false_eq_true, if_false]

variable {readers} in
theorem CacheRun.exists_inside {io : RIO} {ws : List (Ut64 × List Ut8)} (h : CacheRun io ws)
    (lo hi : Ut64) :
    (∃ c ∈ io.cache, c.inside lo hi = true) ↔ ¬ ∀ w ∈ ws, writeInside lo hi w = false := by
  simp only [not_forall, Bool.not_eq_false]
  constructor
  · rintro ⟨c, hc, hin⟩
    rw [h.inside_eq lo hi hc] at hin
    refine ⟨(c.fromAddr, c.data), ?_, hin⟩
    rw [← h.log]
    exact List.mem_map_of_mem hc
  · rintro ⟨w, hw, hin⟩
    rw [← h.log] at hw
    obtain ⟨c, hc, rfl⟩ := List.mem_map.mp hw
    exact ⟨c, hc, (h.inside_eq lo hi hc).trans hin⟩

/-- With nothing inside there is nothing to take back. -/
theorem RevertMeets.refl {io : RIO} {lo hi : Ut64}
    (hno : ∀ c ∈ io.cache, c.inside lo hi = false) : RevertMeets readers io io lo hi where
  gone := hno
  kept := by
    symm
    rw [List.filter_eq_self]
    intro c hc
    rw [hno c hc]
    rfl
  backing := by
    rintro addr ⟨c, hc, hcov⟩ honly
    have hin := honly c hc hcov
    rw [hno c hc] at hin
    exact nomatch hin

/-- A revert does what it is for exactly when no cached write lies inside. -/
theorem cache_revert_meets_iff (io : RIO) (hempty : io.cache = []) (hmode : io.cached = 1)
    (ws : List (Ut64 × List Ut8)) (lo hi : Ut64) (hlt : lo < hi) :
    (∃ done io', rIoCacheInvalidate readers (cacheWrites io ws) lo hi = some (done, io') ∧
      RevertMeets readers (cacheWrites io ws) io' lo hi) ↔
      ∀ w ∈ ws, writeInside lo hi w = false := by
  have hrun := cacheRun_of_empty io hempty hmode ws
  have hinside := hrun.exists_inside lo hi
  rw [rIoCacheInvalidate_eq readers hrun lo hi hlt]
  constructor
  · rintro ⟨done, io', hio, -⟩
    by_contra hno
    rw [if_pos (hinside.mpr hno)] at hio
    exact nomatch hio
  · intro hno
    have hnone : ¬ ∃ c ∈ (cacheWrites io ws).cache, c.inside lo hi = true :=
      fun h => hinside.mp h hno
    refine ⟨false, cacheWrites io ws, if_neg hnone, ?_⟩
    apply RevertMeets.refl
    intro c hc
    rw [← Bool.not_eq_true]
    exact fun hin => hnone ⟨c, hc, hin⟩

end

theorem cache_revert_meets_elsewhere :
    ∃ done io', rIoCacheInvalidate noReaders
        (cacheWrites (cachedFile smallFile) [(2, [10, 11])]) 4 8 = some (done, io') ∧
      RevertMeets noReaders (cacheWrites (cachedFile smallFile) [(2, [10, 11])]) io' 4 8 :=
  (cache_revert_meets_iff noReaders (cachedFile smallFile) rfl rfl [(2, [10, 11])] 4 8
    (by decide)).mpr (by decide)

/-- The one cached write is inside, and its item is written to after it was freed. -/
theorem cache_revert_stores_in_freed_item :
    rIoCacheInvalidate noReaders (cacheWrites (cachedFile smallFile) [(2, [10, 11])]) 0 8 =
      none ∧
    ¬ ∃ done io', rIoCacheInvalidate noReaders
        (cacheWrites (cachedFile smallFile) [(2, [10, 11])]) 0 8 = some (done, io') ∧
      RevertMeets noReaders (cacheWrites (cachedFile smallFile) [(2, [10, 11])]) io' 0 8 := by
  have hrun := cacheRun_of_empty (cachedFile smallFile) rfl rfl [(2, [10, 11])]
  have hin : ∃ c ∈ (cacheWrites (cachedFile smallFile) [(2, [10, 11])]).cache,
      c.inside 0 8 = true := (hrun.exists_inside 0 8).mpr (by decide)
  have hnone := rIoCacheInvalidate_eq noReaders hrun 0 8 (by decide)
  rw [if_pos hin] at hnone
  refine ⟨hnone, ?_⟩
  rintro ⟨done, io', hio, -⟩
  rw [hnone] at hio
  exact nomatch hio

end Radare
