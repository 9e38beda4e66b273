import Radare.Framework.History
import Radare.Io.Types

namespace Radare

namespace RIOUndo

/-- The slots by their place on the ring. -/
def ring (u : RIOUndo) (p : Int) : RIOUndos := u.slot (p % rIoUndos)

structure Valid (u : RIOUndo) : Prop where
  idx_nonneg : 0 ≤ u.idx
  idx_lt : u.idx < rIoUndos
  undos_nonneg : 0 ≤ u.undos
  redos_nonneg : 0 ≤ u.redos
  fits : u.undos + u.redos ≤ rIoUndos - 1

/-- The history the ring stands for. -/
def history (u : RIOUndo) : History RIOUndos where
  past := behind u.ring u.idx u.undos.toNat
  here := if u.redos.toNat = 0 then none else some (u.ring u.idx)
  future := ahead u.ring u.idx u.redos.toNat
  recorded := by cases u.redos.toNat <;> simp [ahead]

theorem slot_setSlot (u : RIOUndo) (e : RIOUndos) (i j : Int) (hi : 0 ≤ i) (hi' : i < rIoUndos)
    (hj : 0 ≤ j) : (u.setSlot i e).slot j = if j = i then e else u.slot j := by
  have hlt : i.toNat < 64 := by unfold rIoUndos at hi'; omega
  rw [slot, setSlot, slot, Vector.getElem?_setIfInBounds]
  by_cases h : j = i
  · rw [if_pos (by rw [h]), if_pos hlt, if_pos h]
    rfl
  · rw [if_neg (by omega), if_neg h]

theorem ring_setSlot (u : RIOUndo) (e : RIOUndos) (hv : u.Valid) (p : Int) :
    (u.setSlot u.idx e).ring p = if p % rIoUndos = u.idx then e else u.ring p :=
  slot_setSlot u e u.idx (p % rIoUndos) hv.idx_nonneg hv.idx_lt
    (Int.emod_nonneg p (by decide))

theorem ring_emod (u : RIOUndo) (p : Int) : u.ring (p % rIoUndos) = u.ring p := by
  rw [ring, ring, Int.emod_emod_of_dvd p (dvd_refl rIoUndos)]

/-- The index may stand anywhere over its slot. -/
theorem ring_add_emod (u : RIOUndo) (p k : Int) :
    u.ring (p % rIoUndos + k) = u.ring (p + k) := by
  rw [ring, ring, Int.emod_add_emod]

theorem behind_emod (u : RIOUndo) (p : Int) (n : Nat) :
    behind u.ring (p % rIoUndos) n = behind u.ring p n :=
  behind_congr u.ring u.ring _ _ n (fun k _ _ => ring_add_emod u p (-k))

theorem ahead_emod (u : RIOUndo) (p : Int) (n : Nat) :
    ahead u.ring (p % rIoUndos) n = ahead u.ring p n :=
  ahead_congr u.ring u.ring _ _ n (fun k _ _ => ring_add_emod u p k)

/-- A store at the index is not seen in the other slots before it. -/
theorem behind_setSlot (u : RIOUndo) (e : RIOUndos) (hv : u.Valid) (n : Nat)
    (hn : (n : Int) < rIoUndos) :
    behind (u.setSlot u.idx e).ring u.idx n = behind u.ring u.idx n := by
  refine behind_congr _ _ _ _ n (fun k h1 hk => ?_)
  rw [ring_setSlot u e hv, if_neg]
  have h2 := hv.idx_nonneg
  have h3 := hv.idx_lt
  unfold rIoUndos at *
  omega

theorem ring_setSlot_idx (u : RIOUndo) (e : RIOUndos) (hv : u.Valid) :
    (u.setSlot u.idx e).ring u.idx = e := by
  rw [ring_setSlot u e hv, if_pos (Int.emod_eq_of_lt hv.idx_nonneg hv.idx_lt)]

theorem ring_idx (u : RIOUndo) (hv : u.Valid) : u.ring u.idx = u.slot u.idx := by
  rw [ring, Int.emod_eq_of_lt hv.idx_nonneg hv.idx_lt]

/-- What undo leaves in the ring before it moves. -/
def keepOffset (u : RIOUndo) (offset : Ut64) : RIOUndo :=
  if u.redos = 0 then u.setSlot u.idx ⟨offset, 0⟩ else u

theorem sundo_eq (u : RIOUndo) (offset : Ut64) (hv : u.Valid) :
    u.sundo offset = { u.keepOffset offset with
      idx := (u.idx - 1) % rIoUndos
      undos := u.undos - 1
      redos := u.redos + 1 } := by
  have hidx : Int.tmod (u.idx - 1 + rIoUndos) rIoUndos = (u.idx - 1) % rIoUndos := by
    have h := hv.idx_nonneg
    rw [Int.tmod_eq_emod_of_nonneg (by unfold rIoUndos; omega), Int.add_emod_right]
  unfold sundo keepOffset setSlot
  by_cases h : u.redos = 0
  · simp only [h, if_true, hidx]
  · simp only [h, if_false, hidx]

theorem succ_tmod (u : RIOUndo) (hv : u.Valid) :
    Int.tmod (u.idx + 1) rIoUndos = (u.idx + 1) % rIoUndos :=
  Int.tmod_eq_emod_of_nonneg (by have h := hv.idx_nonneg; omega)

theorem emod_bounds (p : Int) : 0 ≤ p % rIoUndos ∧ p % rIoUndos < rIoUndos :=
  ⟨Int.emod_nonneg p (by decide), Int.emod_lt_of_pos p (by decide)⟩

theorem sundo_valid (u : RIOUndo) (offset : Ut64) (hv : u.Valid) (hu : u.undos ≠ 0) :
    (u.sundo offset).Valid := by
  rw [sundo_eq u offset hv]
  have h1 := hv.undos_nonneg
  have h2 := hv.redos_nonneg
  have h3 := hv.fits
  refine ⟨(emod_bounds _).1, (emod_bounds _).2, ?_, ?_, ?_⟩
  · change 0 ≤ u.undos - 1
    omega
  · change 0 ≤ u.redos + 1
    omega
  · change u.undos - 1 + (u.redos + 1) ≤ _
    omega

theorem sundoRedo_valid (u : RIOUndo) (hv : u.Valid) (hr : u.redos ≠ 0) : u.sundoRedo.Valid := by
  have h1 := hv.undos_nonneg
  have h2 := hv.redos_nonneg
  have h3 := hv.fits
  refine ⟨?_, ?_, ?_, ?_, ?_⟩
  · rw [sundoRedo, succ_tmod u hv]
    exact (emod_bounds _).1
  · rw [sundoRedo, succ_tmod u hv]
    exact (emod_bounds _).2
  · change 0 ≤ u.undos + 1
    omega
  · change 0 ≤ u.redos - 1
    omega
  · change u.undos + 1 + (u.redos - 1) ≤ _
    omega

theorem sundoPush_valid (u : RIOUndo) (e : RIOUndos) (hv : u.Valid) : (u.sundoPush e).Valid := by
  have h1 := hv.undos_nonneg
  have h2 := hv.redos_nonneg
  have h3 := hv.fits
  have hidx : (u.sundoPush e).idx = (u.idx + 1) % rIoUndos := succ_tmod u hv
  have hundos : (u.sundoPush e).undos = if u.undos < rIoUndos - 1 then u.undos + 1 else u.undos :=
    rfl
  refine ⟨hidx ▸ (emod_bounds _).1, hidx ▸ (emod_bounds _).2, ?_, le_refl 0, ?_⟩
  · rw [hundos]
    split <;> omega
  · change (u.sundoPush e).undos + 0 ≤ _
    rw [hundos]
    split <;> omega

/-- A push that is stored is a push of the history. -/
theorem sundoPush_history (u : RIOUndo) (e : RIOUndos) (hv : u.Valid) :
    (u.sundoPush e).history = u.history.push 63 e := by
  have h1 := hv.undos_nonneg
  have h2 := hv.redos_nonneg
  have h3 := hv.fits
  have hidx : (u.sundoPush e).idx = (u.idx + 1) % rIoUndos := succ_tmod u hv
  have hring : (u.sundoPush e).ring = (u.setSlot u.idx e).ring := rfl
  have hundos : (u.sundoPush e).undos.toNat = min 62 u.undos.toNat + 1 := by
    change (if u.undos < rIoUndos - 1 then u.undos + 1 else u.undos).toNat = _
    unfold rIoUndos at *
    split <;> omega
  have hpast : (u.sundoPush e).history.past = (e :: u.history.past).take 63 := by
    change behind (u.sundoPush e).ring (u.sundoPush e).idx (u.sundoPush e).undos.toNat = _
    rw [hundos, hring, hidx, behind_emod, behind, Int.add_sub_cancel, ring_setSlot_idx u e hv,
      behind_setSlot u e hv _ (by unfold rIoUndos; omega), List.take_succ_cons]
    exact congrArg (e :: ·) (behind_take u.ring u.idx u.undos.toNat 62).symm
  exact History.ext hpast rfl rfl

theorem keepOffset_position (u : RIOUndo) (offset : Ut64) (hv : u.Valid) :
    (u.keepOffset offset).ring u.idx = u.history.here.getD ⟨offset, 0⟩ := by
  unfold keepOffset
  by_cases h : u.redos = 0
  · simp [h, ring_setSlot_idx u _ hv, history]
  · have h' : u.redos.toNat ≠ 0 := by have := hv.redos_nonneg; omega
    simp [h, h', history]

theorem keepOffset_behind (u : RIOUndo) (offset : Ut64) (hv : u.Valid) (n : Nat)
    (hn : (n : Int) < rIoUndos) :
    behind (u.keepOffset offset).ring u.idx n = behind u.ring u.idx n := by
  unfold keepOffset
  split
  · exact behind_setSlot u _ hv n hn
  · rfl

theorem keepOffset_ahead (u : RIOUndo) (offset : Ut64) :
    ahead (u.keepOffset offset).ring u.idx u.redos.toNat = ahead u.ring u.idx u.redos.toNat := by
  unfold keepOffset
  split
  · next h => rw [h]; rfl
  · rfl

/-- An undo of the ring is an undo of its history. -/
theorem sundo_history (u : RIOUndo) (offset : Ut64) (hv : u.Valid) (hu : u.undos ≠ 0) :
    u.history.undo ⟨offset, 0⟩ =
      some ((u.sundo offset).slot (u.sundo offset).idx, (u.sundo offset).history) := by
  have h1 := hv.undos_nonneg
  have h2 := hv.redos_nonneg
  have h3 := hv.fits
  obtain ⟨n, hn⟩ : ∃ n, u.undos.toNat = n + 1 := ⟨u.undos.toNat - 1, by omega⟩
  have hbehind := keepOffset_behind u offset hv (n + 1) (by unfold rIoUndos at *; omega)
  rw [behind, behind, List.cons.injEq] at hbehind
  have hpast : u.history.past = u.ring (u.idx - 1) :: behind u.ring (u.idx - 1) n := by
    change behind u.ring u.idx u.undos.toNat = _
    rw [hn, behind]
  have hs := sundo_eq u offset hv
  have hidx : (u.sundo offset).idx = (u.idx - 1) % rIoUndos := by rw [hs]
  have hring : (u.sundo offset).ring = (u.keepOffset offset).ring := by rw [hs]; rfl
  have hundos : (u.sundo offset).undos.toNat = n := by
    rw [hs]
    change (u.undos - 1).toNat = n
    omega
  have hredos : (u.sundo offset).redos.toNat = u.redos.toNat + 1 := by
    rw [hs]
    change (u.redos + 1).toNat = _
    omega
  have hhere : (u.sundo offset).ring (u.sundo offset).idx = u.ring (u.idx - 1) := by
    rw [hidx, ring_emod, hring, hbehind.1]
  have hslot : (u.sundo offset).slot (u.sundo offset).idx = u.ring (u.idx - 1) := by
    rw [← ring_idx _ (sundo_valid u offset hv hu), hhere]
  rw [History.undo, hpast, hslot]
  refine congrArg (fun h => some (u.ring (u.idx - 1), h)) (History.ext ?_ ?_ ?_)
  · change behind u.ring (u.idx - 1) n =
      behind (u.sundo offset).ring (u.sundo offset).idx (u.sundo offset).undos.toNat
    rw [hidx, behind_emod, hundos, hring, hbehind.2]
  · change _ = if (u.sundo offset).redos.toNat = 0 then none
      else some ((u.sundo offset).ring (u.sundo offset).idx)
    rw [hredos, if_neg (Nat.succ_ne_zero _), hhere]
  · change _ :: ahead u.ring u.idx u.redos.toNat =
      ahead (u.sundo offset).ring (u.sundo offset).idx (u.sundo offset).redos.toNat
    rw [hidx, ahead_emod, hredos, hring, ahead, Int.sub_add_cancel, keepOffset_position u offset hv,
      keepOffset_ahead]

/-- A redo of the ring is a redo of its history. -/
theorem sundoRedo_history (u : RIOUndo) (hv : u.Valid) (hr : u.redos ≠ 0) :
    u.history.redo = some (u.sundoRedo.slot u.sundoRedo.idx, u.sundoRedo.history) := by
  have h1 := hv.undos_nonneg
  have h2 := hv.redos_nonneg
  obtain ⟨n, hn⟩ : ∃ n, u.redos.toNat = n + 1 := ⟨u.redos.toNat - 1, by omega⟩
  have hhere : u.history.here = some (u.ring u.idx) := by
    change (if u.redos.toNat = 0 then none else _) = _
    rw [hn, if_neg (Nat.succ_ne_zero n)]
  have hfuture : u.history.future = u.ring (u.idx + 1) :: ahead u.ring (u.idx + 1) n := by
    change ahead u.ring u.idx u.redos.toNat = _
    rw [hn, ahead]
  have hidx : u.sundoRedo.idx = (u.idx + 1) % rIoUndos := succ_tmod u hv
  have hring : u.sundoRedo.ring = u.ring := rfl
  have hundos : u.sundoRedo.undos.toNat = u.undos.toNat + 1 := by
    change (u.undos + 1).toNat = _
    omega
  have hredos : u.sundoRedo.redos.toNat = n := by
    change (u.redos - 1).toNat = n
    omega
  have hnew : u.sundoRedo.ring u.sundoRedo.idx = u.ring (u.idx + 1) := by
    rw [hidx, ring_emod, hring]
  have hslot : u.sundoRedo.slot u.sundoRedo.idx = u.ring (u.idx + 1) := by
    rw [← ring_idx _ (sundoRedo_valid u hv hr), hnew]
  have hempty : (ahead u.ring (u.idx + 1) n).isEmpty = decide (n = 0) := by
    cases n <;> rfl
  rw [hslot, History.redo]
  split
  · next here e future hh hf =>
    rw [hhere, Option.some.injEq] at hh
    rw [hfuture, List.cons.injEq] at hf
    obtain ⟨rfl, rfl⟩ := hf
    subst hh
    refine congrArg (fun h => some (u.ring (u.idx + 1), h)) (History.ext ?_ ?_ ?_)
    · change _ :: behind u.ring u.idx u.undos.toNat =
        behind u.sundoRedo.ring u.sundoRedo.idx u.sundoRedo.undos.toNat
      rw [hidx, behind_emod, hundos, hring, behind, Int.add_sub_cancel]
    · change _ = if u.sundoRedo.redos.toNat = 0 then none
        else some (u.sundoRedo.ring u.sundoRedo.idx)
      rw [hredos, hnew]
      change (if (ahead u.ring (u.idx + 1) n).isEmpty then none else some (u.ring (u.idx + 1))) = _
      rw [hempty]
      by_cases h0 : n = 0 <;> simp [h0]
    · change ahead u.ring (u.idx + 1) n =
        ahead u.sundoRedo.ring u.sundoRedo.idx u.sundoRedo.redos.toNat
      rw [hidx, ahead_emod, hredos, hring]
  · next hne => exact absurd hfuture (hne _ _ _ hhere)

theorem history_past_ne_nil (u : RIOUndo) (hv : u.Valid) :
    u.history.past ≠ [] ↔ u.undos ≠ 0 := by
  have h := hv.undos_nonneg
  rw [← List.length_pos_iff]
  change 0 < (behind u.ring u.idx u.undos.toNat).length ↔ _
  rw [behind_length]
  omega

theorem history_past_head (u : RIOUndo) (hv : u.Valid) (e : RIOUndos)
    (he : u.history.past.head? = some e) (hi : 0 < u.idx) : u.slot (u.idx - 1) = e := by
  have hne : u.undos ≠ 0 := (history_past_ne_nil u hv).mp (by intro h; simp [h] at he)
  have h := hv.undos_nonneg
  obtain ⟨n, hn⟩ : ∃ n, u.undos.toNat = n + 1 := ⟨u.undos.toNat - 1, by omega⟩
  change (behind u.ring u.idx u.undos.toNat).head? = some e at he
  rw [hn, behind, List.head?_cons, Option.some.injEq, ring,
    Int.emod_eq_of_lt (by omega) (by have := hv.idx_lt; omega)] at he
  exact he

end RIOUndo

inductive SeekOp where
  | push (off : Ut64) (cursor : Int)
  | undo (offset : Ut64)
  | redo

def seekStep (io : RIO) : SeekOp → RIO
  | .push off cursor => rIoSundoPush io off cursor
  | .undo offset => (rIoSundo io offset).elim io (·.2)
  | .redo => (rIoSundoRedo io).elim io (·.2)

def seekRun (io : RIO) (ops : List SeekOp) : RIO := ops.foldl seekStep io

/-- The seek history is on and its ring is sound. -/
structure SeekReady (io : RIO) : Prop where
  enabled : io.undo.sEnable = true
  valid : io.undo.Valid

theorem rIoSundo_eq (io : RIO) (offset : Ut64) (h : SeekReady io) :
    rIoSundo io offset =
      if io.undo.undos = 0 then none else some (seekToSlot io (io.undo.sundo offset)) := by
  simp [rIoSundo, h.enabled]

theorem rIoSundoRedo_eq (io : RIO) (h : SeekReady io) :
    rIoSundoRedo io = if io.undo.redos = 0 then none else some (seekToSlot io io.undo.sundoRedo) := by
  simp [rIoSundoRedo, h.enabled]

theorem rIoSundoPush_eq (io : RIO) (off : Ut64) (cursor : Int) (h : SeekReady io) :
    rIoSundoPush io off cursor =
      if io.undo.repeatsSlot ⟨off, cursor⟩ then io
      else { io with undo := io.undo.sundoPush ⟨off, cursor⟩ } := by
  simp [rIoSundoPush, h.enabled]

theorem rIoSundo_some (io : RIO) (offset : Ut64) (h : SeekReady io) (r : RIOUndos × RIO)
    (hr : rIoSundo io offset = some r) :
    io.undo.undos ≠ 0 ∧ r = seekToSlot io (io.undo.sundo offset) := by
  rw [rIoSundo_eq io offset h] at hr
  split at hr
  · cases hr
  · next hu => exact ⟨hu, (Option.some.inj hr).symm⟩

theorem rIoSundoRedo_some (io : RIO) (h : SeekReady io) (r : RIOUndos × RIO)
    (hr : rIoSundoRedo io = some r) :
    io.undo.redos ≠ 0 ∧ r = seekToSlot io io.undo.sundoRedo := by
  rw [rIoSundoRedo_eq io h] at hr
  split at hr
  · cases hr
  · next hu => exact ⟨hu, (Option.some.inj hr).symm⟩

theorem rIoSundo_ready (io : RIO) (offset : Ut64) (h : SeekReady io) (r : RIOUndos × RIO)
    (hr : rIoSundo io offset = some r) : SeekReady r.2 := by
  obtain ⟨hu, rfl⟩ := rIoSundo_some io offset h r hr
  refine ⟨?_, RIOUndo.sundo_valid io.undo offset h.valid hu⟩
  change (io.undo.sundo offset).sEnable = true
  rw [RIOUndo.sundo_eq io.undo offset h.valid, ← h.enabled, RIOUndo.keepOffset]
  split <;> rfl

theorem rIoSundoRedo_ready (io : RIO) (h : SeekReady io) (r : RIOUndos × RIO)
    (hr : rIoSundoRedo io = some r) : SeekReady r.2 := by
  obtain ⟨hu, rfl⟩ := rIoSundoRedo_some io h r hr
  exact ⟨h.enabled, RIOUndo.sundoRedo_valid io.undo h.valid hu⟩

theorem rIoSundoPush_ready (io : RIO) (off : Ut64) (cursor : Int) (h : SeekReady io) :
    SeekReady (rIoSundoPush io off cursor) := by
  rw [rIoSundoPush_eq io off cursor h]
  split
  · exact h
  · exact ⟨h.enabled, RIOUndo.sundoPush_valid io.undo _ h.valid⟩

theorem seekStep_ready (io : RIO) (op : SeekOp) (h : SeekReady io) : SeekReady (seekStep io op) := by
  cases op with
  | push off cursor => exact rIoSundoPush_ready io off cursor h
  | undo offset =>
    rw [seekStep]
    cases hr : rIoSundo io offset with
    | none => exact h
    | some r => exact rIoSundo_ready io offset h r hr
  | redo =>
    rw [seekStep]
    cases hr : rIoSundoRedo io with
    | none => exact h
    | some r => exact rIoSundoRedo_ready io h r hr

theorem rIoSundoReset_ready (io : RIO) (hs : io.undo.sEnable = true) :
    SeekReady (rIoSundoReset io) := by
  refine ⟨hs, le_refl 0, ?_, le_refl 0, le_refl 0, ?_⟩
  · change (0 : Int) < 64
    omega
  · change (0 : Int) + 0 ≤ 64 - 1
    omega

theorem seekRun_ready (io : RIO) (ops : List SeekOp) (h : SeekReady io) :
    SeekReady (seekRun io ops) := by
  induction ops generalizing io with
  | nil => exact h
  | cons op ops ih => exact ih (seekStep io op) (seekStep_ready io op h)

theorem rIoSundo_refines (io : RIO) (offset : Ut64) (h : SeekReady io) :
    (rIoSundo io offset).map (fun r => (r.1, r.2.undo.history)) =
      io.undo.history.undo ⟨offset, 0⟩ := by
  rw [rIoSundo_eq io offset h]
  by_cases hu : io.undo.undos = 0
  · have hp : io.undo.history.past = [] := by
      have hp := (RIOUndo.history_past_ne_nil io.undo h.valid).not
      simpa [hu] using hp
    rw [if_pos hu, History.undo, hp]
    rfl
  · rw [if_neg hu, RIOUndo.sundo_history io.undo offset h.valid hu]
    rfl

theorem rIoSundoRedo_refines (io : RIO) (h : SeekReady io) :
    (rIoSundoRedo io).map (fun r => (r.1, r.2.undo.history)) = io.undo.history.redo := by
  rw [rIoSundoRedo_eq io h]
  by_cases hr : io.undo.redos = 0
  · have hh : io.undo.history.here = none := by simp [RIOUndo.history, hr]
    rw [if_pos hr, History.redo, hh]
    rfl
  · rw [if_neg hr, RIOUndo.sundoRedo_history io.undo h.valid hr]
    rfl

theorem rIoSundoPush_refines (io : RIO) (off : Ut64) (cursor : Int) (h : SeekReady io)
    (hr : io.undo.repeatsSlot ⟨off, cursor⟩ = false) :
    (rIoSundoPush io off cursor).undo.history = io.undo.history.push 63 ⟨off, cursor⟩ := by
  rw [rIoSundoPush_eq io off cursor h, hr]
  exact RIOUndo.sundoPush_history io.undo _ h.valid

/-- Undos that all succeed, each with its own offset. -/
def sundos (io : RIO) : List Ut64 → Option RIO
  | [] => some io
  | off :: offs => (rIoSundo io off).bind (fun r => sundos r.2 offs)

/-- Redos that all succeed, with the result of the last one. -/
def sredos (io : RIO) : Nat → Option (RIOUndos × RIO)
  | 0 => none
  | 1 => rIoSundoRedo io
  | k + 2 => (sredos io (k + 1)).bind (fun r => rIoSundoRedo r.2)

theorem sundos_refines (io : RIO) (offs : List Ut64) (h : SeekReady io) (io' : RIO)
    (hu : sundos io offs = some io') :
    SeekReady io' ∧ io.undo.history.undos (offs.map (⟨·, 0⟩)) = some io'.undo.history := by
  induction offs generalizing io with
  | nil =>
    have he : io = io' := by simpa [sundos] using hu
    exact ⟨he ▸ h, by rw [← he]; rfl⟩
  | cons off offs ih =>
    obtain ⟨r, hr, hu'⟩ := Option.bind_eq_some_iff.mp hu
    have href := rIoSundo_refines io off h
    rw [hr, Option.map_some] at href
    obtain ⟨hready, hundos⟩ := ih r.2 (rIoSundo_ready io off h r hr) hu'
    refine ⟨hready, ?_⟩
    rw [List.map_cons, History.undos, ← href]
    exact hundos

/-- Redos of the history are redos of the ring. -/
theorem sredos_refines (io : RIO) (k : Nat) (h : SeekReady io) (e : RIOUndos)
    (g : History RIOUndos) (hr : io.undo.history.redos k = some (e, g)) :
    ∃ io', sredos io k = some (e, io') ∧ SeekReady io' ∧ io'.undo.history = g := by
  have one (io : RIO) (h : SeekReady io) (e : RIOUndos) (g : History RIOUndos)
      (hr : io.undo.history.redo = some (e, g)) :
      ∃ io', rIoSundoRedo io = some (e, io') ∧ SeekReady io' ∧ io'.undo.history = g := by
    rw [← rIoSundoRedo_refines io h, Option.map_eq_some_iff] at hr
    obtain ⟨⟨e', io'⟩, hredo, heq⟩ := hr
    obtain ⟨rfl, rfl⟩ := Prod.mk.inj heq
    exact ⟨io', hredo, rIoSundoRedo_ready io h _ hredo, rfl⟩
  induction k generalizing e g with
  | zero => cases hr
  | succ k ih =>
    cases k with
    | zero => exact one io h e g hr
    | succ k =>
      obtain ⟨⟨e₁, g₁⟩, h1, h2⟩ := Option.bind_eq_some_iff.mp hr
      obtain ⟨io₁, hs, hready, hg⟩ := ih e₁ g₁ h1
      subst hg
      obtain ⟨io', hredo, hready', hg'⟩ := one io₁ hready e g h2
      refine ⟨io', ?_, hready', hg'⟩
      rw [sredos, hs]
      exact hredo

theorem rIoSundoRedo_off (io : RIO) (h : SeekReady io) (e : RIOUndos) (io' : RIO)
    (hr : rIoSundoRedo io = some (e, io')) : io'.off = rIoSectionVaddrToMaddrTry io' e.off := by
  obtain ⟨-, heq⟩ := rIoSundoRedo_some io h _ hr
  obtain ⟨rfl, rfl⟩ := Prod.mk.inj heq
  rfl

theorem sredos_off (io : RIO) (k : Nat) (h : SeekReady io) (e : RIOUndos) (io' : RIO)
    (hr : sredos io k = some (e, io')) :
    SeekReady io' ∧ io'.off = rIoSectionVaddrToMaddrTry io' e.off := by
  induction k generalizing e io' with
  | zero => cases hr
  | succ k ih =>
    cases k with
    | zero => exact ⟨rIoSundoRedo_ready io h _ hr, rIoSundoRedo_off io h e io' hr⟩
    | succ k =>
      obtain ⟨⟨e₁, io₁⟩, h1, h2⟩ := Option.bind_eq_some_iff.mp hr
      have hready := (ih e₁ io₁ h1).1
      exact ⟨rIoSundoRedo_ready io₁ hready _ h2, rIoSundoRedo_off io₁ hready e io' h2⟩

/-- The next call does to the ring what it does to the history. -/
structure ActsAsHistory (io : RIO) : Prop where
  undo : ∀ off, (rIoSundo io off).map (fun r => (r.1, r.2.undo.history)) =
    io.undo.history.undo ⟨off, 0⟩
  redo : (rIoSundoRedo io).map (fun r => (r.1, r.2.undo.history)) = io.undo.history.redo
  push : ∀ off cursor, io.undo.repeatsSlot ⟨off, cursor⟩ = false →
    (rIoSundoPush io off cursor).undo.history = io.undo.history.push 63 ⟨off, cursor⟩
  /-- With an entry live, only a push of that entry can be taken for a repeat. -/
  fresh : ∀ off cursor, io.undo.history.past ≠ [] →
    io.undo.history.past.head? ≠ some ⟨off, cursor⟩ → io.undo.repeatsSlot ⟨off, cursor⟩ = false
  repeated : ∀ off cursor, 0 < io.undo.idx →
    io.undo.history.past.head? = some ⟨off, cursor⟩ → rIoSundoPush io off cursor = io

theorem SeekReady.actsAsHistory (io : RIO) (h : SeekReady io) : ActsAsHistory io where
  undo := fun off => rIoSundo_refines io off h
  redo := rIoSundoRedo_refines io h
  push := fun off cursor hr => rIoSundoPush_refines io off cursor h hr
  fresh := by
    intro off cursor hne hhead
    by_contra hrep
    simp only [RIOUndo.repeatsSlot, Bool.not_eq_false, Bool.and_eq_true, decide_eq_true_eq] at hrep
    have hfirst := List.head?_eq_some_head hne
    have hslot := RIOUndo.history_past_head io.undo h.valid _ hfirst hrep.1
    apply hhead
    rw [hfirst, ← hslot, hrep.2]
  repeated := by
    intro off cursor hi he
    have hslot := RIOUndo.history_past_head io.undo h.valid _ he hi
    rw [rIoSundoPush_eq io off cursor h, if_pos]
    simp [RIOUndo.repeatsSlot, hi, hslot]

theorem rIoSundoPush_next (io : RIO) (off now : Ut64) (cursor : Int) (h : SeekReady io)
    (hr : io.undo.repeatsSlot ⟨off, cursor⟩ = false) :
    (rIoSundo (rIoSundoPush io off cursor) now).map (·.1) = some ⟨off, cursor⟩ ∧
    rIoSundoRedo (rIoSundoPush io off cursor) = none := by
  have hready := rIoSundoPush_ready io off cursor h
  have hundo := rIoSundo_refines _ now hready
  have hredo := rIoSundoRedo_refines _ hready
  rw [rIoSundoPush_refines io off cursor h hr] at hundo hredo
  constructor
  · have hmap := congrArg (Option.map (·.1)) hundo
    rw [Option.map_map, History.undo_push 62] at hmap
    exact hmap
  · rw [History.redo_push] at hredo
    simpa using hredo

/-- As many redos as undos lead back to the offset the first undo was given. -/
theorem sredos_sundos (io : RIO) (h : SeekReady io) (off : Ut64) (offs : List Ut64) (io' : RIO)
    (h0 : io.undo.redos = 0) (hu : sundos io (off :: offs) = some io') :
    ∃ io'', sredos io' (offs.length + 1) = some (⟨off, 0⟩, io'') ∧
      io''.off = rIoSectionVaddrToMaddrTry io'' off ∧ io''.undo.history = io.undo.history := by
  obtain ⟨hready, hundos⟩ := sundos_refines io (off :: offs) h io' hu
  have hback := History.redos_undos _ _ _ _ hundos
  have hhere : io.undo.history.here = none := by simp [RIOUndo.history, h0]
  rw [hhere, List.length_map] at hback
  obtain ⟨io'', hs, -, hg⟩ := sredos_refines io' _ hready _ _ hback
  exact ⟨io'', hs, (sredos_off io' _ hready _ io'' hs).2, hg⟩

/-- Every run keeps the ring sound and a linear history of the last 63 entries. -/
theorem seek_ring_refines_history (io : RIO) (hs : io.undo.sEnable = true) (ops : List SeekOp) :
    (rIoSundoReset io).undo.history = History.empty ∧
    (seekRun (rIoSundoReset io) ops).undo.Valid ∧
    ActsAsHistory (seekRun (rIoSundoReset io) ops) ∧
    (∀ off now cursor,
      (seekRun (rIoSundoReset io) ops).undo.repeatsSlot ⟨off, cursor⟩ = false →
      (rIoSundo (rIoSundoPush (seekRun (rIoSundoReset io) ops) off cursor) now).map (·.1) =
        some ⟨off, cursor⟩ ∧
      rIoSundoRedo (rIoSundoPush (seekRun (rIoSundoReset io) ops) off cursor) = none) ∧
    (∀ off offs io', (seekRun (rIoSundoReset io) ops).undo.redos = 0 →
      sundos (seekRun (rIoSundoReset io) ops) (off :: offs) = some io' →
      ∃ io'', sredos io' (offs.length + 1) = some (⟨off, 0⟩, io'') ∧
        io''.off = rIoSectionVaddrToMaddrTry io'' off ∧
        io''.undo.history = (seekRun (rIoSundoReset io) ops).undo.history) := by
  have hready := seekRun_ready _ ops (rIoSundoReset_ready io hs)
  refine ⟨rfl, hready.valid, hready.actsAsHistory, ?_, ?_⟩
  · intro off now cursor hr
    exact rIoSundoPush_next _ off now cursor hready hr
  · intro off offs io' h0 hu
    exact sredos_sundos _ hready off offs io' h0 hu

/-- The state after `r_io_undo_init` and `r_io_undo_enable` as the core calls them. -/
def seekIO : RIO := rIoUndoEnable (rIoUndoInit emptyIO) true false

theorem seek_ring_refines_history_two_pushes :
    (seekRun (rIoSundoReset seekIO) [.push 16 0, .push 32 0]).undo.undos = 2 ∧
    ∃ io' io'', sundos (seekRun (rIoSundoReset seekIO) [.push 16 0, .push 32 0]) [48, 32] = some io' ∧
      sredos io' 2 = some (⟨48, 0⟩, io'') := by
  obtain ⟨-, -, -, -, h⟩ := seek_ring_refines_history seekIO rfl [.push 16 0, .push 32 0]
  obtain ⟨io'', hs, -, -⟩ := h 48 [32] _ rfl rfl
  exact ⟨rfl, _, io'', rfl, hs⟩

/-- A push that repeats the last entry keeps the redo. -/
theorem seek_push_keeps_redo :
    (rIoSundoRedo (rIoSundoPush (seekRun (rIoSundoReset seekIO)
      [.push 16 0, .push 32 0, .undo 48]) 16 0)).map (·.1) = some ⟨48, 0⟩ := by
  decide

end Radare
