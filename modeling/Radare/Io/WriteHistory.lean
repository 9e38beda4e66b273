import Radare.Framework.Memory
import Radare.Io.Types

namespace Radare

/-- An I/O whose reads and writes are exact, with its undo state. -/
structure ByteIO where
  mem : Ut64 → Ut8
  undo : RIOUndo

namespace ByteIO

def readAt (io : ByteIO) (addr : Ut64) (len : Nat) : List Ut8 := memRead io.mem addr len

def writeAt (io : ByteIO) (addr : Ut64) (buf : List Ut8) : ByteIO :=
  { io with mem := memWrite io.mem addr buf }

def setEnable (io : ByteIO) (w : Bool) : ByteIO :=
  { io with undo := { io.undo with wEnable := w } }

end ByteIO

/-- The record keeps the bytes that stand at `off` before the write. -/
def RIOUndoWrite.ofWrite (io : ByteIO) (off : Ut64) (data : List Ut8) : RIOUndoWrite where
  set := true
  off := off
  o := io.readAt off data.length
  n := data
  sizes := memRead_length io.mem off data.length

def rIoWundoNew (io : ByteIO) (off : Ut64) (data : List Ut8) : ByteIO :=
  if !io.undo.wEnable then io
  else { io with
    undo := { io.undo with wList := io.undo.wList ++ [RIOUndoWrite.ofWrite io off data] } }

/-- The write is made with recording switched off; the mark of the record follows. -/
def rIoWundoApply (io : ByteIO) (u : RIOUndoWrite) (set : Bool) : RIOUndoWrite × ByteIO :=
  let orig := io.undo.wEnable
  let io := io.setEnable false
  let io := io.writeAt u.off (if set then u.n else u.o)
  ({ u with set := set }, io.setEnable orig)

/-- `r_list_foreach_prev`: the last record comes first, whichever way the writes go. -/
def wundoApplyPrev (set : Bool) : List RIOUndoWrite → ByteIO → List RIOUndoWrite × ByteIO
  | [], io => ([], io)
  | u :: us, io =>
    let rest := wundoApplyPrev set us io
    let r := rIoWundoApply rest.2 u set
    (r.1 :: rest.1, r.2)

def rIoWundoApplyAll (io : ByteIO) (set : Bool) : ByteIO :=
  let r := wundoApplyPrev set io.undo.wList io
  { r.2 with undo := { r.2.undo with wList := r.1 } }

/-- A write that goes through the undo log. -/
def recordedWrite (io : ByteIO) (w : Ut64 × List Ut8) : ByteIO :=
  (rIoWundoNew io w.1 w.2).writeAt w.1 w.2

def recordedWrites (io : ByteIO) (ws : List (Ut64 × List Ut8)) : ByteIO := ws.foldl recordedWrite io

/-- The bytes a record puts back or puts in again. -/
def RIOUndoWrite.block (set : Bool) (u : RIOUndoWrite) : Ut64 × List Ut8 :=
  (u.off, if set then u.n else u.o)

theorem rIoWundoApply_mem (io : ByteIO) (u : RIOUndoWrite) (set : Bool) :
    (rIoWundoApply io u set).2.mem = memWrite io.mem u.off (u.block set).2 := rfl

/-- Applying the records writes their blocks, the last one first. -/
theorem wundoApplyPrev_mem (set : Bool) (us : List RIOUndoWrite) (io : ByteIO) :
    (wundoApplyPrev set us io).2.mem =
      Overlay.writes nextAddr io.mem (us.map (·.block set)).reverse := by
  induction us with
  | nil => rfl
  | cons u us ih =>
    rw [wundoApplyPrev, rIoWundoApply_mem, ih, List.map_cons, List.reverse_cons, Overlay.writes,
      Overlay.writes, List.foldl_append]
    rfl

theorem wundoApplyPrev_records (set : Bool) (us : List RIOUndoWrite) (io : ByteIO) :
    (wundoApplyPrev set us io).1 = us.map (fun u => { u with set := set }) := by
  induction us with
  | nil => rfl
  | cons u us ih => rw [wundoApplyPrev, ih, List.map_cons]; rfl

theorem rIoWundoApplyAll_mem (io : ByteIO) (set : Bool) :
    (rIoWundoApplyAll io set).mem =
      Overlay.writes nextAddr io.mem (io.undo.wList.map (·.block set)).reverse :=
  wundoApplyPrev_mem set io.undo.wList io

/-- Applying the log changes its marks, not its blocks. -/
theorem rIoWundoApplyAll_blocks (io : ByteIO) (set set' : Bool) :
    (rIoWundoApplyAll io set).undo.wList.map (·.block set') =
      io.undo.wList.map (·.block set') := by
  change (wundoApplyPrev set io.undo.wList io).1.map _ = _
  rw [wundoApplyPrev_records, List.map_map]
  rfl

/-- What writing `ws` over `m` leaves in the log. -/
def writeRecords (m : Ut64 → Ut8) : List (Ut64 × List Ut8) → List RIOUndoWrite
  | [] => []
  | w :: ws =>
    { set := true
      off := w.1
      o := memRead m w.1 w.2.length
      n := w.2
      sizes := memRead_length m w.1 w.2.length } :: writeRecords (memWrite m w.1 w.2) ws

theorem writeRecords_redo (m : Ut64 → Ut8) (ws : List (Ut64 × List Ut8)) :
    (writeRecords m ws).map (·.block true) = ws := by
  induction ws generalizing m with
  | nil => rfl
  | cons w ws ih => rw [writeRecords, List.map_cons, ih]; rfl

theorem recordedWrite_eq (io : ByteIO) (w : Ut64 × List Ut8) (hw : io.undo.wEnable = true) :
    recordedWrite io w =
      { mem := memWrite io.mem w.1 w.2
        undo := { io.undo with wList := io.undo.wList ++ [RIOUndoWrite.ofWrite io w.1 w.2] } } := by
  rw [recordedWrite, rIoWundoNew, hw]
  rfl

theorem recordedWrites_spec (io : ByteIO) (ws : List (Ut64 × List Ut8))
    (hw : io.undo.wEnable = true) :
    (recordedWrites io ws).mem = Overlay.writes nextAddr io.mem ws ∧
    (recordedWrites io ws).undo.wList = io.undo.wList ++ writeRecords io.mem ws := by
  induction ws generalizing io with
  | nil => exact ⟨rfl, (List.append_nil _).symm⟩
  | cons w ws ih =>
    have hstep := recordedWrite_eq io w hw
    obtain ⟨hmem, hlog⟩ := ih (recordedWrite io w) (by rw [hstep]; exact hw)
    rw [hstep] at hmem hlog
    rw [List.append_assoc] at hlog
    rw [recordedWrites, List.foldl_cons, hstep]
    exact ⟨hmem, hlog⟩

/-- The old bytes of a log, put back from its end, undo the writes that made it. -/
theorem writeRecords_undo (m : Ut64 → Ut8) (ws : List (Ut64 × List Ut8)) :
    Overlay.writes nextAddr (Overlay.writes nextAddr m ws)
      ((writeRecords m ws).map (·.block false)).reverse = m := by
  induction ws generalizing m with
  | nil => rfl
  | cons w ws ih =>
    rw [writeRecords, List.map_cons, List.reverse_cons, Overlay.writes, List.foldl_append]
    have hrest := ih (memWrite m w.1 w.2)
    change memWrite (Overlay.writes nextAddr (Overlay.writes nextAddr (memWrite m w.1 w.2) ws)
      ((writeRecords (memWrite m w.1 w.2) ws).map (·.block false)).reverse)
      w.1 (memRead m w.1 w.2.length) = m
    rw [hrest]
    exact Overlay.write_read_restore nextAddr m w.1 w.2

theorem undo_recordedWrites (io : ByteIO) (ws : List (Ut64 × List Ut8))
    (hw : io.undo.wEnable = true) (hl : io.undo.wList = []) :
    (rIoWundoApplyAll (recordedWrites io ws) false).mem = io.mem := by
  obtain ⟨hmem, hlog⟩ := recordedWrites_spec io ws hw
  rw [rIoWundoApplyAll_mem, hmem, hlog, hl, List.nil_append, writeRecords_undo]

/-- Undoing the whole log restores the memory, however the writes overlap. -/
theorem wundo_apply_all_restores (m0 : Ut64 → Ut8) (undo : RIOUndo) (ws : List (Ut64 × List Ut8))
    (hw : undo.wEnable = true) (hl : undo.wList = []) :
    (rIoWundoApplyAll (recordedWrites ⟨m0, undo⟩ ws) false).mem = m0 :=
  undo_recordedWrites ⟨m0, undo⟩ ws hw hl

/-- The undo state with recording switched on and nothing recorded. -/
def recording : RIOUndo := RIOUndo.zero.init.enable false true

theorem wundo_apply_all_restores_overlap :
    (recordedWrites ⟨fun _ => 7, recording⟩ [(2, [1, 2, 3]), (3, [4, 5])]).mem 3 = 4 ∧
    (rIoWundoApplyAll (recordedWrites ⟨fun _ => 7, recording⟩ [(2, [1, 2, 3]), (3, [4, 5])])
      false).mem = fun _ => 7 :=
  ⟨by decide, wundo_apply_all_restores _ recording _ rfl rfl⟩

/-- A redo replays the blocks from the end of the log. -/
theorem redo_recordedWrites (io : ByteIO) (ws : List (Ut64 × List Ut8))
    (hw : io.undo.wEnable = true) (hl : io.undo.wList = []) :
    (rIoWundoApplyAll (rIoWundoApplyAll (recordedWrites io ws) false) true).mem =
      Overlay.writes nextAddr io.mem ws.reverse := by
  have hlog := (recordedWrites_spec io ws hw).2
  rw [rIoWundoApplyAll_mem, undo_recordedWrites io ws hw hl, rIoWundoApplyAll_blocks, hlog, hl,
    List.nil_append, writeRecords_redo]

/-- The first and the last write that cover an address agree there. -/
def EndsAgree (ws : List (Ut64 × List Ut8)) : Prop :=
  ∀ x, Overlay.firstPatch nextAddr ws x = Overlay.lastPatch nextAddr ws x

/-- Undo and redo lead back exactly when no later write changed a byte of an earlier one for good. -/
theorem wundo_redo_iff (m0 : Ut64 → Ut8) (undo : RIOUndo) (ws : List (Ut64 × List Ut8))
    (hw : undo.wEnable = true) (hl : undo.wList = []) :
    (rIoWundoApplyAll (rIoWundoApplyAll (recordedWrites ⟨m0, undo⟩ ws) false) true).mem =
      (recordedWrites ⟨m0, undo⟩ ws).mem ↔ EndsAgree ws := by
  rw [redo_recordedWrites ⟨m0, undo⟩ ws hw hl, (recordedWrites_spec ⟨m0, undo⟩ ws hw).1, funext_iff]
  refine forall_congr' (fun x => ?_)
  rw [Overlay.writes_apply, Overlay.writes_apply, Overlay.lastPatch_reverse]
  have hsome := Overlay.firstPatch_isSome nextAddr ws x
  cases hf : Overlay.firstPatch nextAddr ws x with
  | none =>
    rw [hf] at hsome
    have hlast : Overlay.lastPatch nextAddr ws x = none := by simpa using hsome.symm
    simp [hlast]
  | some b =>
    rw [hf] at hsome
    obtain ⟨c, hc⟩ := Option.isSome_iff_exists.mp hsome.symm
    simp [hc]

theorem wundo_redo_same_ends :
    EndsAgree [(2, [1]), (2, [4]), (2, [1])] ∧
    (rIoWundoApplyAll (rIoWundoApplyAll (recordedWrites ⟨fun _ => 7, recording⟩
      [(2, [1]), (2, [4]), (2, [1])]) false) true).mem =
      (recordedWrites ⟨fun _ => 7, recording⟩ [(2, [1]), (2, [4]), (2, [1])]).mem := by
  have hends : EndsAgree [(2, [1]), (2, [4]), (2, [1])] := by
    intro x
    by_cases hx : x = 2
    · subst hx; decide
    · have hpatch (b : Ut8) : Overlay.patch nextAddr 2 [b] x = none := by
        rw [Overlay.patch, Overlay.patch, if_neg hx]
        rfl
      simp only [Overlay.firstPatch, Overlay.lastPatch, List.findSome?_cons, List.findSome?_nil,
        List.foldl_cons, List.foldl_nil, hpatch, Option.or_none]
  exact ⟨hends, (wundo_redo_iff _ recording _ rfl rfl).mpr hends⟩

/-- Of two writes to one byte the redo leaves the older. -/
theorem wundo_redo_leaves_older :
    (rIoWundoApplyAll (rIoWundoApplyAll (recordedWrites ⟨fun _ => 7, recording⟩ [(2, [1]), (2, [4])])
      false) true).mem ≠ (recordedWrites ⟨fun _ => 7, recording⟩ [(2, [1]), (2, [4])]).mem := by
  intro h
  have hredo : (rIoWundoApplyAll (rIoWundoApplyAll (recordedWrites ⟨fun _ => 7, recording⟩
      [(2, [1]), (2, [4])]) false) true).mem 2 = 1 := by decide
  have hwritten : (recordedWrites ⟨fun _ => 7, recording⟩ [(2, [1]), (2, [4])]).mem 2 = 4 := by
    decide
  rw [h, hwritten] at hredo
  exact absurd hredo (by decide)

end Radare
