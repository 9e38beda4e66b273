import Radare.Framework.Memory
import Radare.Framework.ObjectHeap
import Radare.Framework.Windows

namespace Radare.Bp

open Framework

/-- One trap instruction; `bytes` is the constant behind the pointer. -/
structure RBreakpointArch where
  bits : Int
  length : Int
  endian : Int
  bytes : List Ut8

/-- `bps` is the array with its terminator, `nbps` the number of entries the code takes it to have. -/
structure RBreakpointPlugin where
  nbps : Int
  bps : List RBreakpointArch

structure RBreakpointItem where
  addr : Ut64
  size : Int
  recoil : Int
  rwx : Int
  hw : Int
  enabled : Int
  obytes : Option (List Ut8)
  bbytes : Option (List Ut8)

/-- The item as `R_NEW0` makes it. -/
def RBreakpointItem.zero : RBreakpointItem := ⟨0, 0, 0, 0, 0, 0, none, none⟩

/-- Items are objects of `heap`; the list and the slots hold references to them. The entries of
`bpsIdx` are the `bps_idx_count` slots. -/
structure RBreakpoint where
  endian : Int
  bits : Int
  cur : Option RBreakpointPlugin
  plugins : List RBreakpointPlugin
  nbps : Int
  bps : List Nat
  bpsIdx : List (Option Nat)
  delta : Ut64
  heap : ObjectHeap RBreakpointItem

def rBpTypeSw : Int := 0

def rBpTypeHw : Int := 1

/-- The list it searches for a plugin of the same name is that of the breakpoints, which is empty
in a new `RBreakpoint`. -/
def rBpPluginAdd (bp : RBreakpoint) (foo : RBreakpointPlugin) : RBreakpoint :=
  { bp with nbps := bp.nbps + 1, plugins := bp.plugins ++ [foo] }

/-- `staticPlugins` is the build's `R_BP_STATIC_PLUGINS`. -/
def rBpNew (staticPlugins : List RBreakpointPlugin) : RBreakpoint :=
  staticPlugins.foldl rBpPluginAdd
    { endian := 0
      bits := 0
      cur := none
      plugins := []
      nbps := 0
      bps := []
      bpsIdx := List.replicate 16 none
      delta := 0
      heap := ObjectHeap.empty }

/-- What the callers set in a new `RBreakpoint`: plugin, bits, byte order and offset. -/
def RBreakpoint.configure (bp : RBreakpoint) (cur : Option RBreakpointPlugin) (bits endian : Int)
    (delta : Ut64) : RBreakpoint :=
  { bp with cur := cur, bits := bits, endian := endian, delta := delta }

/-- `memcpy (buf + off, b->bytes, b->length)`; outside either buffer it is undefined. -/
def copyTrap (buf : List Ut8) (off : Nat) (b : RBreakpointArch) : Option (List Ut8) :=
  if 0 ≤ b.length ∧ b.length.toNat ≤ b.bytes.length ∧ off + b.length.toNat ≤ buf.length then
    some (overwrite buf off (b.bytes.take b.length.toNat))
  else none

/-- The loop over the trap instructions, with `left` rounds to go. -/
def matchArch (bp : RBreakpoint) (cur : RBreakpointPlugin) (len endian : Int) :
    Nat → Nat → Option (Option RBreakpointArch)
  | 0, _ => some none
  | left + 1, i =>
    match cur.bps[i]? with
    | none => none
    | some b =>
      if b.bits ≠ 0 ∧ bp.bits ≠ b.bits then matchArch bp cur len endian left (i + 1)
      else if b.length = len ∧ b.endian = endian then some (some b)
      else matchArch bp cur len endian left (i + 1)

/-- The buffer is padded with the first instruction, at each of the four offsets. -/
def padTraps (b : RBreakpointArch) (buf : List Ut8) : Option (List Ut8) :=
  [0, 1, 2, 3].foldlM (fun buf i => copyTrap buf i b) buf

/-- What is written for the instruction found, or for none. -/
def putTrap (cur : RBreakpointPlugin) (buf : List Ut8) : Option RBreakpointArch → Option (List Ut8 × Int)
  | some b => (copyTrap buf 0 b).map (fun buf => (buf, b.length))
  | none =>
    match cur.bps[0]? with
    | none => none
    | some b =>
      if b.length = 0 then none
      else if Int.tmod 4 b.length ≠ 0 then some (buf, 0)
      else (padTraps b buf).map (fun buf => (buf, b.length))

/-- Where no instruction fits, the length four is tried. -/
def rBpGetBytes (bp : RBreakpoint) (buf : List Ut8) (len endian : Int) : Option (List Ut8 × Int) :=
  match bp.cur with
  | none => some (buf, 0)
  | some cur =>
    match matchArch bp cur len endian cur.nbps.toNat 0 with
    | none => none
    | some (some b) => putTrap cur buf (some b)
    | some none =>
      if len ≠ 4 then (matchArch bp cur 4 endian cur.nbps.toNat 0).bind (putTrap cur buf)
      else putTrap cur buf none

def inRange (b : RBreakpointItem) (addr : Ut64) : Bool :=
  b.addr ≤ addr && addr < b.addr + BitVec.ofInt 64 b.size

def matchProt (b : RBreakpointItem) (rwx : Int) : Bool := rwx = 0 || b.rwx ≠ 0

def rBpGetIn (bp : RBreakpoint) (addr : Ut64) (rwx : Int) : Option (Option Nat) :=
  bp.heap.find (fun b => inRange b addr && matchProt b rwx) bp.bps

/-- The first empty slot takes the item; without one 16 slots are added. -/
def placeSlot (id : Nat) : List (Option Nat) → List (Option Nat)
  | [] => some id :: List.replicate 15 none
  | none :: slots => some id :: slots
  | some k :: slots => some k :: placeSlot id slots

def rBpItemNew (bp : RBreakpoint) : Nat × RBreakpoint :=
  (bp.heap.next,
    { bp with
      bpsIdx := placeSlot bp.heap.next bp.bpsIdx
      heap := bp.heap.alloc RBreakpointItem.zero })

/-- The fields `r_bp_add` fills in for every item. -/
def newItem (bp : RBreakpoint) (addr : Ut64) (size hw rwx : Int) : RBreakpointItem :=
  { RBreakpointItem.zero with
    addr := addr + bp.delta
    size := size
    enabled := 1
    rwx := rwx
    hw := hw }

/-- The last steps of `r_bp_add`: the item is counted and listed. -/
def listItem (bp : RBreakpoint) (id : Nat) (item : RBreakpointItem) :
    Option (Option Nat × RBreakpoint) :=
  (bp.heap.store id item).map (fun heap =>
    (some id, { bp with nbps := bp.nbps + 1, bps := bp.bps ++ [id], heap := heap }))

/-- The answer is the new item, or the null pointer. A size above `2^31 - 17` overflows in
`size + 16`. -/
def rBpAdd (bp : RBreakpoint) (obytes : Option (List Ut8)) (addr : Ut64) (size hw rwx : Int) :
    Option (Option Nat × RBreakpoint) :=
  if addr = ut64Max ∨ size < 1 then some (none, bp)
  else
    match rBpGetIn bp addr rwx with
    | none => none
    | some (some _) => some (none, bp)
    | some none =>
      let (id, bp') := rBpItemNew bp
      let item := newItem bp addr size hw rwx
      if hw = 0 then
        if 2147483647 < size + 16 then none
        else
          match rBpGetBytes bp (List.replicate (size + 16).toNat 0) size bp.endian with
          | none => none
          | some (bbytes, ret) =>
            if ret ≠ size then
              (bp'.heap.free id).map (fun heap => (none, { bp' with heap := heap }))
            else
              listItem bp' id
                { item with
                  obytes := obytes.map (List.take size.toNat)
                  bbytes := some bbytes
                  recoil := ret }
      else listItem bp' id item

/-- `readAt` answers the bytes that `bp->iob.read_at` leaves in the buffer. -/
def rBpAddSw (readAt : Ut64 → Nat → List Ut8) (bp : RBreakpoint) (addr : Ut64) (size rwx : Int) :
    Option (Option Nat × RBreakpoint) :=
  let size := if size < 1 then 1 else size
  rBpAdd bp (some (readAt addr size.toNat)) addr size rBpTypeSw rwx

def rBpAddHw (bp : RBreakpoint) (addr : Ut64) (size rwx : Int) : Option (Option Nat × RBreakpoint) :=
  rBpAdd bp none addr size rBpTypeHw rwx

def rBpDelAll (bp : RBreakpoint) : Option (Bool × RBreakpoint) :=
  if bp.bps = [] then some (false, bp)
  else (bp.heap.freeAll bp.bps).map (fun heap => (true, { bp with bps := [], heap := heap }))

/-- `r_list_delete` takes the entry out of the list and frees its item. -/
def listDelete (bp : RBreakpoint) (id : Nat) : Option RBreakpoint :=
  (bp.heap.free id).map (fun heap => { bp with bps := bp.bps.erase id, heap := heap })

def rBpDel (bp : RBreakpoint) (addr : Ut64) : Option (Bool × RBreakpoint) :=
  match bp.heap.find (fun b => b.addr = addr) bp.bps with
  | none => none
  | some none => some (false, bp)
  | some (some id) => (listDelete bp id).map (fun bp => (true, bp))

/-- Whether `0 <= idx < bps_idx_count`. -/
def slotInRange (bp : RBreakpoint) (idx : Int) : Bool := 0 ≤ idx && idx < bp.bpsIdx.length

def rBpGetIndex (bp : RBreakpoint) (idx : Int) : Option Nat :=
  if slotInRange bp idx then (bp.bpsIdx[idx.toNat]?).join else none

/-- The item is freed by the list, if it is listed, and then once more. -/
def rBpDelIndex (bp : RBreakpoint) (idx : Int) : Option (Bool × RBreakpoint) :=
  if slotInRange bp idx then
    match rBpGetIndex bp idx with
    | none => some (true, { bp with bpsIdx := bp.bpsIdx.set idx.toNat none })
    | some id =>
      (if id ∈ bp.bps then listDelete bp id else some bp).bind (fun bp =>
        (bp.heap.free id).map (fun heap =>
          (true, { bp with bpsIdx := bp.bpsIdx.set idx.toNat none, heap := heap })))
  else some (false, bp)

/-- The calls that add and delete breakpoints. -/
inductive BpCall where
  | addSw (addr : Ut64) (size rwx : Int)
  | addHw (addr : Ut64) (size rwx : Int)
  | del (addr : Ut64)
  | delIndex (idx : Int)
  | delAll

/-- The state after a call; an undefined access or a second `free` leaves none. -/
def bpStep (readAt : Ut64 → Nat → List Ut8) (bp : RBreakpoint) : BpCall → Option RBreakpoint
  | .addSw addr size rwx => (rBpAddSw readAt bp addr size rwx).map Prod.snd
  | .addHw addr size rwx => (rBpAddHw bp addr size rwx).map Prod.snd
  | .del addr => (rBpDel bp addr).map Prod.snd
  | .delIndex idx => (rBpDelIndex bp idx).map Prod.snd
  | .delAll => (rBpDelAll bp).map Prod.snd

def bpRun (readAt : Ut64 → Nat → List Ut8) (bp : RBreakpoint) : List BpCall → Option RBreakpoint
  | [] => some bp
  | c :: cs => (bpStep readAt bp c).bind (fun bp => bpRun readAt bp cs)

end Radare.Bp
