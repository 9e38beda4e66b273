import Radare.Framework.Brainfuck

namespace Radare.Bfvm

open Framework.Brainfuck

/-- `readAt` is `iob.read_at`; it answers none where the call returns zero. The buffers are as
long as `bfvm_init` makes them. -/
structure BfvmCPU where
  eip : Ut64
  esp : Ut64
  ptr : Int
  base : Ut64
  mem : List Ut8
  size : Nat
  screen : Ut64
  screenIdx : Int
  screenSize : Int
  screenBuf : List Ut8
  input : Ut64
  inputIdx : Int
  inputSize : Int
  inputBuf : List Ut8
  circular : Bool
  readAt : Option (Ut64 → Nat → Option (List Ut8))

def bfvmScreenAddr : Ut64 := 0x50000

def bfvmInputAddr : Ut64 := 0x10000

def bfvmDataAddr : Ut64 := 0xd00000

def bfvmOp (c : BfvmCPU) : Ut8 :=
  match c.readAt with
  | none => 0
  | some read =>
    match read c.eip 4 with
    | none => 0xff
    | some buf => buf.headD 0

def bfvmReset (c : BfvmCPU) : BfvmCPU :=
  { c with
    mem := List.replicate c.size 0
    inputBuf := List.replicate c.inputSize.toNat 0
    screenBuf := List.replicate c.screenSize.toNat 0
    base := bfvmDataAddr
    input := bfvmInputAddr
    inputIdx := 0
    screen := bfvmScreenAddr
    screenIdx := 0
    eip := 0
    ptr := 0
    esp := bfvmDataAddr }

/-- The offset into `mem`. -/
def bfvmGetPtrAt (c : BfvmCPU) (addr : Ut64) : Nat :=
  if c.base ≤ addr then (addr - c.base).toNat
  else if c.size ≤ addr.toNat then if c.circular then 0 else c.size - 1
  else addr.toNat

def bfvmGetPtr (c : BfvmCPU) : Nat := bfvmGetPtrAt c (BitVec.ofInt 64 c.ptr)

/-- A cell outside the buffer is undefined. -/
def bfvmGet (c : BfvmCPU) : Option Ut8 := c.mem[bfvmGetPtr c]?

def setMem (c : BfvmCPU) (b : Ut8) : Option BfvmCPU :=
  if bfvmGetPtr c < c.mem.length then some { c with mem := c.mem.set (bfvmGetPtr c) b } else none

def bfvmInc (c : BfvmCPU) : Option BfvmCPU := (bfvmGet c).bind (fun b => setMem c (b + 1))

def bfvmDec (c : BfvmCPU) : Option BfvmCPU := (bfvmGet c).bind (fun b => setMem c (b - 1))

def bfvmPeek (c : BfvmCPU) : Option BfvmCPU :=
  let idx := if c.inputSize ≤ c.inputIdx then 0 else c.inputIdx
  if idx < 0 then none
  else
    (c.inputBuf[idx.toNat]?).bind (fun b =>
      (setMem c b).map (fun c => { c with inputIdx := wrapInt (idx + 1) }))

def bfvmPoke (c : BfvmCPU) : Option BfvmCPU :=
  let idx := c.screenIdx
  if 0 ≤ idx ∧ idx.toNat < c.screenBuf.length then
    (bfvmGet c).map (fun b =>
      { c with screenBuf := c.screenBuf.set idx.toNat b, screenIdx := wrapInt (idx + 1) })
  else none

/-- The scan for `[`. A round ends it or lowers `eip`, so `eip + 1` rounds are enough. -/
def scanBack : Nat → BfvmCPU → BfvmCPU
  | 0, c => c
  | rounds + 1, c =>
    if c.eip < c.eip - 1 then { c with eip := 0 }
    else
      let c := { c with eip := c.eip - 1 }
      if bfvmOp c ≠ byte '[' then scanBack rounds c else c

/-- The body of the `switch`, for an operation other than the trap. -/
def bfvmExec (op : Ut8) (c : BfvmCPU) : Option BfvmCPU :=
  if op = byte '.' then bfvmPoke c
  else if op = byte ',' then bfvmPeek c
  else if op = byte '+' then bfvmInc c
  else if op = byte '-' then bfvmDec c
  else if op = byte '>' then some { c with ptr := wrapInt (c.ptr + 1) }
  else if op = byte '<' then some { c with ptr := wrapInt (c.ptr - 1) }
  else if op = byte ']' then
    (bfvmGet c).map (fun b => if b ≠ 0 then scanBack (c.eip.toNat + 1) c else c)
  else some c

/-- `bfvm_step (c, 0)`: the return value is one at the trap. -/
def bfvmStep (c : BfvmCPU) : Option (Int × BfvmCPU) :=
  if bfvmOp c = 0 then some (1, c)
  else (bfvmExec (bfvmOp c) c).map (fun c => (0, { c with eip := c.eip + 1 }))

/-- The machine after `n` calls of `bfvm_step`. -/
def bfvmSteps : Nat → BfvmCPU → Option BfvmCPU
  | 0, c => some c
  | n + 1, c => (bfvmSteps n c).bind (fun c => (bfvmStep c).map Prod.snd)

/-- The program lies at address zero with a zero byte behind it. -/
structure Stored (read : Ut64 → Nat → Option (List Ut8)) (p : List Ut8) : Prop where
  length : p.length < 18446744073709551616
  nonzero : ∀ b ∈ p, b ≠ 0
  bytes : ∀ i ≤ p.length, ∃ buf, read (BitVec.ofNat 64 i) 4 = some buf ∧ buf.headD 0 = p.getD i 0

/-- A machine as `bfvm_init` leaves it: the sizes are positive `int` values. -/
structure Initialised (c : BfvmCPU) : Prop where
  screen : c.screenSize ≤ 2147483647
  input : 0 < c.inputSize ∧ c.inputSize ≤ 2147483647

/-- The machine shows the tape, the head and the output of the run. -/
structure Shows (c : BfvmCPU) (s : State) : Prop where
  tape : ∀ i < c.size, c.mem[i]? = some (s.tape i)
  head : c.ptr = s.head
  idx : c.screenIdx = s.out.length
  out : c.screenBuf.take s.out.length = s.out

/-- What the machine keeps besides. -/
structure Keeps (c0 c : BfvmCPU) (p : List Ut8) (n : Nat) : Prop where
  readAt : c.readAt = c0.readAt
  size : c.size = c0.size
  screenSize : c.screenSize = c0.screenSize
  inputSize : c.inputSize = c0.inputSize
  base : c.base = bfvmDataAddr
  mem : c.mem.length = c0.size
  screenBuf : c.screenBuf.length = c0.screenSize.toNat
  inputBuf : c.inputBuf = List.replicate c0.inputSize.toNat 0
  inputIdx : 0 ≤ c.inputIdx ∧ c.inputIdx ≤ c0.inputSize
  eip : c.eip = BitVec.ofNat 64 n
  pc : n ≤ p.length

/-- The head is on the tape and there is room on the screen. -/
structure InDomain (c0 : BfvmCPU) (s : State) : Prop where
  head : 0 ≤ s.head ∧ s.head < c0.size
  out : (s.out.length : Int) < c0.screenSize

/-- No loop is passed over, no loop with a loop inside goes round, and the head stays below the
address the tape is mapped at. -/
structure StepFits (p : List Ut8) (s : State) : Prop where
  head : s.head < 13631488
  enters : p[s.pc]? = some (byte '[') → s.cell ≠ 0
  innermost : p[s.pc]? = some (byte ']') → s.cell ≠ 0 → ∀ i, openingOf p s.pc = some i →
    ∀ k, i < k → k < s.pc → p[k]? ≠ some (byte '[')

section
variable {c0 c : BfvmCPU} {p : List Ut8} {s s' : State} {read : Ut64 → Nat → Option (List Ut8)}

theorem op_at (hread : c.readAt = some read) (hp : Stored read p) {i : Nat} (hi : i ≤ p.length)
    (heip : c.eip = BitVec.ofNat 64 i) : bfvmOp c = p.getD i 0 := by
  obtain ⟨buf, hbuf, hhead⟩ := hp.bytes i hi
  simp only [bfvmOp, hread, heip, hbuf, hhead]

theorem getPtr_eq (hkeep : Keeps c0 c p s.pc) (hshow : Shows c s) (hdom : InDomain c0 s)
    (hfit : s.head < 13631488) : bfvmGetPtr c = s.head.toNat := by
  have h0 := hdom.head.1
  have hsize := hdom.head.2
  have hto : (BitVec.ofInt 64 c.ptr).toNat = s.head.toNat := by
    rw [hshow.head, BitVec.toNat_ofInt]
    omega
  rw [bfvmGetPtr, bfvmGetPtrAt, hkeep.base, if_neg, if_neg, hto]
  · rw [hto, hkeep.size]
    omega
  · rw [BitVec.le_def, hto]
    have hbase : bfvmDataAddr.toNat = 13631488 := by decide
    omega

theorem get_eq (hkeep : Keeps c0 c p s.pc) (hshow : Shows c s) (hdom : InDomain c0 s)
    (hfit : s.head < 13631488) : bfvmGet c = some s.cell := by
  have h0 := hdom.head.1
  have hsize := hdom.head.2
  rw [bfvmGet, getPtr_eq hkeep hshow hdom hfit, hshow.tape _ (by rw [hkeep.size]; omega), State.cell]
  congr 2
  omega

theorem setMem_eq (hkeep : Keeps c0 c p s.pc) (hshow : Shows c s) (hdom : InDomain c0 s)
    (hfit : s.head < 13631488) (b : Ut8) :
    setMem c b = some { c with mem := c.mem.set s.head.toNat b } := by
  have h0 := hdom.head.1
  have hsize := hdom.head.2
  rw [setMem, getPtr_eq hkeep hshow hdom hfit, if_pos]
  rw [hkeep.mem]
  omega

/-- The scan stops at the nearest `[`. -/
theorem scanBack_eq (hread : c.readAt = some read) (hp : Stored read p) {i : Nat}
    (hi : p[i]? = some (byte '[')) (rounds j : Nat) (hij : i < j) (hj : j ≤ p.length)
    (hrounds : j - i ≤ rounds) (hnone : ∀ k, i < k → k < j → p[k]? ≠ some (byte '['))
    (heip : c.eip = BitVec.ofNat 64 j) :
    scanBack rounds c = { c with eip := BitVec.ofNat 64 i } := by
  have hlen := hp.length
  induction rounds generalizing c j with
  | zero => omega
  | succ rounds ih =>
    have hpred : c.eip - 1 = BitVec.ofNat 64 (j - 1) := by
      rw [heip]
      apply BitVec.eq_of_toNat_eq
      have hone : (1 : Ut64).toNat = 1 := by decide
      rw [BitVec.toNat_sub, hone, BitVec.toNat_ofNat, BitVec.toNat_ofNat]
      omega
    have hlow : ¬c.eip < c.eip - 1 := by
      rw [hpred, heip, BitVec.lt_def, BitVec.toNat_ofNat, BitVec.toNat_ofNat]
      omega
    have hop : bfvmOp { c with eip := c.eip - 1 } = p.getD (j - 1) 0 :=
      op_at (c := { c with eip := c.eip - 1 }) hread hp (by omega) hpred
    rw [scanBack, if_neg hlow]
    simp only [hop]
    by_cases hlast : j - 1 = i
    · have hget : p.getD (j - 1) 0 = byte '[' := by
        rw [hlast, List.getD_eq_getElem?_getD, hi, Option.getD_some]
      rw [if_neg (not_not.mpr hget), hpred, hlast]
    · have hlt : j - 1 < p.length := by omega
      have hget : p.getD (j - 1) 0 ≠ byte '[' := by
        intro heq
        apply hnone (j - 1) (by omega) (by omega)
        rw [List.getElem?_eq_getElem hlt, ← heq, List.getD_eq_getElem?_getD,
          List.getElem?_eq_getElem hlt, Option.getD_some]
      rw [if_pos hget]
      exact ih (c := { c with eip := c.eip - 1 }) hread (j - 1) (by omega) (by omega) (by omega)
        (fun k hk hkj => hnone k hk (by omega)) hpred

theorem Keeps.setMem {n : Nat} (h : Keeps c0 c p n) (k : Nat) (b : Ut8) :
    Keeps c0 { c with mem := c.mem.set k b } p n :=
  { h with mem := by rw [List.length_set, h.mem] }

/-- `eip` goes on to any place in the program or at its end. -/
theorem Keeps.goto {n : Nat} (h : Keeps c0 c p n) {k : Nat} {a : Ut64} (ha : a + 1 = BitVec.ofNat 64 k)
    (hk : k ≤ p.length) : Keeps c0 { c with eip := a + 1 } p k :=
  { h with eip := ha, pc := hk }

theorem Keeps.next {n : Nat} (h : Keeps c0 c p n) (hn : n < p.length) :
    Keeps c0 { c with eip := c.eip + 1 } p (n + 1) := by
  apply h.goto _ hn
  rw [h.eip]
  exact (BitVec.ofNat_add n 1).symm

theorem Shows.setCell (hkeep : Keeps c0 c p s.pc) (hshow : Shows c s) (hdom : InDomain c0 s) (b : Ut8) :
    Shows { c with mem := c.mem.set s.head.toNat b } (s.setCell b) := by
  have h0 := hdom.head.1
  have hsize := hdom.head.2
  apply Shows.mk
  · intro i hi
    have hlen : c.mem.length = c.size := by rw [hkeep.mem, hkeep.size]
    have hi' : i < c.size := hi
    simp only [State.setCell]
    by_cases hhead : (i : Int) = s.head
    · have hto : s.head.toNat = i := by omega
      rw [hto, ← hhead, Function.update_self, List.getElem?_set_self (by omega)]
    · rw [Function.update_of_ne hhead, List.getElem?_set_ne (by omega)]
      exact hshow.tape i hi
  · exact hshow.head
  · exact hshow.idx
  · exact hshow.out

/-- What a command leaves once `eip` has been raised behind it. -/
def Executes (c0 c : BfvmCPU) (p : List Ut8) (b : Ut8) (s' : State) : Prop :=
  ∃ c' : BfvmCPU, bfvmExec b c = some c' ∧ Keeps c0 { c' with eip := c'.eip + 1 } p s'.pc ∧
    Shows { c' with eip := c'.eip + 1 } s'

/-- The head moves. -/
theorem executes_move (hkeep : Keeps c0 c p s.pc) (hshow : Shows c s) (hdom : InDomain c0 s)
    (hfit : s.head < 13631488) (hpc : s.pc < p.length) {b : Ut8} {d : Int} (hd : d = 1 ∨ d = -1)
    (hexec : bfvmExec b c = some { c with ptr := wrapInt (c.ptr + d) }) :
    Executes c0 c p b { s.next with head := s.head + d } := by
  have h0 := hdom.head.1
  refine ⟨_, hexec, ?_, ?_⟩
  · exact { hkeep.next hpc with readAt := hkeep.readAt }
  · apply Shows.mk
    · exact hshow.tape
    · show wrapInt (c.ptr + d) = s.head + d
      rw [hshow.head]
      exact wrapInt_of_range (by omega) (by omega)
    · exact hshow.idx
    · exact hshow.out

/-- The cell under the head changes. -/
theorem executes_cell (hkeep : Keeps c0 c p s.pc) (hshow : Shows c s) (hdom : InDomain c0 s)
    (hpc : s.pc < p.length) {b cell : Ut8}
    (hexec : bfvmExec b c = some { c with mem := c.mem.set s.head.toNat cell }) :
    Executes c0 c p b (s.setCell cell).next := by
  have hset := hshow.setCell hkeep hdom cell
  refine ⟨_, hexec, (hkeep.setMem _ _).next hpc, ?_⟩
  exact { hset with head := hset.head }

/-- Nothing but `eip` changes. -/
theorem executes_skip (hkeep : Keeps c0 c p s.pc) (hshow : Shows c s) (hpc : s.pc < p.length) {b : Ut8}
    (hexec : bfvmExec b c = some c) : Executes c0 c p b s.next :=
  ⟨c, hexec, hkeep.next hpc, { hshow with head := hshow.head }⟩

theorem executes_put (hinit : Initialised c0) (hkeep : Keeps c0 c p s.pc) (hshow : Shows c s)
    (hdom : InDomain c0 s) (hfit : s.head < 13631488) (hpc : s.pc < p.length) :
    Executes c0 c p (byte '.') { s.next with out := s.out ++ [s.cell] } := by
  have hscreen := hinit.screen
  have hout := hdom.out
  have hbuf := hkeep.screenBuf
  have hidx := hshow.idx
  have hto : c.screenIdx.toNat = s.out.length := by omega
  have hpoke : bfvmExec (byte '.') c =
      some { c with screenBuf := c.screenBuf.set s.out.length s.cell, screenIdx := s.out.length + 1 } := by
    rw [bfvmExec, if_pos rfl, bfvmPoke, if_pos (by omega), get_eq hkeep hshow hdom hfit, Option.map_some, hto, hidx,
      wrapInt_of_range (by omega) (by omega)]
  refine ⟨_, hpoke, ?_, ?_⟩
  · exact { hkeep.next hpc with screenBuf := by rw [List.length_set, hbuf] }
  · apply Shows.mk
    · exact hshow.tape
    · exact hshow.head
    · simp
    · simp only [List.length_append, List.length_singleton]
      rw [List.take_add_one, List.getElem?_set_self (by omega), List.take_set_of_le (Nat.le_refl _), hshow.out]
      simp

theorem executes_get (hinit : Initialised c0) (hkeep : Keeps c0 c p s.pc) (hshow : Shows c s)
    (hdom : InDomain c0 s) (hfit : s.head < 13631488) (hpc : s.pc < p.length) :
    Executes c0 c p (byte ',') { (s.setCell 0).next with read := s.read + 1 } := by
  have hinput := hinit.input
  have hset := hshow.setCell hkeep hdom 0
  obtain ⟨h0, hle⟩ := hkeep.inputIdx
  obtain ⟨idx, hidx⟩ : ∃ idx, (if c.inputSize ≤ c.inputIdx then 0 else c.inputIdx) = idx := ⟨_, rfl⟩
  have hrange : 0 ≤ idx ∧ idx < c0.inputSize := by
    rw [← hidx, hkeep.inputSize]
    split <;> omega
  have hzero : c.inputBuf[idx.toNat]? = some 0 := by
    rw [hkeep.inputBuf, List.getElem?_replicate, if_pos (by omega)]
  have hpeek : bfvmExec (byte ',') c =
      some { c with mem := c.mem.set s.head.toNat 0, inputIdx := idx + 1 } := by
    rw [bfvmExec, if_neg (by decide), if_pos rfl, bfvmPeek]
    simp only [hidx]
    rw [if_neg (by omega), hzero, Option.bind_some, setMem_eq hkeep hshow hdom hfit, Option.map_some,
      wrapInt_of_range (by omega) (by omega)]
  refine ⟨_, hpeek, ?_, ?_⟩
  · exact { (hkeep.setMem s.head.toNat 0).next hpc with inputIdx := by simp only []; omega }
  · exact { hset with head := hset.head }

/-- A loop without a loop inside goes back behind its own bracket. -/
theorem executes_back (hread : c0.readAt = some read) (hp : Stored read p) (hb : WellBracketed p)
    (hkeep : Keeps c0 c p s.pc) (hshow : Shows c s) (hdom : InDomain c0 s) (hfit : StepFits p s)
    (hat : p[s.pc]? = some (byte ']')) (hcell : s.cell ≠ 0) {i : Nat} (hi : openingOf p s.pc = some i) :
    Executes c0 c p (byte ']') { s with pc := i + 1 } := by
  obtain ⟨k, hk, hlt, hopen⟩ := hb.opening hat
  rw [hi, Option.some.injEq] at hk
  subst hk
  have hpc : s.pc < p.length := (List.getElem?_eq_some_iff.mp hat).1
  have hlen := hp.length
  have hto : c.eip.toNat = s.pc := by
    rw [hkeep.eip, BitVec.toNat_ofNat]
    omega
  have hscan := scanBack_eq (hkeep.readAt.trans hread) hp hopen (c.eip.toNat + 1) s.pc hlt (by omega)
    (by omega) (hfit.innermost hat hcell i hi) hkeep.eip
  have hexec : bfvmExec (byte ']') c = some { c with eip := BitVec.ofNat 64 i } := by
    rw [bfvmExec, if_neg (by decide), if_neg (by decide), if_neg (by decide), if_neg (by decide),
      if_neg (by decide), if_neg (by decide), if_pos rfl, get_eq hkeep hshow hdom hfit.head,
      Option.map_some, if_pos hcell, hscan]
  refine ⟨_, hexec, ?_, ?_⟩
  · exact hkeep.goto (BitVec.ofNat_add i 1).symm (show i + 1 ≤ p.length by omega)
  · exact { hshow with head := hshow.head }

/-- Every command the run executes is executed alike. -/
theorem executes_step (hinit : Initialised c0) (hread : c0.readAt = some read) (hp : Stored read p)
    (hb : WellBracketed p) (hkeep : Keeps c0 c p s.pc) (hshow : Shows c s) (hdom : InDomain c0 s)
    (hfit : StepFits p s) {b : Ut8} (hat : p[s.pc]? = some b) (hstep : step (fun _ => 0) p s = some s') :
    Executes c0 c p b s' := by
  have hpc : s.pc < p.length := (List.getElem?_eq_some_iff.mp hat).1
  have hget := get_eq hkeep hshow hdom hfit.head
  have hset := setMem_eq hkeep hshow hdom hfit.head
  rw [step, hat] at hstep
  simp only [] at hstep
  by_cases hright : b = byte '>'
  · rw [if_pos hright] at hstep
    cases hstep
    apply executes_move hkeep hshow hdom hfit.head hpc (Or.inl rfl)
    rw [hright]
    simp [bfvmExec, byte]
  rw [if_neg hright] at hstep
  by_cases hleft : b = byte '<'
  · rw [if_pos hleft] at hstep
    cases hstep
    apply executes_move hkeep hshow hdom hfit.head hpc (Or.inr rfl)
    rw [hleft]
    simp [bfvmExec, byte, Int.sub_eq_add_neg]
  rw [if_neg hleft] at hstep
  by_cases hinc : b = byte '+'
  · rw [if_pos hinc] at hstep
    cases hstep
    apply executes_cell hkeep hshow hdom hpc
    rw [hinc]
    simp [bfvmExec, byte, bfvmInc, hget, hset]
  rw [if_neg hinc] at hstep
  by_cases hdec : b = byte '-'
  · rw [if_pos hdec] at hstep
    cases hstep
    apply executes_cell hkeep hshow hdom hpc
    rw [hdec]
    simp [bfvmExec, byte, bfvmDec, hget, hset]
  rw [if_neg hdec] at hstep
  by_cases hput : b = byte '.'
  · rw [if_pos hput] at hstep
    cases hstep
    rw [hput]
    exact executes_put hinit hkeep hshow hdom hfit.head hpc
  rw [if_neg hput] at hstep
  by_cases hin : b = byte ','
  · rw [if_pos hin] at hstep
    cases hstep
    rw [hin]
    exact executes_get hinit hkeep hshow hdom hfit.head hpc
  rw [if_neg hin] at hstep
  by_cases hopen : b = byte '['
  · rw [hopen] at hat
    rw [if_pos hopen, if_neg (hfit.enters hat)] at hstep
    cases hstep
    apply executes_skip hkeep hshow hpc
    rw [hopen]
    simp [bfvmExec, byte]
  rw [if_neg hopen] at hstep
  by_cases hclose : b = byte ']'
  · rw [if_pos hclose] at hstep
    by_cases hcell : s.cell = 0
    · rw [if_pos hcell] at hstep
      cases hstep
      apply executes_skip hkeep hshow hpc
      rw [hclose]
      simp [bfvmExec, byte, hget, hcell]
    · rw [hclose] at hat
      rw [if_neg hcell, Option.map_eq_some_iff] at hstep
      obtain ⟨i, hi, hs'⟩ := hstep
      subst hs'
      rw [hclose]
      exact executes_back hread hp hb hkeep hshow hdom hfit hat hcell hi
  rw [if_neg hclose] at hstep
  cases hstep
  apply executes_skip hkeep hshow hpc
  simp [bfvmExec, hright, hleft, hinc, hdec, hput, hin, hclose]

/-- The trap is where the run has ended. -/
theorem trap_iff (hread : c0.readAt = some read) (hp : Stored read p) (hkeep : Keeps c0 c p s.pc) :
    bfvmOp c = 0 ↔ s.pc = p.length := by
  rw [op_at (hkeep.readAt.trans hread) hp hkeep.pc hkeep.eip, List.getD_eq_getElem?_getD]
  have hle := hkeep.pc
  by_cases hpc : s.pc = p.length
  · simp [hpc]
  · have hlt : s.pc < p.length := by omega
    rw [List.getElem?_eq_getElem hlt, Option.getD_some]
    exact ⟨fun h => absurd h (hp.nonzero _ (List.getElem_mem hlt)), fun h => absurd h hpc⟩

theorem vm_step (hinit : Initialised c0) (hread : c0.readAt = some read) (hp : Stored read p)
    (hb : WellBracketed p) (hkeep : Keeps c0 c p s.pc) (hshow : Shows c s) (hdom : InDomain c0 s)
    (hfit : StepFits p s) (hstep : step (fun _ => 0) p s = some s') :
    ∃ c', bfvmStep c = some (0, c') ∧ Keeps c0 c' p s'.pc ∧ Shows c' s' := by
  have hlt : s.pc < p.length := by
    by_contra hge
    rw [step, List.getElem?_eq_none (by omega)] at hstep
    cases hstep
  have hat := List.getElem?_eq_getElem hlt
  have hop : bfvmOp c = p[s.pc] := by
    rw [op_at (hkeep.readAt.trans hread) hp hkeep.pc hkeep.eip, List.getD_eq_getElem?_getD, hat,
      Option.getD_some]
  have hno : bfvmOp c ≠ 0 := by
    rw [hop]
    exact hp.nonzero _ (List.getElem_mem hlt)
  obtain ⟨c', hexec, hkeep', hshow'⟩ := executes_step hinit hread hp hb hkeep hshow hdom hfit hat hstep
  refine ⟨_, ?_, hkeep', hshow'⟩
  rw [bfvmStep, if_neg hno, hop, hexec, Option.map_some]

theorem reset_keeps (hinit : Initialised c0) : Keeps c0 (bfvmReset c0) p State.init.pc ∧
    Shows (bfvmReset c0) State.init := by
  have hinput := hinit.input
  constructor
  · constructor <;> simp [bfvmReset, State.init]
    omega
  · constructor <;> simp [bfvmReset, State.init]
    intro i hi
    simp [hi]

/-- A well-bracketed program runs on until it is at its end. -/
theorem step_none_iff (hb : WellBracketed p) (hpc : s.pc ≤ p.length) :
    step (fun _ => 0) p s = none ↔ s.pc = p.length := by
  constructor
  · intro hnone
    by_contra hne
    have hlt : s.pc < p.length := by omega
    have hat := List.getElem?_eq_getElem hlt
    rw [step, hat] at hnone
    simp only [] at hnone
    split_ifs at hnone
    · rename_i hopen _
      rw [hopen] at hat
      obtain ⟨j, hj⟩ := hb.closing hat
      rw [hj] at hnone
      cases hnone
    · rename_i hclose _
      rw [hclose] at hat
      obtain ⟨i, hi, -⟩ := hb.opening hat
      rw [hi] at hnone
      cases hnone
  · intro hend
    rw [step, List.getElem?_eq_none (by omega)]

theorem trap_result (hread : c0.readAt = some read) (hp : Stored read p) (hb : WellBracketed p)
    (hkeep : Keeps c0 c p s.pc) :
    (bfvmStep c).map Prod.fst = some 1 ↔ step (fun _ => 0) p s = none := by
  rw [step_none_iff hb hkeep.pc, ← trap_iff hread hp hkeep, bfvmStep]
  by_cases hop : bfvmOp c = 0
  · simp [hop]
  · rw [if_neg hop]
    constructor
    · intro h
      simp only [Option.map_map, Option.map_eq_some_iff, Function.comp_apply] at h
      obtain ⟨c', -, habs⟩ := h
      cases habs
    · intro h
      exact absurd h hop

/-- The machine follows the run, one step after the other. -/
theorem vm_steps (hinit : Initialised c0) (hread : c0.readAt = some read) (hp : Stored read p)
    (hb : WellBracketed p) (n : Nat) (hrun : steps (fun _ => 0) p n State.init = some s)
    (hdom : ∀ k ≤ n, ∀ t, steps (fun _ => 0) p k State.init = some t → InDomain c0 t)
    (hfit : ∀ k < n, ∀ t, steps (fun _ => 0) p k State.init = some t → StepFits p t) :
    ∃ c, bfvmSteps n (bfvmReset c0) = some c ∧ Keeps c0 c p s.pc ∧ Shows c s := by
  induction n generalizing s with
  | zero =>
    cases hrun
    exact ⟨_, rfl, reset_keeps hinit⟩
  | succ n ih =>
    obtain ⟨t, ht, hstep⟩ := Option.bind_eq_some_iff.mp hrun
    obtain ⟨c, hc, hkeep, hshow⟩ := ih ht (fun k hk => hdom k (by omega)) (fun k hk => hfit k (by omega))
    obtain ⟨c', hc', hkeep', hshow'⟩ := vm_step hinit hread hp hb hkeep hshow (hdom n (by omega) t ht)
      (hfit n (by omega) t ht) hstep
    exact ⟨c', by rw [bfvmSteps, hc, Option.bind_some, hc', Option.map_some], hkeep', hshow'⟩

end

/-- Along every run whose steps fit, the machine shows the state of the run after each step, and
the next call is at the trap exactly when the run has ended. -/
theorem bfvm_simulates (c0 : BfvmCPU) (hinit : Initialised c0)
    (read : Ut64 → Nat → Option (List Ut8)) (hread : c0.readAt = some read) (p : List Ut8)
    (hp : Stored read p) (hb : WellBracketed p) (n : Nat) (s : State)
    (hrun : steps (fun _ => 0) p n State.init = some s)
    (hdom : ∀ k ≤ n, ∀ t, steps (fun _ => 0) p k State.init = some t → InDomain c0 t)
    (hfit : ∀ k < n, ∀ t, steps (fun _ => 0) p k State.init = some t → StepFits p t) :
    ∃ c, bfvmSteps n (bfvmReset c0) = some c ∧ Shows c s ∧
      ((bfvmStep c).map Prod.fst = some 1 ↔ step (fun _ => 0) p s = none) := by
  obtain ⟨c, hc, hkeep, hshow⟩ := vm_steps hinit hread hp hb n hrun hdom hfit
  exact ⟨c, hc, hshow, trap_result hread hp hb hkeep⟩

/-- The machine of `bfvm_new` over a memory that holds the program and zeros behind it. -/
def machineFor (p : List Ut8) : BfvmCPU where
  eip := 0
  esp := 0
  ptr := 0
  base := 0
  mem := List.replicate 4096 0
  size := 4096
  screen := bfvmScreenAddr
  screenIdx := 0
  screenSize := 4096
  screenBuf := List.replicate 4096 0
  input := 0
  inputIdx := 0
  inputSize := 4096
  inputBuf := List.replicate 4096 0
  circular := true
  readAt := some (fun a n => some ((p.drop a.toNat ++ List.replicate n 0).take n))

theorem stored_machineFor (p : List Ut8) (hlen : p.length < 18446744073709551616)
    (hp : ∀ b ∈ p, b ≠ 0) :
    Stored (fun a n => some ((p.drop a.toNat ++ List.replicate n 0).take n)) p where
  length := hlen
  nonzero := hp
  bytes := by
    intro i hi
    refine ⟨_, rfl, ?_⟩
    rw [BitVec.toNat_ofNat, Nat.mod_eq_of_lt (by omega)]
    by_cases hlt : i < p.length
    · rw [List.drop_eq_getElem_cons hlt, List.cons_append, List.take_succ_cons, List.headD_cons]
      simp [hlt]
    · rw [List.drop_eq_nil_of_le (by omega), List.getD_eq_getElem?_getD, List.getElem?_eq_none (by omega)]
      simp

/-- Sets the cell to two and counts it down in two rounds of the loop. -/
def countDown : List Ut8 := [byte '+', byte '+', byte '[', byte '-', byte ']']

theorem bfvm_simulates_countDown :
    ∃ s, steps (fun _ => 0) countDown 7 State.init = some s ∧
      ∃ c, bfvmSteps 7 (bfvmReset (machineFor countDown)) = some c ∧ Shows c s ∧
        ((bfvmStep c).map Prod.fst = some 1 ↔ step (fun _ => 0) countDown s = none) := by
  have hsome : (steps (fun _ => 0) countDown 7 State.init).isSome = true := by decide
  obtain ⟨s, hs⟩ := Option.isSome_iff_exists.mp hsome
  have hrun : ∀ k ≤ 7, (steps (fun _ => 0) countDown k State.init).all (fun t =>
      decide (t.head = 0 ∧ t.out = [] ∧ t.pc ≤ 5 ∧ (t.pc = 2 → t.cell ≠ 0))) = true := by
    decide
  have hdom : ∀ k ≤ 7, ∀ t, steps (fun _ => 0) countDown k State.init = some t →
      InDomain (machineFor countDown) t := by
    intro k hk t ht
    have h := hrun k hk
    rw [ht, Option.all_some, decide_eq_true_eq] at h
    obtain ⟨hhead, hout, -⟩ := h
    have hsize : (machineFor countDown).size = 4096 := rfl
    have hscreen : (machineFor countDown).screenSize = 4096 := rfl
    constructor
    · omega
    · simp [hout, hscreen]
  have hopens : ∀ i ≤ 5, countDown[i]? = some (byte '[') → i = 2 := by decide
  have hcloses : ∀ i ≤ 5, countDown[i]? = some (byte ']') → i = 4 := by decide
  have hfit : ∀ k < 7, ∀ t, steps (fun _ => 0) countDown k State.init = some t →
      StepFits countDown t := by
    intro k hk t ht
    have h := hrun k (by omega)
    rw [ht, Option.all_some, decide_eq_true_eq] at h
    obtain ⟨hhead, -, hpc, hcell⟩ := h
    constructor
    · omega
    · intro hopen
      exact hcell (hopens t.pc hpc hopen)
    · intro hclose _ i hi j hij hj hbracket
      rw [hcloses t.pc hpc hclose] at hi hj
      have hopening : openingOf countDown 4 = some 2 := by decide
      obtain rfl : 2 = i := Option.some.inj (hopening.symm.trans hi)
      have htwo := hopens j (by omega) hbracket
      omega
  have hwell : WellBracketed countDown := by
    unfold WellBracketed
    decide
  exact ⟨s, hs, bfvm_simulates (machineFor countDown) ⟨by decide, by decide⟩ _ rfl countDown
    (stored_machineFor countDown (by decide) (by decide)) hwell 7 s hs hdom hfit⟩

/-- A loop that a zero cell passes over. -/
def skippedLoop : List Ut8 := [byte '[', byte '+', byte ']']

/-- The machine runs the body of the loop and shows a tape that the run never has. -/
theorem bfvm_enters_skipped_loop :
    WellBracketed skippedLoop ∧
      ¬∀ n c, bfvmSteps n (bfvmReset (machineFor skippedLoop)) = some c →
        ∃ k s, steps (fun _ => 0) skippedLoop k State.init = some s ∧ Shows c s := by
  constructor
  · unfold WellBracketed
    decide
  intro h
  have hcell : (bfvmSteps 2 (bfvmReset (machineFor skippedLoop))).bind (fun c => c.mem[0]?) =
      some 1 := by
    decide +kernel
  obtain ⟨c, hc, hone⟩ := Option.bind_eq_some_iff.mp hcell
  have hsize : (bfvmSteps 2 (bfvmReset (machineFor skippedLoop))).map BfvmCPU.size = some 4096 := by
    decide +kernel
  rw [hc, Option.map_some, Option.some.injEq] at hsize
  obtain ⟨k, s, hs, hshow⟩ := h 2 c hc
  have htape := hshow.tape 0 (by omega)
  rw [hone, Option.some.injEq] at htape
  have hend : ∀ k, steps (fun _ => 0) skippedLoop (k + 2) State.init = none := by
    intro k
    induction k with
    | zero =>
      have hnone : (steps (fun _ => 0) skippedLoop 2 State.init).isNone = true := by decide
      exact Option.isNone_iff_eq_none.mp hnone
    | succ k ih => rw [steps, ih, Option.bind_none]
  have hzero : ∀ k ≤ 1, (steps (fun _ => 0) skippedLoop k State.init).all (fun t =>
      decide (t.tape 0 = 0)) = true := by
    decide
  have hk : k ≤ 1 := by
    by_contra hlt
    obtain ⟨m, rfl⟩ := Nat.exists_eq_add_of_le' (by omega : 2 ≤ k)
    rw [hend m] at hs
    cases hs
  have hz := hzero k hk
  rw [hs, Option.all_some, decide_eq_true_eq] at hz
  rw [Nat.cast_zero, hz] at htape
  exact absurd htape (by decide)

end Radare.Bfvm
