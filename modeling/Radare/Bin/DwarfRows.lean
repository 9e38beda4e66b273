import Radare.Bin.Dwarf

namespace Radare.Dwarf

open Framework.Leb128 LineProgram

def params (hdr : RBinDwarfLNPHeader) : Params where
  minInstLen := hdr.minInstLen.toNat
  lineBase := hdr.lineBase.toInt
  lineRange := hdr.lineRange.toNat
  opcodeBase := hdr.opcodeBase.toNat

/-- A row as 64-bit registers hold it. -/
def shownRow (r : Row) : Ut64 × Option (List Ut8) × Ut64 :=
  (BitVec.ofInt 64 r.address, r.file, BitVec.ofInt 64 r.line)

def AddrLine.shown (c : AddrLine) : Ut64 × Option (List Ut8) × Ut64 := (c.addr, some c.file, c.line)

/-- The encoding fits the 32 bits that are shifted. -/
def UlebFits (u : List Ut8) : Prop := u.length ≤ 5 ∧ ulebValue u < 4294967296

/-- The encoding has no zero byte for the loop to stop at, and no shift leaves the value. -/
def LebFits (u : List Ut8) : Prop := u.getLast? ≠ some 0 ∧ u.length ≤ 10

/-- The file register names a file of the header. -/
def Named (s : LineProgram.State) : Prop :=
  0 < s.file ∧ s.file ≤ s.files.length ∧ s.file ≤ 2147483648

/-- Counting addresses or instructions makes no difference. -/
def AdvanceFits (hdr : RBinDwarfLNPHeader) (opcode : Nat) : Prop :=
  (params hdr).operationAdvance opcode = 0 ∨ hdr.minInstLen = 1

def StepFits (binfile : RBinFile) (hdr : RBinDwarfLNPHeader) (s : LineProgram.State) : Op → Prop
  | .special opcode => AdvanceFits hdr opcode.toNat ∧ Named s
  | .copy => Named s
  | .advancePc u | .setFile u | .setColumn u => UlebFits u
  | .advanceLine u => LebFits u
  | .constAddPc => AdvanceFits hdr 255
  | .negateStmt | .setBasicBlock | .fixedAdvancePc _ => True
  | .setAddress length address =>
    LebFits length ∧ address.length = if addrSize binfile = 8 then 8 else 4
  | .setDiscriminator length u => LebFits length ∧ UlebFits u
  | .defineFile _ _ _ _ _ => False

/-- Every opcode fits the state it is met in. -/
def ProgramFits (binfile : RBinFile) (hdr : RBinDwarfLNPHeader) (length : List Ut8) :
    LineProgram.State → List Op → Prop
  | s, [] => Named s ∧ LebFits length
  | s, op :: ops =>
    StepFits binfile hdr s op ∧ ProgramFits binfile hdr length (exec (params hdr) s op) ops

/-- The registers hold the state of the run. -/
structure Follows (hdr : RBinDwarfLNPHeader) (s : LineProgram.State) (regs : RBinDwarfSMRegisters) :
    Prop where
  address : regs.address = BitVec.ofInt 64 s.address
  file : regs.file = BitVec.ofNat 64 s.file
  line : regs.line = BitVec.ofInt 64 s.line
  files : s.files = hdr.fileNames

section
variable {a : RBin} {binfile : RBinFile} {hdr : RBinDwarfLNPHeader} {s : LineProgram.State} {st : State}

theorem addRow_regs (binfile : RBinFile) (hdr : RBinDwarfLNPHeader) (st : State) :
    (addRow binfile hdr st).regs = st.regs := by
  unfold addRow
  simp only []
  split_ifs
  · split <;> rfl
  · rfl

theorem fileIndex_eq {f : Nat} (hpos : 0 < f) (hmax : f ≤ 2147483648) :
    ((BitVec.ofNat 64 f - 1).setWidth 32).toInt = ((f - 1 : Nat) : Int) := by
  have hto : ((BitVec.ofNat 64 f - 1).setWidth 32).toNat = f - 1 := by
    rw [BitVec.toNat_setWidth, BitVec.toNat_sub, BitVec.toNat_ofNat]
    simp
    omega
  rw [BitVec.toInt_eq_toNat_of_lt (by omega), hto]

theorem addRow_calls (hsdb : binfile.sdbAddrinfo = true) (hrel : Follows hdr s st.regs)
    (hnamed : Named s) :
    (addRow binfile hdr st).calls.map AddrLine.shown =
      st.calls.map AddrLine.shown ++ [shownRow s.row] := by
  obtain ⟨hpos, hlen, hmax⟩ := hnamed
  have hlt : s.file - 1 < s.files.length := by omega
  have hget : s.files[s.file - 1]? = some s.files[s.file - 1] := List.getElem?_eq_getElem hlt
  have hidx := fileIndex_eq hpos hmax
  have hne : s.file ≠ 0 := by omega
  rw [← hrel.file] at hidx
  simp only [addRow, hidx, hsdb, Int.natCast_nonneg, and_self, if_true, Int.toNat_natCast, ← hrel.files,
    hget]
  simp [AddrLine.shown, shownRow, LineProgram.State.row, hne, hget, hrel.address, hrel.line]

theorem setAddress_follows (hrel : Follows hdr s st.regs) {addr : Ut64} {n : Int}
    (h : addr = BitVec.ofInt 64 n) :
    Follows hdr { s with address := n } (setAddress st addr).regs where
  address := h
  file := hrel.file
  line := hrel.line
  files := hrel.files

theorem advance_follows (hrel : Follows hdr s st.regs) {delta : Ut64} {n : Int}
    (h : delta = BitVec.ofInt 64 n) :
    Follows hdr (s.advance n) (setAddress st (st.regs.address + delta)).regs := by
  apply setAddress_follows hrel
  rw [hrel.address, h, BitVec.ofInt_add]

/-- An advance that fits is the same in addresses as in instructions. -/
theorem advance_eq (hdr : RBinDwarfLNPHeader) {opcode : Ut8} (hle : hdr.opcodeBase ≤ opcode)
    (hfit : AdvanceFits hdr opcode.toNat) :
    ((opcode - hdr.opcodeBase) / hdr.lineRange).setWidth 64 =
      BitVec.ofInt 64 ((params hdr).minInstLen * (params hdr).operationAdvance opcode.toNat) := by
  have hadv : ((opcode - hdr.opcodeBase) / hdr.lineRange).setWidth 64 =
      BitVec.ofNat 64 ((params hdr).operationAdvance opcode.toNat) := by
    apply BitVec.eq_of_toNat_eq
    rw [BitVec.toNat_setWidth, BitVec.toNat_ofNat, BitVec.toNat_udiv, BitVec.toNat_sub_of_le hle]
    rfl
  obtain hzero | hone := hfit
  · simp [hadv, hzero]
  · simp [hadv, params, hone]

theorem line_advance_eq (hdr : RBinDwarfLNPHeader) {opcode : Ut8} (hle : hdr.opcodeBase ≤ opcode) :
    ((opcode - hdr.opcodeBase) % hdr.lineRange).toNat =
      (params hdr).adjusted opcode.toNat % (params hdr).lineRange := by
  rw [BitVec.toNat_umod, BitVec.toNat_sub_of_le hle]
  rfl

theorem read_eq {size : Nat} {avail : Int} {u rest : List Ut8} (hu : u.length = size)
    (havail : (size : Int) < avail) :
    read size avail (u ++ rest) = some (BitVec.ofNat 64 (leNat u), rest) := by
  rw [read, if_pos havail]
  simp [← hu]

/-- What a parser does for an opcode: it leaves the bytes behind it and the next state of the run. -/
def Parses (hdr : RBinDwarfLNPHeader) (s : LineProgram.State) (st : State) (op : Op)
    (rest : List Ut8) (answer : Option Parsed) : Prop :=
  ∃ st', answer = some (some rest, st') ∧ Follows hdr (exec (params hdr) s op) st'.regs ∧
    st'.calls.map AddrLine.shown =
      st.calls.map AddrLine.shown ++ (emitted (params hdr) s op).map shownRow

theorem Parses.silent {op : Op} {rest : List Ut8} {st' : State} (hop : appends op = false)
    (hrel : Follows hdr (exec (params hdr) s op) st'.regs) (hcalls : st'.calls = st.calls) :
    Parses hdr s st op rest (some (some rest, st')) := by
  refine ⟨st', rfl, hrel, ?_⟩
  simp [emitted, hop, hcalls]

theorem parses_special (ha : a.cur = some binfile) (hsdb : binfile.sdbAddrinfo = true)
    (hrange : hdr.lineRange ≠ 0) (hrel : Follows hdr s st.regs) {opcode : Ut8}
    (hle : hdr.opcodeBase ≤ opcode) (hfit : AdvanceFits hdr opcode.toNat) (hnamed : Named s)
    (rest : List Ut8) :
    Parses hdr s st (.special opcode) rest (parseSpecOpcode a rest hdr st opcode) := by
  let s' := exec (params hdr) s (.special opcode)
  have hstep : Follows hdr s' { st.regs with
      address := st.regs.address + ((opcode - hdr.opcodeBase) / hdr.lineRange).setWidth 64
      line := st.regs.line + BitVec.ofInt 64
        (hdr.lineBase.toInt + ((opcode - hdr.opcodeBase) % hdr.lineRange).toNat) } := by
    constructor
    · rw [hrel.address, advance_eq hdr hle hfit, ← BitVec.ofInt_add]
      rfl
    · exact hrel.file
    · rw [hrel.line, line_advance_eq hdr hle, ← BitVec.ofInt_add]
      rfl
    · exact hrel.files
  have hcalls := @addRow_calls binfile hdr s' { st with regs := _ } hsdb hstep hnamed
  rw [parseSpecOpcode, if_neg hrange, ha]
  refine ⟨_, rfl, ?_, hcalls⟩
  simp only [addRow_regs]
  exact ⟨hstep.address, hstep.file, hstep.line, hstep.files⟩

theorem parses_copy (ha : a.cur = some binfile) (hsdb : binfile.sdbAddrinfo = true)
    (hrel : Follows hdr s st.regs) (hnamed : Named s) (len : Int) (rest : List Ut8) :
    Parses hdr s st .copy rest (parseStdOpcode a rest len hdr st 1) := by
  have hcalls := addRow_calls hsdb hrel hnamed
  rw [parseStdOpcode, ha]
  refine ⟨_, rfl, ?_, hcalls⟩
  simp only [addRow_regs]
  exact ⟨hrel.address, hrel.file, hrel.line, hrel.files⟩

theorem parses_advancePc (ha : a.cur = some binfile) (hrel : Follows hdr s st.regs) {u : List Ut8}
    (hu : IsLeb u) (hfit : UlebFits u) (len : Int) (rest : List Ut8) :
    Parses hdr s st (.advancePc u) rest (parseStdOpcode a (u ++ rest) len hdr st 2) := by
  have hdelta : BitVec.ofNat 64 (ulebValue u) * hdr.minInstLen.setWidth 64 =
      BitVec.ofInt 64 ((params hdr).minInstLen * ulebValue u) := by
    have hmin : hdr.minInstLen.setWidth 64 = BitVec.ofInt 64 (params hdr).minInstLen := by
      apply BitVec.eq_of_toNat_eq
      simp [params]
    rw [hmin, BitVec.ofInt_mul, BitVec.mul_comm, BitVec.ofInt_natCast _ (ulebValue u)]
  rw [parseStdOpcode, ha]
  simp only [rUleb128_eq u rest hu hfit.1 hfit.2]
  exact Parses.silent rfl (advance_follows hrel hdelta) rfl

theorem parses_advanceLine (ha : a.cur = some binfile) (hrel : Follows hdr s st.regs) {u : List Ut8}
    (hu : IsLeb u) (hfit : LebFits u) (len : Int) (rest : List Ut8) :
    Parses hdr s st (.advanceLine u) rest (parseStdOpcode a (u ++ rest) len hdr st 3) := by
  have hline : st.regs.line + BitVec.ofInt 64 (slebValue u) = BitVec.ofInt 64 (s.line + slebValue u) := by
    rw [hrel.line, BitVec.ofInt_add]
  rw [parseStdOpcode, ha]
  simp only [rLeb128_eq u rest hu hfit.1 hfit.2]
  apply Parses.silent rfl _ rfl
  exact ⟨hrel.address, hrel.file, hline, hrel.files⟩

theorem parses_setFile (ha : a.cur = some binfile) (hrel : Follows hdr s st.regs) {u : List Ut8}
    (hu : IsLeb u) (hfit : UlebFits u) (len : Int) (rest : List Ut8) :
    Parses hdr s st (.setFile u) rest (parseStdOpcode a (u ++ rest) len hdr st 4) := by
  rw [parseStdOpcode, ha]
  simp only [rUleb128_eq u rest hu hfit.1 hfit.2]
  apply Parses.silent rfl _ rfl
  exact ⟨hrel.address, rfl, hrel.line, hrel.files⟩

theorem parses_setColumn (ha : a.cur = some binfile) (hrel : Follows hdr s st.regs) {u : List Ut8}
    (hu : IsLeb u) (hfit : UlebFits u) (len : Int) (rest : List Ut8) :
    Parses hdr s st (.setColumn u) rest (parseStdOpcode a (u ++ rest) len hdr st 5) := by
  rw [parseStdOpcode, ha]
  simp only [rUleb128_eq u rest hu hfit.1 hfit.2]
  apply Parses.silent rfl _ rfl
  exact ⟨hrel.address, hrel.file, hrel.line, hrel.files⟩

theorem parses_negateStmt (ha : a.cur = some binfile) (hrel : Follows hdr s st.regs) (len : Int)
    (rest : List Ut8) :
    Parses hdr s st .negateStmt rest (parseStdOpcode a rest len hdr st 6) := by
  rw [parseStdOpcode, ha]
  apply Parses.silent rfl _ rfl
  exact ⟨hrel.address, hrel.file, hrel.line, hrel.files⟩

theorem parses_setBasicBlock (ha : a.cur = some binfile) (hrel : Follows hdr s st.regs) (len : Int)
    (rest : List Ut8) :
    Parses hdr s st .setBasicBlock rest (parseStdOpcode a rest len hdr st 7) := by
  rw [parseStdOpcode, ha]
  apply Parses.silent rfl _ rfl
  exact ⟨hrel.address, hrel.file, hrel.line, hrel.files⟩

theorem parses_constAddPc (ha : a.cur = some binfile) (hrange : hdr.lineRange ≠ 0)
    (hrel : Follows hdr s st.regs) (hfit : AdvanceFits hdr 255) (len : Int) (rest : List Ut8) :
    Parses hdr s st .constAddPc rest (parseStdOpcode a rest len hdr st 8) := by
  have hle : hdr.opcodeBase ≤ 255#8 := by
    rw [BitVec.le_def]
    exact Nat.le_of_lt_succ hdr.opcodeBase.isLt
  have hpos : 0 < hdr.lineRange := by
    rw [BitVec.lt_def]
    exact Nat.pos_of_ne_zero (fun h => hrange (BitVec.eq_of_toNat_eq h))
  have hadv := advance_eq hdr hle hfit
  rw [parseStdOpcode, ha]
  simp only [hpos, if_true]
  exact Parses.silent rfl (advance_follows hrel hadv) rfl

theorem parses_fixedAdvancePc (ha : a.cur = some binfile) (hrel : Follows hdr s st.regs) {u : List Ut8}
    (hu : u.length = 2) {len : Int} (hlen : 2 < len) (rest : List Ut8) :
    Parses hdr s st (.fixedAdvancePc u) rest (parseStdOpcode a (u ++ rest) len hdr st 9) := by
  rw [parseStdOpcode, ha]
  simp only [read_eq hu (by omega : ((2 : Nat) : Int) < len)]
  exact Parses.silent rfl (advance_follows hrel (BitVec.ofInt_natCast 64 _).symm) rfl

theorem parses_setAddress (ha : a.cur = some binfile) (hrel : Follows hdr s st.regs)
    {length address : List Ut8} (hlength : IsLeb length) (hfit : LebFits length)
    (hsize : address.length = if addrSize binfile = 8 then 8 else 4) {len : Int}
    (hlen : (address.length : Int) + 1 < len) (rest : List Ut8) :
    Parses hdr s st (.setAddress length address) rest
      (parseExtOpcode a (length ++ 2 :: (address ++ rest)) len hdr st) := by
  rw [parseExtOpcode, ha]
  simp only [rLeb128_eq length _ hlength hfit.1 hfit.2]
  simp only [read_eq hsize (by omega : ((if addrSize binfile = 8 then 8 else 4 : Nat) : Int) < len - 1)]
  exact Parses.silent rfl (setAddress_follows hrel (BitVec.ofInt_natCast 64 _).symm) rfl

theorem parses_setDiscriminator (ha : a.cur = some binfile) (hrel : Follows hdr s st.regs)
    {length u : List Ut8} (hlength : IsLeb length) (hfit : LebFits length) (hu : IsLeb u)
    (hufit : UlebFits u) (len : Int) (rest : List Ut8) :
    Parses hdr s st (.setDiscriminator length u) rest
      (parseExtOpcode a (length ++ 4 :: (u ++ rest)) len hdr st) := by
  rw [parseExtOpcode, ha]
  simp only [rLeb128_eq length _ hlength hfit.1 hfit.2]
  simp only [rUleb128_eq u rest hu hufit.1 hufit.2]
  apply Parses.silent rfl _ rfl
  exact ⟨hrel.address, hrel.file, hrel.line, hrel.files⟩

/-- A round on a special or a standard opcode. -/
theorem loop_opcode {opcode : Ut8} {buf : List Ut8} (h0 : opcode ≠ 0) (hne : buf ≠ []) {len : Int}
    {next : List Ut8} {st' : State}
    (h : (if hdr.opcodeBase ≤ opcode then parseSpecOpcode a buf hdr st opcode
      else parseStdOpcode a buf (len - 1) hdr st opcode) = some (some next, st')) (rounds : Nat) :
    parseOpcodesLoop a hdr (rounds + 1) len (opcode :: buf) st =
      parseOpcodesLoop a hdr rounds (wrapInt next.length) next st' := by
  obtain ⟨b, bs, rfl⟩ := List.exists_cons_of_ne_nil hne
  rw [parseOpcodesLoop]
  simp only [if_neg h0, h]
  rfl

theorem loop_extended {b : Ut8} {bs : List Ut8} (hb : b ≠ 1) {len : Int} {next : List Ut8}
    {st' : State} (h : parseExtOpcode a (b :: bs) (len - 1) hdr st = some (some next, st'))
    (rounds : Nat) :
    parseOpcodesLoop a hdr (rounds + 1) len (0 :: b :: bs) st =
      parseOpcodesLoop a hdr rounds (wrapInt next.length) next st' := by
  rw [parseOpcodesLoop]
  simp only [if_true, h, Option.bind_some, if_neg hb]

/-- An extended opcode with operands is not taken for `end_sequence`. -/
theorem isLength_head {length : List Ut8} {n : Nat} (h : IsLength length n) (hn : 0 < n) :
    ∃ b bs, length = b :: bs ∧ b ≠ 1 := by
  obtain ⟨hleb, hval⟩ := h
  obtain ⟨b, bs, rfl⟩ := List.exists_cons_of_ne_nil hleb.ne_nil
  refine ⟨b, bs, rfl, ?_⟩
  intro hb
  rw [hleb.eq_singleton (by simp [hb]), hb] at hval
  simp [ulebValue] at hval
  omega

/-- What a round of the loop does. -/
def Rounds (a : RBin) (hdr : RBinDwarfLNPHeader) (s : LineProgram.State) (st : State) (op : Op)
    (rest : List Ut8) : Prop :=
  ∃ st', (∀ rounds, parseOpcodesLoop a hdr (rounds + 1) (op.encode ++ rest).length (op.encode ++ rest) st =
      parseOpcodesLoop a hdr rounds (wrapInt rest.length) rest st') ∧
    Follows hdr (exec (params hdr) s op) st'.regs ∧
    st'.calls.map AddrLine.shown =
      st.calls.map AddrLine.shown ++ (emitted (params hdr) s op).map shownRow

theorem Parses.standard {op : Op} {opcode : Ut8} {u rest : List Ut8} (hop : op.encode = opcode :: u)
    (h0 : opcode ≠ 0) (hstd : opcode < hdr.opcodeBase) (hrest : rest ≠ [])
    (h : ∀ len : Int, (u.length : Int) < len →
      Parses hdr s st op rest (parseStdOpcode a (u ++ rest) len hdr st opcode)) :
    Rounds a hdr s st op rest := by
  have hpos : 0 < rest.length := List.length_pos_iff.mpr hrest
  obtain ⟨st', hanswer, hrel, hcalls⟩ := h (((op.encode ++ rest).length : Int) - 1) (by
    rw [hop]
    simp
    omega)
  refine ⟨st', ?_, hrel, hcalls⟩
  rw [hop, List.cons_append] at *
  apply loop_opcode h0 (by simp [hrest])
  rw [if_neg (BitVec.not_le.mpr hstd)]
  exact hanswer

theorem Parses.extended {op : Op} {length operands rest : List Ut8} {opcode : Ut8} {n : Nat}
    (hop : op.encode = LineProgram.extended length opcode operands) (hlength : IsLength length n)
    (hn : 0 < n) (hrest : rest ≠ [])
    (h : ∀ len : Int, (operands.length : Int) + 1 < len →
      Parses hdr s st op rest
        (parseExtOpcode a (length ++ opcode :: (operands ++ rest)) len hdr st)) :
    Rounds a hdr s st op rest := by
  have hpos : 0 < rest.length := List.length_pos_iff.mpr hrest
  obtain ⟨b, bs, rfl, hb⟩ := isLength_head hlength hn
  obtain ⟨st', hanswer, hrel, hcalls⟩ := h (((op.encode ++ rest).length : Int) - 1) (by
    rw [hop, LineProgram.extended]
    simp
    omega)
  refine ⟨st', ?_, hrel, hcalls⟩
  rw [hop] at *
  have happend : LineProgram.extended (b :: bs) opcode operands ++ rest =
      0 :: b :: (bs ++ opcode :: (operands ++ rest)) := by
    simp [LineProgram.extended]
  rw [happend] at hanswer ⊢
  rw [List.cons_append] at hanswer
  exact loop_extended hb hanswer

/-- A round follows a step of the run. -/
theorem loop_step (ha : a.cur = some binfile) (hsdb : binfile.sdbAddrinfo = true)
    (hrange : hdr.lineRange ≠ 0) (hbase : 10 ≤ hdr.opcodeBase) (hrel : Follows hdr s st.regs) {op : Op}
    (hop : op.WellFormed (params hdr)) (hfit : StepFits binfile hdr s op) {rest : List Ut8}
    (hrest : rest ≠ []) :
    Rounds a hdr s st op rest := by
  have hstd : ∀ opcode : Ut8, opcode < 10 → opcode < hdr.opcodeBase := by
    intro opcode hlt
    bv_omega
  cases op with
  | special opcode =>
    have hle : hdr.opcodeBase ≤ opcode := hop
    obtain ⟨st', hanswer, hrel', hcalls⟩ := parses_special ha hsdb hrange hrel hle hfit.1 hfit.2 rest
    refine ⟨st', ?_, hrel', hcalls⟩
    apply loop_opcode _ hrest
    · rw [if_pos hle]
      exact hanswer
    · intro hzero
      rw [hzero] at hle
      exact absurd (BitVec.le_trans hbase hle) (by decide)
  | copy =>
    apply Parses.standard rfl (by decide) (hstd _ (by decide)) hrest
    intro len hlen
    exact parses_copy ha hsdb hrel hfit len rest
  | advancePc u =>
    apply Parses.standard rfl (by decide) (hstd _ (by decide)) hrest
    intro len hlen
    exact parses_advancePc ha hrel hop hfit len rest
  | advanceLine u =>
    apply Parses.standard rfl (by decide) (hstd _ (by decide)) hrest
    intro len hlen
    exact parses_advanceLine ha hrel hop hfit len rest
  | setFile u =>
    apply Parses.standard rfl (by decide) (hstd _ (by decide)) hrest
    intro len hlen
    exact parses_setFile ha hrel hop hfit len rest
  | setColumn u =>
    apply Parses.standard rfl (by decide) (hstd _ (by decide)) hrest
    intro len hlen
    exact parses_setColumn ha hrel hop hfit len rest
  | negateStmt =>
    apply Parses.standard rfl (by decide) (hstd _ (by decide)) hrest
    intro len hlen
    exact parses_negateStmt ha hrel len rest
  | setBasicBlock =>
    apply Parses.standard rfl (by decide) (hstd _ (by decide)) hrest
    intro len hlen
    exact parses_setBasicBlock ha hrel len rest
  | constAddPc =>
    apply Parses.standard rfl (by decide) (hstd _ (by decide)) hrest
    intro len hlen
    exact parses_constAddPc ha hrange hrel hfit len rest
  | fixedAdvancePc u =>
    apply Parses.standard rfl (by decide) (hstd _ (by decide)) hrest
    intro len hlen
    have htwo : u.length = 2 := hop
    exact parses_fixedAdvancePc ha hrel htwo (by omega) rest
  | setAddress length address =>
    apply Parses.extended rfl hop.1 (List.length_pos_iff.mpr hop.2) hrest
    intro len hlen
    exact parses_setAddress ha hrel hop.1.1 hfit.1 hfit.2 hlen rest
  | setDiscriminator length u =>
    apply Parses.extended rfl hop.1 (List.length_pos_iff.mpr hop.2.ne_nil) hrest
    intro len hlen
    exact parses_setDiscriminator ha hrel hop.1.1 hfit.1 hop.2 hfit.2 len rest
  | defineFile length name directory time size => exact absurd hfit id

theorem encode_length_pos (op : Op) : 0 < op.encode.length := by
  cases op <;> simp [Op.encode, LineProgram.extended]

/-- The last round meets `end_sequence`. -/
theorem loop_end (ha : a.cur = some binfile) (hsdb : binfile.sdbAddrinfo = true)
    (hrel : Follows hdr s st.regs) (hnamed : Named s) {length : List Ut8} (hlength : IsLength length 0)
    (hfit : LebFits length) (rounds : Nat) (len : Int) :
    ∃ next st', parseOpcodesLoop a hdr (rounds + 2) len (LineProgram.extended length 1 []) st =
        some (next, st') ∧
      st'.calls.map AddrLine.shown = st.calls.map AddrLine.shown ++ [shownRow s.row] := by
  have hend : Follows hdr s { st.regs with endSequence := 1 } :=
    ⟨hrel.address, hrel.file, hrel.line, hrel.files⟩
  have hcalls := @addRow_calls binfile hdr s { st with regs := _ } hsdb hend hnamed
  obtain ⟨b, bs, rfl⟩ := List.exists_cons_of_ne_nil hlength.1.ne_nil
  have hleb := rLeb128_eq (b :: bs) [1] hlength.1 hfit.1 hfit.2
  refine ⟨some [], _, ?_, hcalls⟩
  rw [LineProgram.extended, List.cons_append, parseOpcodesLoop, parseExtOpcode, ha]
  rw [List.cons_append] at hleb
  simp only [if_true, hleb, Option.bind_some, parseOpcodesLoop]
  simp

/-- From any round on, the loop makes the calls for the rows that are left. -/
theorem loop_rows (ha : a.cur = some binfile) (hsdb : binfile.sdbAddrinfo = true)
    (hrange : hdr.lineRange ≠ 0) (hbase : 10 ≤ hdr.opcodeBase) (ops : List Op)
    (hops : ∀ op ∈ ops, op.WellFormed (params hdr)) {length : List Ut8} (hlength : IsLength length 0)
    (hrel : Follows hdr s st.regs) (hfit : ProgramFits binfile hdr length s ops) {rounds : Nat}
    (hrounds : (encode ops length).length ≤ rounds)
    (hmax : (encode ops length).length < 2147483648) :
    ∃ next st', parseOpcodesLoop a hdr rounds (encode ops length).length (encode ops length) st =
        some (next, st') ∧
      st'.calls.map AddrLine.shown =
        st.calls.map AddrLine.shown ++ (rows (params hdr) s ops).map shownRow := by
  induction ops generalizing s st rounds with
  | nil =>
    have htwo : 2 ≤ rounds := by
      simp [encode, LineProgram.extended] at hrounds
      omega
    obtain ⟨rounds, rfl⟩ := Nat.exists_eq_add_of_le' htwo
    exact loop_end ha hsdb hrel hfit.1 hlength hfit.2 rounds _
  | cons op ops ih =>
    have happend : encode (op :: ops) length = op.encode ++ encode ops length := by
      simp [encode]
    have hpos := encode_length_pos op
    rw [happend, List.length_append] at hrounds hmax
    obtain ⟨rounds, rfl⟩ := Nat.exists_eq_add_of_le' (by omega : 1 ≤ rounds)
    have hrest : encode ops length ≠ [] := by simp [encode, LineProgram.extended]
    obtain ⟨st1, hloop, hrel1, hcalls1⟩ :=
      loop_step ha hsdb hrange hbase hrel (hops op (by simp)) hfit.1 hrest
    obtain ⟨next, st', hrun, hcalls⟩ := ih (fun op hop => hops op (by simp [hop])) hrel1 hfit.2
      (by omega : (encode ops length).length ≤ rounds) (by omega)
    refine ⟨next, st', ?_, ?_⟩
    · rw [happend, hloop, wrapInt_of_range (by omega) (by omega), hrun]
    · rw [hcalls, hcalls1, rows, List.map_append, List.append_assoc]

theorem setRegsDefault_follows (hdr : RBinDwarfLNPHeader) (regs : RBinDwarfSMRegisters) :
    Follows hdr (LineProgram.State.init hdr.fileNames) (setRegsDefault hdr regs) where
  address := rfl
  file := rfl
  line := rfl
  files := rfl

end

/-- If every opcode fits the state it is met in, the calls are the rows of the program. The length
of a program is an `int` to the caller. -/
theorem addrline_calls_eq_rows (a : RBin) (binfile : RBinFile) (ha : a.cur = some binfile)
    (hsdb : binfile.sdbAddrinfo = true) (hdr : RBinDwarfLNPHeader) (hrange : hdr.lineRange ≠ 0)
    (hbase : 10 ≤ hdr.opcodeBase) (regs : RBinDwarfSMRegisters) (ops : List Op)
    (hops : ∀ op ∈ ops, op.WellFormed (params hdr)) (length : List Ut8) (hlength : IsLength length 0)
    (hmin : 8 ≤ (encode ops length).length) (hmax : (encode ops length).length < 2147483648)
    (hfit : ProgramFits binfile hdr length (LineProgram.State.init hdr.fileNames) ops) :
    (parseOpcodes a (encode ops length) hdr ⟨setRegsDefault hdr regs, []⟩).map
        (fun answer => answer.2.calls.map AddrLine.shown) =
      some ((rows (params hdr) (LineProgram.State.init hdr.fileNames) ops).map shownRow) := by
  have hrel : Follows hdr (LineProgram.State.init hdr.fileNames) (State.mk (setRegsDefault hdr regs) []).regs :=
    setRegsDefault_follows hdr regs
  obtain ⟨next, st', hloop, hcalls⟩ := loop_rows ha hsdb hrange hbase ops hops hlength hrel hfit le_rfl hmax
  rw [parseOpcodes, if_neg (by omega), hloop, Option.map_some, hcalls]
  simp

/-- A header with one file. -/
def oneFile (minInstLen : Ut8) : RBinDwarfLNPHeader where
  minInstLen := minInstLen
  defaultIsStmt := 1
  lineBase := 0xfb
  lineRange := 14
  opcodeBase := 10
  fileNames := [[0x61]]

def target : RBinFile where
  bits := some 32
  sdbAddrinfo := true

def zeroRegs : RBinDwarfSMRegisters := ⟨0, 0, 0, 0, 0, 0, 0, 0, 0, 0, 0⟩

/-- An address, and an opcode that advances it by one instruction. -/
def twoRows : List Op := [.setAddress [5] [0, 16, 0, 0], .special 24]

theorem twoRows_wellFormed (minInstLen : Ut8) :
    ∀ op ∈ twoRows, op.WellFormed (params (oneFile minInstLen)) := by
  intro op hop
  simp only [twoRows, List.mem_cons, List.not_mem_nil, or_false] at hop
  obtain rfl | rfl := hop
  · simp [Op.WellFormed, IsLength, IsLeb, ulebValue]
  · simp [Op.WellFormed, params, oneFile]

theorem isLength_one : IsLength [1] 0 := by
  simp [IsLength, IsLeb, ulebValue]

theorem addrline_calls_eq_rows_twoRows :
    (parseOpcodes ⟨some target⟩ (encode twoRows [1]) (oneFile 1)
        ⟨setRegsDefault (oneFile 1) zeroRegs, []⟩).map (fun answer => answer.2.calls.map AddrLine.shown) =
      some ((rows (params (oneFile 1)) (LineProgram.State.init [[0x61]]) twoRows).map shownRow) := by
  apply addrline_calls_eq_rows ⟨some target⟩ target rfl rfl (oneFile 1) (by decide) (by decide) zeroRegs
    twoRows (twoRows_wellFormed 1) [1] isLength_one (by decide) (by decide)
  simp [ProgramFits, StepFits, twoRows, LebFits, AdvanceFits, Named, exec, oneFile, target, addrSize,
    LineProgram.State.init]

/-- With instructions of four bytes the second row has another address. -/
theorem special_opcode_advances_one_byte :
    (∀ op ∈ twoRows, op.WellFormed (params (oneFile 4))) ∧ IsLength [1] 0 ∧
      8 ≤ (encode twoRows [1]).length ∧
      (parseOpcodes ⟨some target⟩ (encode twoRows [1]) (oneFile 4)
          ⟨setRegsDefault (oneFile 4) zeroRegs, []⟩).map
            (fun answer => answer.2.calls.map AddrLine.shown) ≠
        some ((rows (params (oneFile 4)) (LineProgram.State.init [[0x61]]) twoRows).map shownRow) := by
  refine ⟨twoRows_wellFormed 4, isLength_one, by decide, ?_⟩
  decide

end Radare.Dwarf
