import Radare.Esil.MemOpsProof

namespace Radare

/-- The operations that have a read-modify-write word. -/
inductive RmwOp where
  | or
  | xor
  | and
  | add
  | sub
  | mod
  | div
  | mul
  | inc
  | dec
  deriving DecidableEq

namespace RmwOp

def symbol : RmwOp → CStr
  | or => ['|']
  | xor => ['^']
  | and => ['&']
  | add => ['+']
  | sub => ['-']
  | mod => ['%']
  | div => ['/']
  | mul => ['*']
  | inc => ['+', '+']
  | dec => ['-', '-']

def memWord (op : RmwOp) (w : MemWidth) : CStr := op.symbol ++ ['='] ++ w.suffix

/-- `++` and `--` have no source operand. -/
def unary : RmwOp → Bool
  | inc => true
  | dec => true
  | _ => false

def operands (op : RmwOp) (a s : CStr) : List CStr := if op.unary then [a] else [a, s]

/-- The operation on integers of any size. -/
def exact (op : RmwOp) (d s : Nat) : Int :=
  match op with
  | or => (d ||| s : Nat)
  | xor => (d ^^^ s : Nat)
  | and => (d &&& s : Nat)
  | add => d + s
  | sub => d - s
  | mod => (d % s : Nat)
  | div => (d / s : Nat)
  | mul => d * s
  | inc => d + 1
  | dec => d - 1

/-- The operation on machine numbers. -/
def apply (op : RmwOp) (d s : Ut64) : Ut64 :=
  match op with
  | or => d ||| s
  | xor => d ^^^ s
  | and => d &&& s
  | add => d + s
  | sub => d - s
  | mod => d % s
  | div => d / s
  | mul => d * s
  | inc => d + 1
  | dec => d - 1

end RmwOp

/-- The value that is stored has the low bits of the exact result. -/
theorem RmwOp.apply_exact (op : RmwOp) (w : MemWidth) (d : Nat) (s : Ut64)
    (hd : d < 2 ^ w.bits) :
    (((op.apply (BitVec.ofNat 64 d) s).toNat % 2 ^ w.bits : Nat) : Int) =
      op.exact d s.toNat % (2 ^ w.bits : Nat) := by
  have hd64 : (BitVec.ofNat 64 d).toNat = d := by
    rw [BitVec.toNat_ofNat]
    exact Nat.mod_eq_of_lt (lt_of_lt_of_le hd w.pow_bits_le)
  have hdvd : 2 ^ w.bits ∣ 2 ^ 64 := by cases w <;> decide
  have hs := s.isLt
  cases op with
  | or => simp only [apply, exact, BitVec.toNat_or, hd64, Int.natCast_emod]
  | xor => simp only [apply, exact, BitVec.toNat_xor, hd64, Int.natCast_emod]
  | and => simp only [apply, exact, BitVec.toNat_and, hd64, Int.natCast_emod]
  | mod => simp only [apply, exact, BitVec.toNat_umod, hd64, Int.natCast_emod]
  | div => simp only [apply, exact, BitVec.toNat_udiv, hd64, Int.natCast_emod]
  | add =>
    rw [apply, BitVec.toNat_add, hd64, Nat.mod_mod_of_dvd _ hdvd]
    rfl
  | mul =>
    rw [apply, BitVec.toNat_mul, hd64, Nat.mod_mod_of_dvd _ hdvd]
    simp [exact]
  | inc =>
    rw [apply, BitVec.toNat_add, hd64, Nat.mod_mod_of_dvd _ hdvd]
    rfl
  | sub =>
    rw [apply, BitVec.toNat_sub, hd64, Nat.mod_mod_of_dvd _ hdvd, exact]
    cases w <;> simp only [MemWidth.bits, MemWidth.bytes] <;> omega
  | dec =>
    rw [apply, BitVec.toNat_sub, hd64, Nat.mod_mod_of_dvd _ hdvd, exact]
    cases w <;> simp only [MemWidth.bits, MemWidth.bytes] <;> simp <;> omega

section
variable {R : Type} (env : EsilEnv R)

def RmwOp.memOp (op : RmwOp) : Nat → EsilOp R :=
  match op with
  | or => esilMemOreqN env
  | xor => esilMemXoreqN env
  | and => esilMemAndeqN env
  | add => esilMemAddeqN env
  | sub => esilMemSubeqN env
  | mod => esilMemModeqN env
  | div => esilMemDiveqN env
  | mul => esilMemMuleqN env
  | inc => esilMemInceqN env
  | dec => esilMemDeceqN env

def RmwOp.plainOp (op : RmwOp) : EsilOp R :=
  match op with
  | or => esilOr env
  | xor => esilXor env
  | and => esilAnd env
  | add => esilAdd env
  | sub => esilSub env
  | mod => esilMod env
  | div => esilDiv env
  | mul => esilMul env
  | inc => esilInc env
  | dec => esilDec env

theorem mem_sizedWords (stem : CStr) (plain : EsilOp R) (op : Nat → EsilOp R) (w : MemWidth) :
    (stem ++ w.suffix, op w.bits) ∈ sizedWords stem plain op := by
  cases w <;> simp [sizedWords, MemWidth.suffix, MemWidth.digit, MemWidth.bits, MemWidth.bytes]

theorem memWord_mem (op : RmwOp) (w : MemWidth) :
    (op.memWord w, op.memOp env w.bits) ∈ setupOps env := by
  unfold setupOps
  cases op <;> repeat first
    | exact List.mem_append_right _ (mem_sizedWords _ _ _ w)
    | refine List.mem_append_left _ ?_

theorem peekWord_mem (w : MemWidth) : (w.suffix, esilPeekN env w.bits) ∈ setupOps env := by
  unfold setupOps
  exact List.mem_append_left _ (List.mem_append_right _ (mem_sizedWords [] _ _ w))

theorem pokeWord_mem (w : MemWidth) :
    ('=' :: w.suffix, esilPokeN env w.bits) ∈ setupOps env := by
  unfold setupOps
  repeat first
    | exact List.mem_append_right _ (mem_sizedWords ['='] _ _ w)
    | refine List.mem_append_left _ ?_

theorem symbol_mem (op : RmwOp) : (op.symbol, op.plainOp env) ∈ setupOps env := by
  unfold setupOps
  simp only [List.append_assoc]
  apply List.mem_append_left
  cases op <;> simp [RmwOp.symbol, RmwOp.plainOp]

/-- Every word but `%=[n]` reads its operands and then updates memory. -/
theorem memOp_update (op : RmwOp) (hop : op ≠ .mod) (bits : Nat) (e : Esil R) {a s : CStr}
    {rest : List CStr} (hstack : e.stack = op.operands a s ++ rest) (hs : isParmNumber s = true)
    (hz : op = .div → rNumGet s ≠ 0) :
    op.memOp env bits e = esilMemUpdate env (fun d => op.apply d (rNumGet s)) bits (some a)
      (e.withStack rest) := by
  have hbin (f : Ut64 → Ut64 → Ut64) (h : e.stack = a :: s :: rest) : esilMemBinopN env f bits e =
      esilMemUpdate env (fun d => f d (rNumGet s)) bits (some a) (e.withStack rest) := by
    simp only [esilMemBinopN, popTwo_cons e h, parmOf_number env _ hs]
  have hun (f : Ut64 → Ut64) (h : e.stack = a :: rest) : esilMemUnaryN env f bits e =
      esilMemUpdate env f bits (some a) (e.withStack rest) := by
    simp only [esilMemUnaryN, pop_cons e h]
  cases op with
  | or => exact hbin _ hstack
  | xor => exact hbin _ hstack
  | and => exact hbin _ hstack
  | add => exact hbin _ hstack
  | sub => exact hbin _ hstack
  | mul => exact hbin _ hstack
  | mod => exact absurd rfl hop
  | div =>
    have h : e.stack = a :: s :: rest := hstack
    simp only [RmwOp.memOp, esilMemDiveqN, popTwo_cons e h, parmOf_number env _ hs, hz rfl, if_false]
    rfl
  | inc => exact hun _ hstack
  | dec => exact hun _ hstack

/-- `%=[n]` fails or leaves the remainder it pushed in front of its operand behind. -/
theorem memModeq_leaves_entry (henv : env.NoHooks) (e : Esil R) (hr : NumbersAreNoRegs env e.reg)
    (w : MemWidth) (hnw : e.nowrite = false) {a s : CStr} {rest : List CStr}
    (hstack : e.stack = a :: s :: rest) (ha : isParmNumber a = true) (hs : isParmNumber s = true)
    (hz : rNumGet s ≠ 0) (hroom : (e.stack.length : Int) + 2 ≤ e.stacksize) :
    (esilMemModeqN env w.bits e).1 = 0 ∨
      (esilMemModeqN env w.bits e).2.stack =
        hexLiteral (e.valueAt (rNumGet a) w % rNumGet s) :: rest := by
  have hlen : (rest.length : Int) + 4 ≤ e.stacksize := by
    rw [hstack, List.length_cons, List.length_cons] at hroom
    omega
  have hpush := push_of_room (e.withStack rest) (number_ne_nil ha)
    (by rw [Esil.withStack_stack, Esil.withStack_stacksize]; omega)
  simp only [Esil.withStack_withStack, Esil.withStack_stack] at hpush
  by_cases hneg : a.head? = some '-'
  · left
    have hpeek := peek_negative env henv (e.withStack (a :: rest)) hr w rfl ha hneg
    simp only [esilMemModeqN, popTwo_cons e hstack, parmOf_number env _ hs, hz, if_false,
      rAnalEsilPushOpt, hpush, hpeek]
    split
    · rfl
    · simp [boolInt]
  · right
    have hpeek := peek_spec env henv (e.withStack (a :: rest)) hr w rfl ha hneg
      (by rw [Esil.withStack_stacksize]; omega)
    have hpop (x : CStr) := pop_cons (e.loaded w (x :: rest)) rfl
    have hnum (v : Ut64) := pushnum_of_room (e.loaded w rest) v
      (by rw [Esil.loaded_stack, Esil.loaded_stacksize]; omega)
    have hnum2 (x : CStr) (v : Ut64) := pushnum_of_room (e.loaded w (x :: rest)) v
      (by rw [Esil.loaded_stack, Esil.loaded_stacksize, List.length_cons]; omega)
    have hpush2 (x y : CStr) := push_of_room (e.loaded w (x :: y :: rest)) (number_ne_nil ha)
      (by rw [Esil.loaded_stack, Esil.loaded_stacksize, List.length_cons, List.length_cons]; omega)
    obtain ⟨old, hpoke⟩ := poke_spec env henv
      (e.loaded w (a :: hexLiteral (e.valueAt (rNumGet a) w % rNumGet s) ::
        hexLiteral (e.valueAt (rNumGet a) w % rNumGet s) :: rest)) hnw w rfl ha
    simp only [Esil.valueAt_withStack, Esil.loaded_withStack] at hpeek
    simp only [Esil.withStack_loaded, Esil.loaded_stack] at hpop hnum hnum2 hpush2 hpoke
    simp only [esilMemModeqN, popTwo_cons e hstack, parmOf_number env _ hs, hz, if_false,
      rAnalEsilPushOpt, hpush, hpeek, hpop, parmOf_hexLiteral, hnum, hnum2, hpush2, hpoke]
    rfl

/-- The plain operation replaces the loaded value and the source by the result. -/
theorem plainOp_spec (henv : env.NoHooks) (op : RmwOp) (e : Esil R)
    (hr : NumbersAreNoRegs env e.reg) {s : CStr} {d : Ut64} {rest : List CStr}
    (hstack : e.stack = op.operands (hexLiteral d) s ++ rest) (hs : isParmNumber s = true)
    (hz : op = .mod ∨ op = .div → rNumGet s ≠ 0) (hneg : op = .sub → s.head? ≠ some '-')
    (hroom : (rest.length : Int) < e.stacksize) :
    op.plainOp env e = (1, e.withStack (hexLiteral (op.apply d (rNumGet s)) :: rest)) := by
  have hres (v : Ut64) : pushResult (e.withStack rest) v =
      (1, e.withStack (hexLiteral v :: rest)) := by
    rw [pushResult, pushnum_of_room (e.withStack rest) v hroom]
    rfl
  cases op with
  | or | xor | and =>
    have h : e.stack = hexLiteral d :: s :: rest := hstack
    simp only [RmwOp.plainOp, esilOr, esilXor, esilAnd, esilDstFirst, popTwo_cons e h,
      parmOf_hexLiteral, parmOf_number env _ hs, hres]
    rfl
  | add | mul =>
    have h : e.stack = hexLiteral d :: s :: rest := hstack
    simp only [RmwOp.plainOp, esilAdd, esilMul, esilSrcFirst, popTwo_cons e h,
      parmOf_hexLiteral, parmOf_number env _ hs, hres, RmwOp.apply, BitVec.add_comm]
  | mod | div =>
    have h : e.stack = hexLiteral d :: s :: rest := hstack
    have h0 : rNumGet s ≠ 0 := hz (by simp)
    simp only [RmwOp.plainOp, esilMod, esilDiv, esilDivision, popTwo_cons e h,
      parmOf_hexLiteral, parmOf_number env _ hs, hres, h0, if_false]
    rfl
  | sub =>
    have h : e.stack = hexLiteral d :: s :: rest := hstack
    have h1 := isregornum_number env henv.regRead (e.withStack (s :: rest)) hr
      (isParmNumber_hexLiteral d)
    have h2 := isregornum_number env henv.regRead (e.withStack rest) hr hs
    rw [if_neg (by simp [hexLiteral]), rNumGet_hexLiteral] at h1
    rw [if_neg (hneg rfl)] at h2
    simp only [RmwOp.plainOp, esilSub, popRN, pop_cons e h, h1,
      pop_cons (e.withStack (s :: rest)) rfl, Esil.withStack_withStack, h2, hres]
    rfl
  | inc | dec =>
    have h : e.stack = hexLiteral d :: rest := hstack
    simp only [RmwOp.plainOp, esilInc, esilDec, esilUnary, pop_cons e h, parmOf_hexLiteral, hres]
    rfl

/-- `-` refuses a source with a minus sign. -/
theorem esilSub_negative (henv : env.NoHooks) (e : Esil R) (hr : NumbersAreNoRegs env e.reg)
    {s : CStr} {d : Ut64} {rest : List CStr} (hstack : e.stack = hexLiteral d :: s :: rest)
    (hs : isParmNumber s = true) (hneg : s.head? = some '-') : (esilSub env e).1 = 0 := by
  have h1 := isregornum_number env henv.regRead (e.withStack (s :: rest)) hr
    (isParmNumber_hexLiteral d)
  have h2 := isregornum_number env henv.regRead (e.withStack rest) hr hs
  rw [if_neg (by simp [hexLiteral]), rNumGet_hexLiteral] at h1
  rw [if_pos hneg] at h2
  simp only [esilSub, popRN, pop_cons e hstack, h1, pop_cons (e.withStack (s :: rest)) rfl,
    Esil.withStack_withStack, h2]

/-- A word that returned zero ends the run. -/
def ranOk (r : Int × Esil R) : Option (Esil R) := if r.1 = 0 then none else some r.2

/-- Load, plain operation, and store through a second copy of the address. -/
def rmwExpansion (e : Esil R) (op : RmwOp) (w : MemWidth) (a : CStr) : Option (Esil R) := do
  let e ← ranOk (runCommand env e w.suffix)
  let e ← ranOk (runCommand env e op.symbol)
  ranOk (runCommand env (rAnalEsilPush e a).2 ('=' :: w.suffix))

/-- The starting states: the operands are numbers on a stack with two free slots. -/
structure RmwInput (e : Esil R) (op : RmwOp) (a s : CStr) (rest : List CStr) : Prop where
  regs : NumbersAreNoRegs env e.reg
  anal : e.anal.isSome = true
  writable : e.nowrite = false
  stack : e.stack = op.operands a s ++ rest
  room : (e.stack.length : Int) + 2 ≤ e.stacksize
  address : isParmNumber a = true
  source : isParmNumber s = true
  divisor : op = .mod ∨ op = .div → rNumGet s ≠ 0

/-- What a read-modify-write word is for: it succeeds, takes exactly its operands, leaves the
result modulo `2^n` at the address and nothing else in memory, and agrees with its expansion. -/
structure RmwMeets (e : Esil R) (op : RmwOp) (w : MemWidth) (a s : CStr) (rest : List CStr)
    (r : Int × Esil R) : Prop where
  returns : r.1 ≠ 0
  stack : r.2.stack = rest
  value : (memValue e.bigEndian r.2.mem (rNumGet a) w.bytes : Int) =
    op.exact (memValue e.bigEndian e.mem (rNumGet a) w.bytes) (rNumGet s).toNat %
      (2 ^ w.bits : Nat)
  frame : ∀ x, w.bytes ≤ (x - rNumGet a).toNat → r.2.mem x = e.mem x
  expansion : ∃ e', rmwExpansion env e op w a = some e' ∧ e'.stack = r.2.stack ∧ e'.mem = r.2.mem

theorem stored_value (e : Esil R) (op : RmwOp) (w : MemWidth) (a s old : Ut64) :
    (memValue e.bigEndian (e.stored w a (op.apply (e.valueAt a w) s) old).mem a w.bytes : Int) =
      op.exact (memValue e.bigEndian e.mem a w.bytes) s.toNat % (2 ^ w.bits : Nat) := by
  have hb : w.bytes ≤ 8 := by cases w <;> decide
  have hlt := memValue_lt_bits e.bigEndian e.mem a w
  rw [Esil.stored, memValue_memWrite _ _ _ _ _ hb, ← w.two_pow_bits, Nat.mod_mod]
  exact op.apply_exact w _ s hlt

theorem stored_frame (e : Esil R) (w : MemWidth) (a v old x : Ut64)
    (hx : w.bytes ≤ (x - a).toNat) : (e.stored w a v old).mem x = e.mem x := by
  have hb : w.bytes ≤ 8 := by cases w <;> decide
  have hl : (orient e.bigEndian (leBytes w.bytes (v.toNat % 2 ^ w.bits))).length = w.bytes := by
    rw [orient_length, leBytes_length]
  exact memWrite_frame e.mem a _ x (by omega) (by omega)

variable {env} in
theorem RmwInput.rest_room {e : Esil R} {op : RmwOp} {a s : CStr} {rest : List CStr}
    (h : RmwInput env e op a s rest) : (rest.length : Int) + 3 ≤ e.stacksize := by
  have hroom := h.room
  rw [h.stack, RmwOp.operands] at hroom
  split at hroom <;> simp only [List.length_append, List.length_cons, List.length_nil] at hroom <;>
    omega

/-- The loading word of the expansion leaves the operands of the plain operation. -/
theorem expansion_load (henv : env.NoHooks) (e : Esil R) (op : RmwOp) (w : MemWidth) {a s : CStr}
    {rest : List CStr} (h : RmwInput env e op a s rest) (hneg : a.head? ≠ some '-') :
    runCommand (rAnalEsilSetupOps env) e w.suffix = ((w.bytes : Int),
      e.loaded w (op.operands (hexLiteral (e.valueAt (rNumGet a) w)) s ++ rest)) := by
  have hroom := h.rest_room
  have hst := h.stack
  rw [runCommand_setupOps env henv e (peekWord_mem env w)]
  rw [RmwOp.operands] at hst ⊢
  by_cases hu : op.unary = true
  · rw [if_pos hu] at hst ⊢
    have hpeek := peek_spec env henv e h.regs w (show e.stack = a :: rest from hst) h.address hneg
      (by omega)
    exact hpeek
  · rw [if_neg hu] at hst ⊢
    have hpeek := peek_spec env henv e h.regs w (show e.stack = a :: s :: rest from hst) h.address
      hneg (by rw [List.length_cons]; omega)
    exact hpeek

/-- The expansion stores the same value as the word it expands. -/
theorem rmwExpansion_spec (henv : env.NoHooks) (e : Esil R) (op : RmwOp) (w : MemWidth)
    {a s : CStr} {rest : List CStr} (h : RmwInput env e op a s rest)
    (hneg : a.head? ≠ some '-') (hsub : op = .sub → s.head? ≠ some '-') :
    ∃ old, rmwExpansion (rAnalEsilSetupOps env) e op w a = some
      ((e.withStack rest).stored w (rNumGet a)
        (op.apply (e.valueAt (rNumGet a) w) (rNumGet s)) old) := by
  have hlen := h.rest_room
  have hplain := plainOp_spec env henv op
    (e.loaded w (op.operands (hexLiteral (e.valueAt (rNumGet a) w)) s ++ rest)) h.regs rfl h.source
    h.divisor hsub (by rw [Esil.loaded_stacksize]; omega)
  have hpush (x : CStr) := push_of_room (e.loaded w (x :: rest)) (number_ne_nil h.address)
    (by rw [Esil.loaded_stack, Esil.loaded_stacksize, List.length_cons]; omega)
  obtain ⟨old, hpoke⟩ := poke_spec env henv (e.loaded w (a :: hexLiteral
    (op.apply (e.valueAt (rNumGet a) w) (rNumGet s)) :: rest)) h.writable w rfl h.address
  refine ⟨old, ?_⟩
  simp only [Esil.withStack_loaded, Esil.loaded_stack] at hplain hpush hpoke
  simp only [rmwExpansion, expansion_load env henv e op w h hneg, ranOk, w.bytes_ne_zero, if_false,
    Option.bind_eq_bind, Option.bind_some, runCommand_setupOps env henv _ (symbol_mem env op),
    hplain, one_ne_zero, hpush, runCommand_setupOps env henv _ (pokeWord_mem env w), hpoke]
  rfl

/-- With a negative literal as the source of `-` the expansion stops at the operator. -/
theorem rmwExpansion_sub_negative (henv : env.NoHooks) (e : Esil R) (w : MemWidth)
    {a s : CStr} {rest : List CStr} (h : RmwInput env e .sub a s rest)
    (hneg : a.head? ≠ some '-') (hs : s.head? = some '-') :
    rmwExpansion (rAnalEsilSetupOps env) e .sub w a = none := by
  have hsub := esilSub_negative env henv
    (e.loaded w (RmwOp.sub.operands (hexLiteral (e.valueAt (rNumGet a) w)) s ++ rest)) h.regs rfl
    h.source hs
  simp only [rmwExpansion, expansion_load env henv e .sub w h hneg, ranOk, w.bytes_ne_zero,
    if_false, Option.bind_eq_bind, Option.bind_some,
    runCommand_setupOps env henv _ (symbol_mem env .sub), RmwOp.plainOp]
  rw [if_pos hsub]
  rfl

/-- A read-modify-write word does its work exactly when it is not `%=[n]`, its address is not a
negative literal and, for `-=[n]`, neither is its source. -/
theorem rmw_word_meets_iff (henv : env.NoHooks) (e : Esil R) (op : RmwOp) (w : MemWidth)
    (a s : CStr) (rest : List CStr) (h : RmwInput env e op a s rest) :
    RmwMeets (rAnalEsilSetupOps env) e op w a s rest
        (runCommand (rAnalEsilSetupOps env) e (op.memWord w)) ↔
      op ≠ .mod ∧ a.head? ≠ some '-' ∧ (op = .sub → s.head? ≠ some '-') := by
  have hlen := h.rest_room
  rw [runCommand_setupOps env henv e (memWord_mem env op w)]
  constructor
  · intro hm
    have hmod : op ≠ .mod := by
      rintro rfl
      rcases memModeq_leaves_entry env henv e h.regs w h.writable h.stack h.address h.source
        (h.divisor (Or.inl rfl)) h.room with h0 | hst
      · exact hm.returns h0
      · exact List.cons_ne_self _ _ (hst.symm.trans hm.stack)
    have haddr : a.head? ≠ some '-' := by
      intro hneg
      apply hm.returns
      rw [memOp_update env op hmod w.bits e h.stack h.source (fun hd => h.divisor (Or.inr hd))]
      exact memUpdate_negative env henv (e.withStack rest) h.regs _ w h.address hneg
        (by rw [Esil.withStack_stack, Esil.withStack_stacksize]; omega)
    refine ⟨hmod, haddr, ?_⟩
    rintro rfl hs
    obtain ⟨e', he', -⟩ := hm.expansion
    rw [rmwExpansion_sub_negative env henv e w h haddr hs] at he'
    exact nomatch he'
  · rintro ⟨hmod, haddr, hsub⟩
    obtain ⟨old, hword⟩ := memUpdate_spec env henv (e.withStack rest) h.regs h.writable
      (fun d => op.apply d (rNumGet s)) w h.address haddr
      (by rw [Esil.withStack_stack, Esil.withStack_stacksize]; omega)
    obtain ⟨old', hexp⟩ := rmwExpansion_spec env henv e op w h haddr hsub
    rw [memOp_update env op hmod w.bits e h.stack h.source (fun hd => h.divisor (Or.inr hd)), hword]
    exact
      { returns := one_ne_zero
        stack := rfl
        value := stored_value (e.withStack rest) op w (rNumGet a) (rNumGet s) old
        frame := fun x hx => stored_frame (e.withStack rest) w (rNumGet a) _ old x hx
        expansion := ⟨_, hexp, rfl, rfl⟩ }

end

/-- A big-endian emulator over a memory of zeros. -/
def stackEsil (stack : List CStr) : Esil Unit :=
  { bareEsil 4096 with anal := some ⟨64, true, 4096⟩, stack := stack }

theorem bareEnv_noHooks : bareEnv.NoHooks := ⟨rfl, rfl, rfl, rfl, rfl, rfl⟩

theorem stackEsil_input (op : RmwOp) (hop : op.unary = false) :
    RmwInput bareEnv (stackEsil [['1', '6'], ['7'], ['9']]) op ['1', '6'] ['7'] [['9']] where
  regs := fun _ _ => rfl
  anal := rfl
  writable := rfl
  stack := by
    rw [RmwOp.operands, hop]
    rfl
  room := by decide
  address := rfl
  source := rfl
  divisor := fun _ => by decide

theorem rmw_word_meets_add_seven :
    RmwMeets (rAnalEsilSetupOps bareEnv) (stackEsil [['1', '6'], ['7'], ['9']]) .add .w4
      ['1', '6'] ['7'] [['9']] (runCommand (rAnalEsilSetupOps bareEnv)
        (stackEsil [['1', '6'], ['7'], ['9']]) (RmwOp.add.memWord .w4)) :=
  (rmw_word_meets_iff bareEnv bareEnv_noHooks _ .add .w4 _ _ _
    (stackEsil_input .add rfl)).mpr ⟨by decide, by decide, by decide⟩

/-- `7,16,%=[4]` leaves the remainder on the stack. -/
theorem modeq_leaves_remainder :
    RmwInput bareEnv (stackEsil [['1', '6'], ['7'], ['9']]) .mod ['1', '6'] ['7'] [['9']] ∧
    ¬ RmwMeets (rAnalEsilSetupOps bareEnv) (stackEsil [['1', '6'], ['7'], ['9']]) .mod .w4
      ['1', '6'] ['7'] [['9']] (runCommand (rAnalEsilSetupOps bareEnv)
        (stackEsil [['1', '6'], ['7'], ['9']]) (RmwOp.mod.memWord .w4)) := by
  refine ⟨stackEsil_input .mod rfl, fun hm => ?_⟩
  have hin := stackEsil_input .mod rfl
  rw [runCommand_setupOps bareEnv bareEnv_noHooks _ (memWord_mem bareEnv .mod .w4)] at hm
  rcases memModeq_leaves_entry bareEnv bareEnv_noHooks _ hin.regs .w4 hin.writable hin.stack
    hin.address hin.source (hin.divisor (Or.inl rfl)) hin.room with h0 | hst
  · exact hm.returns h0
  · exact List.cons_ne_self _ _ (hst.symm.trans hm.stack)

end Radare
