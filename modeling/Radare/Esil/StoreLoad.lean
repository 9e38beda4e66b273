import Radare.Esil.ReadModifyWrite

namespace Radare

section
variable {R : Type} (env : EsilEnv R)

/-- The words run one after the other, until one returns zero. -/
def runWords (e : Esil R) (words : List CStr) : Option (Esil R) :=
  words.foldlM (fun e word => ranOk (runCommand env e word)) e

variable {env} in
/-- A word that does not return zero is followed by the rest. -/
theorem runWords_step {e e' : Esil R} {word : CStr} {ret : Int} (h : runCommand env e word = (ret, e'))
    (hret : ret ≠ 0) (words : List CStr) : runWords env e (word :: words) = runWords env e' words := by
  simp only [runWords, List.foldlM_cons, h, ranOk, if_neg hret, Option.bind_eq_bind, Option.bind_some]

theorem runWords_append (e : Esil R) (words more : List CStr) :
    runWords env e (words ++ more) = (runWords env e words).bind (fun e' => runWords env e' more) := by
  rw [runWords, List.foldlM_append]
  rfl

/-- A number that is no command. -/
structure Operand (str : CStr) : Prop where
  number : isParmNumber str = true
  plain : iscommand env str = none

variable {env} in
theorem Operand.head_ne_comma {str : CStr} (h : Operand env str) : str.head? ≠ some ',' := by
  have hnum := h.number
  cases str with
  | nil => simp
  | cons c cs =>
    intro hc
    rw [List.head?_cons, Option.some.injEq] at hc
    rw [hc] at hnum
    exact absurd (isParmNumber_head hnum) (by decide)

theorem runCommand_operand (e : Esil R) {str : CStr} (h : Operand env str)
    (hroom : (e.stack.length : Int) < e.stacksize) :
    runCommand env e str = (1, e.withStack (str :: e.stack)) := by
  have hne := number_ne_nil h.number
  have hpush := push_of_room e hne hroom
  simp [runCommand, h.plain, hne, h.head_ne_comma, hpush]

/-- What the words `v,a,=[n]` and `a,[n]` are to do: the low bits of `v` are pushed, no byte outside
the value changes, and the old value is kept for the flags. -/
structure StoresAndLoads (e e₁ e₂ : Esil R) (w : MemWidth) (v a : CStr) : Prop where
  pushed : e₂.stack = hexLiteral (BitVec.ofNat 64 ((rNumGet v).toNat % 2 ^ w.bits)) :: e.stack
  frame : ∀ x, w.bytes ≤ (x - rNumGet a).toNat → e₂.mem x = e.mem x
  old : e₁.old.toNat % 2 ^ w.bits = memValue e.bigEndian e.mem (rNumGet a) w.bytes

def StoreLoadMeets (e : Esil R) (w : MemWidth) (v a : CStr) : Prop :=
  ∃ e₁ e₂, runWords env e [v, a, '=' :: w.suffix] = some e₁ ∧ runWords env e₁ [a, w.suffix] = some e₂ ∧
    StoresAndLoads e e₁ e₂ w v a

/-- Both byte orders read the old value behind the bytes of a value from the local buffer; in the
big-endian one these are the low bits. -/
theorem oldBuffer_low (e : Esil R) (w : MemWidth) (a : Ut64) :
    (rReadBle64 (oldBuffer env e w a) e.bigEndian).toNat % 2 ^ w.bits =
      memValue e.bigEndian e.mem a w.bytes ↔
      e.bigEndian = false ∨ w = .w8 ∨ (pokeBuffer env).drop (8 - w.bytes) = memRead e.mem a w.bytes := by
  have hb : w.bytes ≤ 8 := by cases w <;> decide
  have hmem := memRead_length e.mem a w.bytes
  have hpoke : (pokeBuffer env).length = 8 := by simp [pokeBuffer]
  have hlen : (oldBuffer env e w a).length = 8 := by
    rw [oldBuffer, List.length_append, hmem, List.length_drop, hpoke]
    omega
  have hread : (rReadBle64 (oldBuffer env e w a) e.bigEndian).toNat =
      leNat (orient e.bigEndian (oldBuffer env e w a)) := by
    have hlt := leNat_lt (orient e.bigEndian (oldBuffer env e w a))
    rw [orient_length, hlen] at hlt
    rw [rReadBle64, List.take_of_length_le (by omega), BitVec.toNat_ofNat]
    exact Nat.mod_eq_of_lt hlt
  rw [hread, w.two_pow_bits, ← leNat_take, memValue]
  cases hbe : e.bigEndian with
  | false =>
    have htake : (oldBuffer env e w a).take w.bytes = memRead e.mem a w.bytes := by
      rw [oldBuffer, List.take_left' hmem]
    simp [orient, htake]
  | true =>
    have hreverse : (oldBuffer env e w a).reverse.take w.bytes =
        ((oldBuffer env e w a).drop (8 - w.bytes)).reverse := by
      rw [List.take_reverse, hlen]
    have hinj : leNat ((oldBuffer env e w a).drop (8 - w.bytes)).reverse =
        leNat (memRead e.mem a w.bytes).reverse ↔
        (oldBuffer env e w a).drop (8 - w.bytes) = memRead e.mem a w.bytes := by
      constructor
      · intro h
        apply List.reverse_injective
        exact leNat_inj (by simp [hlen, hmem]; omega) h
      · intro h
        rw [h]
    rw [orient, orient, if_pos rfl, if_pos rfl, hreverse, hinj]
    by_cases hw : w = .w8
    · simp [hw, oldBuffer, MemWidth.bytes, hpoke]
    · have hsmall : w.bytes ≤ 8 - w.bytes := by
        cases w
        · decide
        · decide
        · decide
        · exact absurd rfl hw
      have hdrop : (oldBuffer env e w a).drop (8 - w.bytes) = (pokeBuffer env).drop (8 - w.bytes) := by
        rw [oldBuffer, List.drop_append, List.drop_eq_nil_of_le (by omega), List.nil_append,
          List.drop_drop, hmem]
        congr 1
        omega
      simp [hw, hdrop]

section

variable {env} {e : Esil R} {w : MemWidth} {v a : CStr}

theorem store_runs (henv : env.NoHooks) (hnw : e.nowrite = false)
    (hv : Operand (rAnalEsilSetupOps env) v) (ha : Operand (rAnalEsilSetupOps env) a)
    (hroom : (e.stack.length : Int) + 2 ≤ e.stacksize) :
    runWords (rAnalEsilSetupOps env) e [v, a, '=' :: w.suffix] =
      some (e.stored w (rNumGet a) (rNumGet v) (rReadBle64 (oldBuffer env e w (rNumGet a)) e.bigEndian)) := by
  have hpoke := poke_number env henv (e.withStack (a :: v :: e.stack)) hnw w rfl ha.number hv.number
  have hpushv := runCommand_operand (rAnalEsilSetupOps env) e hv (by omega)
  have hpusha := runCommand_operand (rAnalEsilSetupOps env) (e.withStack (v :: e.stack)) ha
    (by simp only [Esil.withStack_stack, Esil.withStack_stacksize, List.length_cons]; omega)
  have hword := runCommand_setupOps env henv (e.withStack (a :: v :: e.stack)) (pokeWord_mem env w)
  simp only [Esil.withStack_withStack, Esil.withStack_stack] at hpusha hpoke
  simp only [runWords, List.foldlM_cons, List.foldlM_nil, hpushv, hpusha, hword, hpoke, ranOk,
    one_ne_zero, w.bytes_ne_zero, if_false, Option.bind_eq_bind, Option.bind_some]
  rfl

theorem load_runs (henv : env.NoHooks) (hregs : NumbersAreNoRegs env e.reg)
    (ha : Operand (rAnalEsilSetupOps env) a) (hneg : a.head? ≠ some '-')
    (hroom : (e.stack.length : Int) + 2 ≤ e.stacksize) :
    runWords (rAnalEsilSetupOps env) e [a, w.suffix] =
      some (e.loaded w (hexLiteral (e.valueAt (rNumGet a) w) :: e.stack)) := by
  have hpeek := peek_spec env henv (e.withStack (a :: e.stack)) hregs w rfl ha.number hneg
    (by rw [Esil.withStack_stacksize]; omega)
  have hpush := runCommand_operand (rAnalEsilSetupOps env) e ha (by omega)
  have hword := runCommand_setupOps env henv (e.withStack (a :: e.stack)) (peekWord_mem env w)
  simp only [Esil.valueAt_withStack, Esil.loaded_withStack] at hpeek
  simp only [runWords, List.foldlM_cons, List.foldlM_nil, hpush, hword, hpeek, ranOk, one_ne_zero,
    w.bytes_ne_zero, if_false, Option.bind_eq_bind, Option.bind_some]
  rfl

theorem stored_valueAt (e : Esil R) (w : MemWidth) (a v old : Ut64) :
    (e.stored w a v old).valueAt a w = BitVec.ofNat 64 (v.toNat % 2 ^ w.bits) := by
  have h8 : w.bytes ≤ 8 := by cases w <;> decide
  have hmem := memValue_memWrite e.bigEndian e.mem a w.bytes (v.toNat % 2 ^ w.bits) h8
  rw [← w.two_pow_bits, Nat.mod_mod] at hmem
  exact congrArg (BitVec.ofNat 64) hmem

/-- Of the purpose only the old value is open. -/
theorem storeLoadMeets_iff_old (henv : env.NoHooks) (hregs : NumbersAreNoRegs env e.reg)
    (hnw : e.nowrite = false) (hv : Operand (rAnalEsilSetupOps env) v)
    (ha : Operand (rAnalEsilSetupOps env) a) (hneg : a.head? ≠ some '-')
    (hroom : (e.stack.length : Int) + 2 ≤ e.stacksize) :
    StoreLoadMeets (rAnalEsilSetupOps env) e w v a ↔
      (rReadBle64 (oldBuffer env e w (rNumGet a)) e.bigEndian).toNat % 2 ^ w.bits =
        memValue e.bigEndian e.mem (rNumGet a) w.bytes := by
  have hstore := store_runs (w := w) henv hnw hv ha hroom
  generalize rReadBle64 (oldBuffer env e w (rNumGet a)) e.bigEndian = old at hstore ⊢
  constructor
  · intro h
    obtain ⟨e₁, e₂, hrun, -, hmeets⟩ := h
    rw [hstore, Option.some.injEq] at hrun
    rw [← hmeets.old, ← hrun]
    rfl
  · intro h
    have hload := load_runs (e := e.stored w (rNumGet a) (rNumGet v) old) (w := w) henv hregs ha hneg hroom
    rw [stored_valueAt] at hload
    exact ⟨_, _, hstore, hload, rfl,
      fun x hx => stored_frame e w (rNumGet a) (rNumGet v) old x hx, h⟩

end

/-- The words meet their purpose, the old value for the flags included, exactly in little-endian order,
for eight bytes, or where the local buffer happens to hold the bytes of the memory. -/
theorem store_load_iff (henv : env.NoHooks) (e : Esil R) (w : MemWidth) (v a : CStr)
    (hregs : NumbersAreNoRegs env e.reg) (hnw : e.nowrite = false)
    (hv : Operand (rAnalEsilSetupOps env) v) (ha : Operand (rAnalEsilSetupOps env) a)
    (hneg : a.head? ≠ some '-') (hroom : (e.stack.length : Int) + 2 ≤ e.stacksize) :
    StoreLoadMeets (rAnalEsilSetupOps env) e w v a ↔
      e.bigEndian = false ∨ w = .w8 ∨
        (pokeBuffer env).drop (8 - w.bytes) = memRead e.mem (rNumGet a) w.bytes := by
  rw [storeLoadMeets_iff_old henv hregs hnw hv ha hneg hroom]
  exact oldBuffer_low env e w (rNumGet a)

end

/-- The local buffer holds ones before it is used. -/
def onesEnv : EsilEnv Unit := { bareEnv with uninit := List.replicate 8 0xff }

theorem onesEnv_noHooks : onesEnv.NoHooks := ⟨rfl, rfl, rfl, rfl, rfl, rfl⟩

theorem operand_onesEnv : Operand (rAnalEsilSetupOps onesEnv) ['7'] ∧ Operand (rAnalEsilSetupOps onesEnv) ['1', '6'] := by
  have hplain : ∀ str ∈ [['7'], ['1', '6']], iscommand (rAnalEsilSetupOps onesEnv) str = none := by decide
  exact ⟨⟨rfl, hplain _ (by decide)⟩, ⟨rfl, hplain _ (by decide)⟩⟩

theorem store_load_little :
    StoreLoadMeets (rAnalEsilSetupOps onesEnv) (bareEsil 4096) .w4 ['7'] ['1', '6'] :=
  (store_load_iff onesEnv onesEnv_noHooks (bareEsil 4096) .w4 ['7'] ['1', '6'] (fun _ _ => rfl) rfl
    operand_onesEnv.1 operand_onesEnv.2 (by decide) (by decide)).mpr (Or.inl rfl)

/-- In big-endian order the low bits of the old value are what the stack held before. -/
theorem store_load_big : ¬StoreLoadMeets (rAnalEsilSetupOps onesEnv) (stackEsil []) .w4 ['7'] ['1', '6'] := by
  rw [storeLoadMeets_iff_old onesEnv_noHooks (fun _ _ => rfl) rfl operand_onesEnv.1 operand_onesEnv.2 (by decide)
    (by decide)]
  decide

end Radare
