import Radare.Esil.MemOpsProof

namespace Radare

section
variable {R : Type} (env : EsilEnv R)

/-- The entry `$name…` on the stack reads as the given truth value. -/
def FlagIs (e : Esil R) (name : Char) (text : CStr) (b : Bool) : Prop :=
  rAnalEsilGetParm env e ('$' :: name :: text) = (some (boolNum b), e)

/-- The number of ones among the low eight bits. -/
def lowOnes (n : Nat) : Nat := (List.range 8).countP n.testBit

/-- The flags that describe a result of `n` bits: zero, top bit, parity of the low byte. -/
structure FlagsDescribe (e : Esil R) (n r : Nat) : Prop where
  zero : FlagIs env e 'z' [] (r == 0)
  sign : FlagIs env e 's' [] (r.testBit (n - 1))
  parity : FlagIs env e 'p' [] (lowOnes r % 2 == 0)

/-- A source operand: a number, or a register holding `s`. -/
def SourceValue (e : Esil R) (src : CStr) (s : Ut64) : Prop :=
  (isParmNumber src = true ∧ rNumGet src = s) ∨
    (rAnalEsilGetParmType env e src = .reg ∧
      ∃ item, env.regGet e.reg src = some item ∧ env.regGetValue e.reg item = s)

/-- A register operand of width `w`, holding `d`. -/
structure RegOperand (e : Esil R) (dst : CStr) (w : MemWidth) (d : Ut64) (item : RRegItem) :
    Prop where
  type : rAnalEsilGetParmType env e dst = .reg
  found : env.regGet e.reg dst = some item
  size : item.size = w.bits
  value : env.regGetValue e.reg item = d
  bound : d.toNat < 2 ^ w.bits

end

/-- A sum of the low bits falls below an operand exactly when it carries out. -/
theorem carry_of_sum_lt (d s : Ut64) (k : Nat) (hk : k < 64) :
    decide ((d + s).toNat % 2 ^ (k + 1) < d.toNat % 2 ^ (k + 1)) =
      BitVec.carry (k + 1) d s false := by
  have hdvd : 2 ^ (k + 1) ∣ 2 ^ 64 := Nat.pow_dvd_pow 2 (by omega)
  have hp : 0 < 2 ^ (k + 1) := by positivity
  rw [BitVec.toNat_add, Nat.mod_mod_of_dvd _ hdvd, Nat.add_mod, BitVec.carry]
  have hd := Nat.mod_lt d.toNat hp
  have hs := Nat.mod_lt s.toNat hp
  generalize d.toNat % 2 ^ (k + 1) = x at *
  generalize s.toNat % 2 ^ (k + 1) = y at *
  generalize 2 ^ (k + 1) = m at *
  simp only [Bool.toNat_false, Nat.add_zero, decide_eq_decide]
  by_cases hc : x + y < m
  · rw [Nat.mod_eq_of_lt hc]
    omega
  · rw [Nat.mod_eq_sub_mod (by omega), Nat.mod_eq_of_lt (by omega)]
    omega

/-- A difference of the low bits exceeds its first operand exactly when it borrows. -/
theorem borrow_of_lt_difference (d s : Ut64) (k : Nat) (hk : k ≤ 64) :
    d.toNat % 2 ^ k < (d - s).toNat % 2 ^ k ↔ d.toNat % 2 ^ k < s.toNat % 2 ^ k := by
  have hdvd : 2 ^ k ∣ 2 ^ 64 := Nat.pow_dvd_pow 2 hk
  have hp : 0 < 2 ^ k := by positivity
  have hsum : (s.toNat % 2 ^ k + (d - s).toNat % 2 ^ k) % 2 ^ k = d.toNat % 2 ^ k := by
    rw [← Nat.add_mod, ← Nat.mod_mod_of_dvd _ hdvd, ← BitVec.toNat_add, BitVec.add_comm,
      BitVec.sub_add_cancel]
  have hs := Nat.mod_lt s.toNat hp
  have hx := Nat.mod_lt (d - s).toNat hp
  rw [← hsum]
  generalize s.toNat % 2 ^ k = y at *
  generalize (d - s).toNat % 2 ^ k = x at *
  generalize 2 ^ k = m at *
  by_cases hc : y + x < m
  · rw [Nat.mod_eq_of_lt hc]
    omega
  · rw [Nat.mod_eq_sub_mod (by omega), Nat.mod_eq_of_lt (by omega)]
    omega

theorem parity_byte : ∀ b : Fin 256,
    ((((BitVec.ofNat 64 b.val * 0x0101010101010101#64) &&& 0x8040201008040201#64) %
      0x1FF#64) &&& 1#64 = 0#64) ↔ lowOnes b.val % 2 = 0 := by
  decide +kernel

theorem lowOnes_mod (n : Nat) : lowOnes (n % 256) = lowOnes n := by
  unfold lowOnes
  apply List.countP_congr
  intro i hi
  have h8 : i < 8 := List.mem_range.mp hi
  rw [show 256 = 2 ^ 8 from rfl, Nat.testBit_mod_two_pow]
  simp [h8]

section
variable {R : Type} (env : EsilEnv R)

theorem flagIs_of_internalRead (e : Esil R) (name : Char) (text : CStr) (b : Bool)
    (h : esilInternalRead env e ('$' :: name :: text) = (some (boolNum b), e)) :
    FlagIs env e name text b := by
  simp [FlagIs, rAnalEsilGetParm, rAnalEsilGetParmSize, rAnalEsilGetParmType, h]

theorem bitIndex (text : CStr) (k : Nat) (hk : k ≤ 64) (ht : rNumGet text = BitVec.ofNat 64 k) :
    ((rNumGet text).setWidth 8).toNat = k := by
  rw [ht, BitVec.toNat_setWidth, BitVec.toNat_ofNat]
  omega

/-- `$c` reads the carry out of a bit, whatever spelling names the bit. -/
theorem carry_flag (hh : env.hookFlagRead = none) (e : Esil R) (d s : Ut64) (hold : e.old = d)
    (hcur : e.cur = d + s) (k : Nat) (hk : k < 64) (text : CStr)
    (ht : rNumGet text = BitVec.ofNat 64 k) :
    FlagIs env e 'c' text (BitVec.carry (k + 1) d s false) := by
  apply flagIs_of_internalRead
  have hb := bitIndex text k (by omega) ht
  have hc : esilInternalCarryCheck e ((rNumGet text).setWidth 8) =
      BitVec.carry (k + 1) d s false := by
    rw [← carry_of_sum_lt d s k hk, esilInternalCarryCheck, hb, hold, hcur]
    simp only [BitVec.lt_def, and_genmask_toNat _ k hk]
  simp [esilInternalRead, hh, hc]

theorem borrow_index (b : Ut8) (k : Nat) (h1 : 1 ≤ k) (hk : k ≤ 64) (hb : b.toNat = k) :
    (((b &&& 0x3f) + 0x3f) &&& 0x3f : Ut8).toNat = k - 1 := by
  have hmask (n : Nat) : n &&& 63 = n % 64 := Nat.and_two_pow_sub_one_eq_mod n 6
  rw [BitVec.toNat_and, BitVec.toNat_add, BitVec.toNat_and, hb]
  show ((k &&& 63) + 63) % 256 &&& 63 = k - 1
  rw [hmask, hmask]
  omega

/-- `$b` reads the borrow of a subtraction of the low bits. -/
theorem borrow_flag (hh : env.hookFlagRead = none) (e : Esil R) (d s : Ut64) (hold : e.old = d)
    (hcur : e.cur = d - s) (k : Nat) (h1 : 1 ≤ k) (hk : k ≤ 64) (text : CStr)
    (ht : rNumGet text = BitVec.ofNat 64 k) :
    FlagIs env e 'b' text (decide (d.toNat % 2 ^ k < s.toNat % 2 ^ k)) := by
  apply flagIs_of_internalRead
  have hb := borrow_index _ k h1 hk (bitIndex text k hk ht)
  have hs : k - 1 + 1 = k := by omega
  have hc : esilInternalBorrowCheck e ((rNumGet text).setWidth 8) =
      decide (d.toNat % 2 ^ k < s.toNat % 2 ^ k) := by
    simp only [esilInternalBorrowCheck, hb, hold, hcur, BitVec.lt_def,
      and_genmask_toNat _ (k - 1) (show k - 1 < 64 by omega), hs,
      borrow_of_lt_difference d s k hk]
  simp [esilInternalRead, hh, hc]

theorem signCheck_eq (e : Esil R) (w : MemWidth) (hsz : e.lastsz = BitVec.ofNat 8 w.bits) :
    esilInternalSignCheck e = (e.cur.toNat % 2 ^ w.bits).testBit (w.bits - 1) := by
  have hn : (BitVec.ofNat 8 w.bits).toNat = w.bits := by cases w <;> rfl
  have h0 : BitVec.ofNat 8 w.bits ≠ 0 := by cases w <;> decide
  have hm : (w.bits - 1) % 64 = w.bits - 1 := by cases w <;> rfl
  have hlt : w.bits - 1 < w.bits := by cases w <;> decide
  have hb : (e.cur >>> (w.bits - 1) &&& 1).toNat = (e.cur.toNat.testBit (w.bits - 1)).toNat := by
    rw [BitVec.toNat_and, BitVec.toNat_ushiftRight, Nat.toNat_testBit, Nat.shiftRight_eq_div_pow]
    exact Nat.and_one_is_mod _
  rw [esilInternalSignCheck, hsz, if_neg h0, hn, hm, Nat.testBit_mod_two_pow]
  simp only [ne_eq, ← BitVec.toNat_inj, hb, hlt, decide_true, Bool.true_and]
  cases e.cur.toNat.testBit (w.bits - 1) <;> rfl

/-- The multiplication trick counts the ones of the low byte, which every width has. -/
theorem parityCheck_eq (e : Esil R) (w : MemWidth) :
    esilInternalParityCheck e = (lowOnes (e.cur.toNat % 2 ^ w.bits) % 2 == 0) := by
  have hdvd : 256 ∣ 2 ^ w.bits := by cases w <;> decide
  have hlsb : e.cur &&& 0xff = BitVec.ofNat 64 (e.cur.toNat % 256) := by
    apply BitVec.eq_of_toNat_eq
    rw [BitVec.toNat_and, BitVec.toNat_ofNat]
    change e.cur.toNat &&& (2 ^ 8 - 1) = _
    rw [Nat.and_two_pow_sub_one_eq_mod]
    omega
  have hp := parity_byte ⟨e.cur.toNat % 256, Nat.mod_lt _ (by decide)⟩
  rw [← lowOnes_mod, Nat.mod_mod_of_dvd _ hdvd]
  simp only [esilInternalParityCheck, hlsb]
  exact decide_eq_decide.mpr hp

/-- The flags of the last result look at as many of its bits as `lastsz` says. -/
theorem flagsDescribe_of_cur (hh : env.hookFlagRead = none) (e : Esil R) (w : MemWidth)
    (hsz : e.lastsz = BitVec.ofNat 8 w.bits) :
    FlagsDescribe env e w.bits (e.cur.toNat % 2 ^ w.bits) := by
  have hn : (BitVec.ofNat 8 w.bits).toNat = w.bits := by cases w <;> rfl
  have hk : ((w.bits : Int) - 1) = ((w.bits - 1 : Nat) : Int) := by cases w <;> rfl
  have hs : w.bits - 1 + 1 = w.bits := by cases w <;> rfl
  have h64 : w.bits - 1 < 64 := by cases w <;> decide
  refine ⟨?_, ?_, ?_⟩
  · apply flagIs_of_internalRead
    have hz : e.cur &&& genmask ((e.lastsz.toNat : Int) - 1) = 0#64 ↔
        e.cur.toNat % 2 ^ w.bits = 0 := by
      rw [hsz, hn, hk, ← BitVec.toNat_inj, and_genmask_toNat _ _ h64, hs]
      rfl
    simp only [esilInternalRead, hh, List.getElem?_cons_succ, List.getElem?_cons_zero]
    simp [hz, Bool.beq_eq_decide_eq]
  · apply flagIs_of_internalRead
    simp [esilInternalRead, hh, signCheck_eq e w hsz]
  · apply flagIs_of_internalRead
    simp [esilInternalRead, hh, parityCheck_eq e w]

theorem isInternalName_reg (e : Esil R) {dst : CStr}
    (h : rAnalEsilGetParmType env e dst = .reg) : isInternalName dst = false := by
  unfold isInternalName
  split
  · simp [rAnalEsilGetParmType] at h
  · rfl

variable {env} in
theorem RegOperand.regRead {e : Esil R} {dst : CStr} {w : MemWidth} {d : Ut64} {item : RRegItem}
    (h : RegOperand env e dst w d item) (hh : env.hookRegRead = none) (stack : List CStr) :
    rAnalEsilRegRead env (e.withStack stack) dst =
      (some (d, (item.size : Int)), e.withStack stack) := by
  simp [rAnalEsilRegRead, isInternalName_reg env e h.type, hh, h.found, h.value]

variable {env} in
theorem RegOperand.sizeof {e : Esil R} {dst : CStr} {w : MemWidth} {d : Ut64} {item : RRegItem}
    (h : RegOperand env e dst w d item) (stack : List CStr) :
    esilInternalSizeofReg env (e.withStack stack) dst = BitVec.ofNat 8 w.bits := by
  simp [esilInternalSizeofReg, h.found, h.size]

variable {env} in
theorem SourceValue.parm {e : Esil R} {src : CStr} {s : Ut64} (h : SourceValue env e src s)
    (hh : env.hookRegRead = none) (stack : List CStr) :
    parmOf env (e.withStack stack) (some src) = (some s, e.withStack stack) := by
  rcases h with ⟨hn, rfl⟩ | ⟨ht, item, hi, rfl⟩
  · exact parmOf_number env _ hn
  · have ht' : rAnalEsilGetParmType env (e.withStack stack) src = .reg := ht
    simp [parmOf, rAnalEsilGetParm, rAnalEsilGetParmSize, ht', rAnalEsilRegRead,
      isInternalName_reg env e ht, hh, hi]

variable {env} in
theorem SourceValue.type_ne {e : Esil R} {src : CStr} {s : Ut64} (h : SourceValue env e src s)
    (stack : List CStr) : rAnalEsilGetParmType env (e.withStack stack) src ≠ .internal := by
  rcases h with ⟨hn, -⟩ | ⟨ht, -⟩
  · rw [getParmType_number env _ hn]
    decide
  · change rAnalEsilGetParmType env e src ≠ .internal
    rw [ht]
    decide

/-- What the flags are computed from. -/
def FlagInputs (e : Esil R) (old cur : Ut64) (lastsz : Ut8) : Prop :=
  e.old = old ∧ e.cur = cur ∧ e.lastsz = lastsz

/-- A register is written without touching the flags. -/
theorem regWrite_flagInputs (hh : env.hookRegWrite = none) (e : Esil R) (dst : CStr) (num : Ut64)
    (hi : isInternalName dst = false) :
    FlagInputs (rAnalEsilRegWrite env e dst num).2 e.old e.cur e.lastsz := by
  simp only [rAnalEsilRegWrite, hh, hi, Bool.false_eq_true, and_false, if_false, ne_eq, not_true]
  split <;> exact ⟨rfl, rfl, rfl⟩

/-- `+=` and `-=` keep the old register, the full 64-bit result and the register's width. -/
theorem regEq_flagInputs (henv : env.NoHooks) (f : Ut64 → Ut64 → Ut64) (e : Esil R)
    {dst src : CStr} {rest : List CStr} (hstack : e.stack = dst :: src :: rest) {w : MemWidth}
    {d s : Ut64} {item : RRegItem} (hdst : RegOperand env e dst w d item)
    (hsrc : SourceValue env e src s) :
    FlagInputs (esilRegEq env f e).2 d (f d s) (BitVec.ofNat 8 w.bits) := by
  have hset : setFlagsUnlessInternal env (e.withStack rest) src dst d (f d s) =
      setFlags (e.withStack rest) d (f d s) (BitVec.ofNat 8 w.bits) := by
    rw [setFlagsUnlessInternal, if_neg (hsrc.type_ne rest), hdst.sizeof]
  simp only [esilRegEq, popTwo_cons e hstack, hsrc.parm henv.regRead, regOf,
    hdst.regRead henv.regRead, Option.map_some, Option.getD_some, hset]
  exact regWrite_flagInputs env henv.regWrite _ dst _ (isInternalName_reg env e hdst.type)

theorem cmp_flagInputs (henv : env.NoHooks) (e : Esil R) {dst src : CStr} {rest : List CStr}
    (hstack : e.stack = dst :: src :: rest) {w : MemWidth} {d s : Ut64} {item : RRegItem}
    (hdst : RegOperand env e dst w d item) (hsrc : SourceValue env e src s) :
    FlagInputs (esilCmp env e).2 d (d - s) (BitVec.ofNat 8 w.bits) := by
  have hd : parmOf env (e.withStack rest) (some dst) = (some d, e.withStack rest) :=
    SourceValue.parm (Or.inr ⟨hdst.type, item, hdst.found, hdst.value⟩) henv.regRead rest
  have hpush (e' : Esil R) (b : Ut64) :
      FlagInputs (pushResult e' b).2 e'.old e'.cur e'.lastsz := by
    simp only [pushResult, rAnalEsilPushnum, rAnalEsilPush]
    split <;> exact ⟨rfl, rfl, rfl⟩
  simp only [esilCmp, popTwo_cons e hstack, hd, hsrc.parm henv.regRead, Option.getD_some,
    Esil.withStack_reg, hdst.found, Option.isSome_some, if_true, hdst.sizeof]
  exact hpush _ _

theorem addeq_mem : (['+', '='], esilAddeq env) ∈ setupOps env := by
  unfold setupOps
  simp only [List.append_assoc]
  exact List.mem_append_left _ (by simp)

theorem subeq_mem : (['-', '='], esilSubeq env) ∈ setupOps env := by
  unfold setupOps
  simp only [List.append_assoc]
  exact List.mem_append_left _ (by simp)

theorem cmp_mem : (['=', '='], esilCmp env) ∈ setupOps env := by
  unfold setupOps
  simp only [List.append_assoc]
  exact List.mem_append_left _ (by simp)

/-- The flags after an addition to a register of width `w`. -/
structure AddFlags (e : Esil R) (w : MemWidth) (d s : Ut64) : Prop where
  carry : ∀ k < w.bits, ∀ text, rNumGet text = BitVec.ofNat 64 k →
    FlagIs env e 'c' text (BitVec.carry (k + 1) d s false)
  result : FlagsDescribe env e w.bits ((d.toNat + s.toNat) % 2 ^ w.bits)

/-- The flags after a subtraction from, or a comparison with, a register of width `w`. -/
structure SubFlags (e : Esil R) (w : MemWidth) (d s : Ut64) : Prop where
  borrow : ∀ k, 1 ≤ k → k ≤ 64 → ∀ text, rNumGet text = BitVec.ofNat 64 k →
    FlagIs env e 'b' text (decide (d.toNat % 2 ^ k < s.toNat % 2 ^ k))
  result : FlagsDescribe env e w.bits (((d.toNat : Int) - s.toNat) % (2 ^ w.bits : Nat)).toNat

theorem subFlags_of_inputs (henv : env.NoHooks) (e : Esil R) (w : MemWidth) (d s : Ut64)
    (h : FlagInputs e d (d - s) (BitVec.ofNat 8 w.bits)) : SubFlags env e w d s := by
  obtain ⟨hold, hcur, hsz⟩ := h
  have hres : (((d.toNat : Int) - s.toNat) % (2 ^ w.bits : Nat)).toNat =
      e.cur.toNat % 2 ^ w.bits := by
    have hd := d.isLt
    have hs := s.isLt
    rw [hcur, BitVec.toNat_sub]
    cases w <;> simp only [MemWidth.bits, MemWidth.bytes] <;> omega
  refine ⟨fun k h1 hk text ht => borrow_flag env henv.flagRead e d s hold hcur k h1 hk text ht, ?_⟩
  rw [hres]
  exact flagsDescribe_of_cur env henv.flagRead e w hsz

/-- The lazily computed flags are those of the operation on the register. -/
theorem arith_flags_correct (henv : env.NoHooks) (e : Esil R) (dst src : CStr)
    (rest : List CStr) (hstack : e.stack = dst :: src :: rest) (w : MemWidth) (d s : Ut64)
    (item : RRegItem) (hdst : RegOperand env e dst w d item) (hsrc : SourceValue env e src s) :
    AddFlags env (runCommand (rAnalEsilSetupOps env) e ['+', '=']).2 w d s ∧
    SubFlags env (runCommand (rAnalEsilSetupOps env) e ['-', '=']).2 w d s ∧
    SubFlags env (runCommand (rAnalEsilSetupOps env) e ['=', '=']).2 w d s := by
  have h64 : w.bits ≤ 64 := by cases w <;> decide
  have hdvd : 2 ^ w.bits ∣ 2 ^ 64 := Nat.pow_dvd_pow 2 h64
  refine ⟨?_, ?_, ?_⟩
  · rw [runCommand_setupOps env henv e (addeq_mem env)]
    obtain ⟨hold, hcur, hsz⟩ := regEq_flagInputs env henv (fun d s => d + s) e hstack hdst hsrc
    refine ⟨fun k hk text ht => carry_flag env henv.flagRead _ d s hold hcur k (by omega) text ht, ?_⟩
    have hres := flagsDescribe_of_cur env henv.flagRead _ w hsz
    rwa [hcur, BitVec.toNat_add, Nat.mod_mod_of_dvd _ hdvd] at hres
  · rw [runCommand_setupOps env henv e (subeq_mem env)]
    exact subFlags_of_inputs env henv _ w d s
      (regEq_flagInputs env henv (fun d s => d - s) e hstack hdst hsrc)
  · rw [runCommand_setupOps env henv e (cmp_mem env)]
    exact subFlags_of_inputs env henv _ w d s (cmp_flagInputs env henv e hstack hdst hsrc)

end

/-- An emulator with one register `al` of eight bits. -/
def alEnv : EsilEnv Ut64 where
  regGet _ name := if name = ['a', 'l'] then some ⟨['a', 'l'], 8⟩ else none
  regGetValue r _ := r
  regSetValue _ _ v := v &&& 0xff
  ops _ := none
  hookCommand := none
  hookFlagRead := none
  hookRegRead := none
  hookRegWrite := none
  hookMemRead := none
  hookMemWrite := none
  uninit := []

def alEsil : Esil Ut64 :=
  { anal := some ⟨64, false, 4096⟩, stack := [['a', 'l'], ['0', 'x', 'f', 'f', '0', '1']],
    stacksize := 32, skip := false, nowrite := false, iotrap := false, repeatFlag := false,
    parseStop := 0, parseGoto := 0, parseGotoCount := 4096, address := 0, delay := 0,
    jumpTarget := 0, jumpTargetSet := 0, trap := 0, trapCode := 0, old := 0, cur := 0, lastsz := 0,
    reil := none, mem := fun _ => 0, reg := 0xff }

theorem arith_flags_al :
    AddFlags alEnv (runCommand (rAnalEsilSetupOps alEnv) alEsil ['+', '=']).2 .w1 0xff 0xff01 ∧
    SubFlags alEnv (runCommand (rAnalEsilSetupOps alEnv) alEsil ['-', '=']).2 .w1 0xff 0xff01 ∧
    SubFlags alEnv (runCommand (rAnalEsilSetupOps alEnv) alEsil ['=', '=']).2 .w1 0xff 0xff01 :=
  arith_flags_correct alEnv ⟨rfl, rfl, rfl, rfl, rfl, rfl⟩ alEsil ['a', 'l']
    ['0', 'x', 'f', 'f', '0', '1'] [] rfl .w1 0xff 0xff01 ⟨['a', 'l'], 8⟩
    ⟨by decide, rfl, rfl, rfl, by decide⟩ (Or.inl ⟨by decide, by decide⟩)

end Radare
