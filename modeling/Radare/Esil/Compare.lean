import Radare.Esil.Flags

namespace Radare

/-- What the overflow check of a width `n` makes of the old value and the result. -/
def carriesDiffer (old cur : Ut64) (n : Nat) : Bool :=
  decide (cur.toNat % 2 ^ n < old.toNat % 2 ^ n) ^^
    decide (cur.toNat % 2 ^ (n - 1) < old.toNat % 2 ^ (n - 1))

theorem carriesDiffer_iff (old cur : Ut64) (n : Nat) :
    carriesDiffer old cur n = true ↔ ¬(cur.toNat % 2 ^ n < old.toNat % 2 ^ n ↔
      cur.toNat % 2 ^ (n - 1) < old.toNat % 2 ^ (n - 1)) := by
  simp [carriesDiffer]

/-- The low bits of a value as a signed number, by cases on its top bit. -/
theorem toInt_setWidth_cases (x : Ut64) (w : MemWidth) (hx : x.toNat < 2 ^ w.bits) :
    (x.toNat < 2 ^ (w.bits - 1) ∧ (x.setWidth w.bits).toInt = x.toNat) ∨
      (2 ^ (w.bits - 1) ≤ x.toNat ∧
        (x.setWidth w.bits).toInt = x.toNat - 2 * (2 ^ (w.bits - 1) : Nat)) := by
  have hpow : 2 ^ w.bits = 2 * 2 ^ (w.bits - 1) := by cases w <;> decide
  rw [BitVec.toInt_eq_toNat_cond, BitVec.toNat_setWidth, Nat.mod_eq_of_lt hx]
  split <;> omega

theorem saddOverflow_iff (d s : Ut64) (n : Nat) :
    (d.setWidth n).saddOverflow (s.setWidth n) = true ↔
      ((2 ^ (n - 1) : Nat) : Int) ≤ (d.setWidth n).toInt + (s.setWidth n).toInt ∨
        (d.setWidth n).toInt + (s.setWidth n).toInt < -((2 ^ (n - 1) : Nat) : Int) := by
  simp [BitVec.saddOverflow]

theorem ssubOverflow_iff (d s : Ut64) (n : Nat) :
    (d.setWidth n).ssubOverflow (s.setWidth n) = true ↔
      ((2 ^ (n - 1) : Nat) : Int) ≤ (d.setWidth n).toInt - (s.setWidth n).toInt ∨
        (d.setWidth n).toInt - (s.setWidth n).toInt < -((2 ^ (n - 1) : Nat) : Int) := by
  simp [BitVec.ssubOverflow]

theorem carriesDiffer_add (d s : Ut64) (w : MemWidth) (hd : d.toNat < 2 ^ w.bits)
    (hs : s.toNat < 2 ^ w.bits) :
    carriesDiffer d (d + s) w.bits = (d.setWidth w.bits).saddOverflow (s.setWidth w.bits) := by
  have hcarry : ∀ k, k ≤ 64 → (d + s).toNat % 2 ^ k = (d.toNat + s.toNat) % 2 ^ k := by
    intro k hk
    rw [BitVec.toNat_add, Nat.mod_mod_of_dvd _ (Nat.pow_dvd_pow 2 hk)]
  have h64 : w.bits ≤ 64 := by cases w <;> decide
  rw [Bool.eq_iff_iff, carriesDiffer_iff, saddOverflow_iff, hcarry _ h64, hcarry _ (by omega)]
  have hx := toInt_setWidth_cases d w hd
  have hy := toInt_setWidth_cases s w hs
  generalize (d.setWidth w.bits).toInt = x at *
  generalize (s.setWidth w.bits).toInt = y at *
  cases w <;> simp only [MemWidth.bits, MemWidth.bytes] at * <;> omega

/-- For a difference the check is wrong for one source only: the least signed number, whose low
bits are zero. -/
theorem carriesDiffer_sub (d s : Ut64) (w : MemWidth) (hd : d.toNat < 2 ^ w.bits)
    (hs : s.toNat < 2 ^ w.bits) :
    carriesDiffer d (d - s) w.bits = (d.setWidth w.bits).ssubOverflow (s.setWidth w.bits) ↔
      s.toNat ≠ 2 ^ (w.bits - 1) := by
  have hborrow : ∀ k, k ≤ 64 → (d - s).toNat % 2 ^ k = (2 ^ 64 - s.toNat + d.toNat) % 2 ^ k := by
    intro k hk
    rw [BitVec.toNat_sub, Nat.mod_mod_of_dvd _ (Nat.pow_dvd_pow 2 hk)]
  have h64 : w.bits ≤ 64 := by cases w <;> decide
  rw [Bool.eq_iff_iff, carriesDiffer_iff, ssubOverflow_iff, hborrow _ h64, hborrow _ (by omega)]
  have hx := toInt_setWidth_cases d w hd
  have hy := toInt_setWidth_cases s w hs
  generalize (d.setWidth w.bits).toInt = x at *
  generalize (s.setWidth w.bits).toInt = y at *
  cases w <;> simp only [MemWidth.bits, MemWidth.bytes] at * <;> omega

section
variable {R : Type} (env : EsilEnv R)

theorem boolNum_inj {a b : Bool} (h : boolNum a = boolNum b) : a = b := by
  cases a <;> cases b <;> simp_all [boolNum]

theorem FlagIs.unique {e : Esil R} {name : Char} {text : CStr} {b b' : Bool}
    (h : FlagIs env e name text b) : FlagIs env e name text b' ↔ b = b' := by
  constructor
  · intro h'
    have heq := h.symm.trans h'
    simp only [Prod.mk.injEq, Option.some.injEq, and_true] at heq
    exact boolNum_inj heq
  · intro hb
    rwa [← hb]

theorem carryCheck_eq (e : Esil R) (bit : Ut8) (hb : bit.toNat < 64) :
    esilInternalCarryCheck e bit =
      decide (e.cur.toNat % 2 ^ (bit.toNat + 1) < e.old.toNat % 2 ^ (bit.toNat + 1)) := by
  simp only [esilInternalCarryCheck, BitVec.lt_def, and_genmask_toNat _ _ hb]

/-- `$o` compares the carries out of the two top bits of the width. -/
theorem overflow_flag (hh : env.hookFlagRead = none) (e : Esil R) (w : MemWidth) (old cur : Ut64)
    (h : FlagInputs e old cur (BitVec.ofNat 8 w.bits)) :
    FlagIs env e 'o' [] (carriesDiffer old cur w.bits) := by
  obtain ⟨hold, hcur, hsz⟩ := h
  apply flagIs_of_internalRead
  have htwo : ¬(BitVec.ofNat 8 w.bits).toNat < 2 := by cases w <;> decide
  have hout : (BitVec.ofNat 8 w.bits - 1).toNat = w.bits - 1 := by cases w <;> decide
  have hin : (BitVec.ofNat 8 w.bits - 2).toNat = w.bits - 2 := by cases w <;> decide
  have h64 : w.bits ≤ 64 ∧ w.bits - 1 + 1 = w.bits ∧ w.bits - 2 + 1 = w.bits - 1 := by
    cases w <;> decide
  have ho : esilInternalOverflowCheck e = carriesDiffer old cur w.bits := by
    rw [esilInternalOverflowCheck, hsz, if_neg htwo, carryCheck_eq e _ (by omega),
      carryCheck_eq e _ (by omega), hout, hin, h64.2.1, h64.2.2, hold, hcur, carriesDiffer]
  simp [esilInternalRead, hh, ho]

/-- After `+=`, `-=` and `==` the overflow flag is that of the signed operation. -/
structure OverflowFlags (e : Esil R) (w : MemWidth) (d s : Ut64) : Prop where
  add : FlagIs env (runCommand (rAnalEsilSetupOps env) e ['+', '=']).2 'o' []
    ((d.setWidth w.bits).saddOverflow (s.setWidth w.bits))
  sub : FlagIs env (runCommand (rAnalEsilSetupOps env) e ['-', '=']).2 'o' []
    ((d.setWidth w.bits).ssubOverflow (s.setWidth w.bits))
  cmp : FlagIs env (runCommand (rAnalEsilSetupOps env) e ['=', '=']).2 'o' []
    ((d.setWidth w.bits).ssubOverflow (s.setWidth w.bits))

/-- The flag is right for every addition, and for a difference unless the source is the least
signed number of the register's width. -/
theorem overflow_flags_iff (henv : env.NoHooks) (e : Esil R) (dst src : CStr) (rest : List CStr)
    (hstack : e.stack = dst :: src :: rest) (w : MemWidth) (d s : Ut64) (item : RRegItem)
    (hdst : RegOperand env e dst w d item) (hsrc : SourceValue env e src s)
    (hs : s.toNat < 2 ^ w.bits) :
    OverflowFlags env e w d s ↔ s.toNat ≠ 2 ^ (w.bits - 1) := by
  have hadd := overflow_flag env henv.flagRead _ w _ _
    (regEq_flagInputs env henv (fun d s => d + s) e hstack hdst hsrc)
  have hsub := overflow_flag env henv.flagRead _ w _ _
    (regEq_flagInputs env henv (fun d s => d - s) e hstack hdst hsrc)
  have hcmp := overflow_flag env henv.flagRead _ w _ _ (cmp_flagInputs env henv e hstack hdst hsrc)
  have hdiff := carriesDiffer_sub d s w hdst.bound hs
  constructor
  · intro h
    have hflag := h.sub
    rw [runCommand_setupOps env henv e (subeq_mem env)] at hflag
    exact hdiff.mp ((FlagIs.unique env hsub).mp hflag)
  · intro h
    apply OverflowFlags.mk
    · rw [runCommand_setupOps env henv e (addeq_mem env)]
      exact (FlagIs.unique env hadd).mpr (carriesDiffer_add d s w hdst.bound hs)
    · rw [runCommand_setupOps env henv e (subeq_mem env)]
      exact (FlagIs.unique env hsub).mpr (hdiff.mpr h)
    · rw [runCommand_setupOps env henv e (cmp_mem env)]
      exact (FlagIs.unique env hcmp).mpr (hdiff.mpr h)

end

/-- The emulator with `al = 0x80` and one operand on the stack. -/
def alOperand (src : CStr) : Esil Ut64 :=
  { alEsil with stack := [['a', 'l'], src], reg := 0x80 }

theorem overflow_flags_iff_al :
    OverflowFlags alEnv (alOperand ['0', 'x', '7', 'f']) .w1 0x80 0x7f ↔
      (0x7f : Ut64).toNat ≠ 2 ^ (MemWidth.w1.bits - 1) :=
  overflow_flags_iff alEnv ⟨rfl, rfl, rfl, rfl, rfl, rfl⟩ (alOperand ['0', 'x', '7', 'f'])
    ['a', 'l'] ['0', 'x', '7', 'f'] [] rfl .w1 0x80 0x7f ⟨['a', 'l'], 8⟩
    ⟨by decide, rfl, rfl, rfl, by decide⟩ (Or.inl ⟨by decide, by decide⟩) (by decide)

/-- `0x80 - 0x80` is zero, and the flag is set. -/
theorem overflow_flags_least :
    ¬OverflowFlags alEnv (alOperand ['0', 'x', '8', '0']) .w1 0x80 0x80 := by
  intro h
  have hsub : FlagInputs (esilSubeq alEnv (alOperand ['0', 'x', '8', '0'])).2 0x80 0
      (BitVec.ofNat 8 MemWidth.w1.bits) := by
    exact ⟨by decide, by decide, by decide⟩
  have hflag := h.sub
  rw [runCommand_setupOps alEnv ⟨rfl, rfl, rfl, rfl, rfl, rfl⟩ _ (subeq_mem alEnv)] at hflag
  have heq := (FlagIs.unique alEnv (overflow_flag alEnv rfl _ .w1 _ _ hsub)).mp hflag
  revert heq
  decide

/-- Every size but one, 8, 16 and 32 compares all 64 bits. -/
def signedCompareGt (a b : Ut64) (size : Nat) : Bool :=
  match size with
  | 1 => (a &&& 1) > (b &&& 1)
  | 8 => (b.setWidth 8).slt (a.setWidth 8)
  | 16 => (b.setWidth 16).slt (a.setWidth 16)
  | 32 => (b.setWidth 32).slt (a.setWidth 32)
  | _ => b.slt a

section
variable {R : Type} (env : EsilEnv R)

/-- The `lastsz` of a comparison: the size of the destination register, else of the source
register, else 64. -/
def comparedSize (e : Esil R) (dst src : CStr) : Ut8 :=
  if (env.regGet e.reg dst).isSome then esilInternalSizeofReg env e dst
  else if (env.regGet e.reg src).isSome then esilInternalSizeofReg env e src
  else 64

/-- `esil_smaller`, `esil_bigger`, `esil_smaller_equal` and `esil_bigger_equal` differ in the
pushed result only. -/
def esilCompare (result : Ut64 → Ut64 → Nat → Bool) (e : Esil R) : Int × Esil R :=
  let (dst, src, e) := popTwo e
  match parmOf env e dst with
  | (none, e) => (0, e)
  | (some num, e) =>
    match parmOf env e src with
    | (none, e) => (0, e)
    | (some num2, e) =>
      let lastsz := comparedSize env e (dst.getD []) (src.getD [])
      pushResult (setFlags e num (num - num2) lastsz) (boolNum (result num num2 lastsz.toNat))

def esilSmaller : EsilOp R :=
  esilCompare env (fun num num2 lastsz => num ≠ num2 && !signedCompareGt num num2 lastsz)

def esilBigger : EsilOp R := esilCompare env signedCompareGt

def esilSmallerEqual : EsilOp R :=
  esilCompare env (fun num num2 lastsz => !signedCompareGt num num2 lastsz)

def esilBiggerEqual : EsilOp R :=
  esilCompare env (fun num num2 lastsz => num = num2 || signedCompareGt num num2 lastsz)

/-- The comparisons of `r_anal_esil_setup_ops`, added to its other commands. -/
def setupCompareOps : List (CStr × EsilOp R) :=
  [(['<'], esilSmaller env), (['>'], esilBigger env), (['<', '='], esilSmallerEqual env),
    (['>', '='], esilBiggerEqual env)] ++ setupOps env

def compareEnv : EsilEnv R := { env with ops := opTable (setupCompareOps env) }

end

def compareWords : List CStr := [['<'], ['>'], ['<', '='], ['>', '=']] ++ setupWords

theorem compareWords_hash_nodup : (compareWords.map sdbHash).Nodup := nodup_of_hashes (by decide)

/-- At the widths of registers the comparison is that of the signed low bits. -/
theorem signedCompareGt_eq (a b : Ut64) (w : MemWidth) :
    signedCompareGt a b w.bits =
      decide ((b.setWidth w.bits).toInt < (a.setWidth w.bits).toInt) := by
  cases w <;> simp [signedCompareGt, MemWidth.bits, MemWidth.bytes, BitVec.slt]

theorem toInt_setWidth_inj (a b : Ut64) (n : Nat) :
    (a.setWidth n).toInt = (b.setWidth n).toInt ↔ a.toNat % 2 ^ n = b.toNat % 2 ^ n := by
  rw [BitVec.toInt_inj, ← BitVec.toNat_inj, BitVec.toNat_setWidth, BitVec.toNat_setWidth]

section
variable {R : Type} (env : EsilEnv R)

/-- A number, or a register of a width from 8 to 64; what else may be registered under the name
of a number has such a width too. -/
structure CompareOperand (e : Esil R) (str : CStr) (v : Ut64) : Prop where
  value : SourceValue env e str v
  size : ∀ item, env.regGet e.reg str = some item → ∃ w : MemWidth, item.size = w.bits

variable {env}

theorem CompareOperand.sizeof {e : Esil R} {str : CStr} {v : Ut64}
    (h : CompareOperand env e str v) (hr : (env.regGet e.reg str).isSome) :
    ∃ w : MemWidth, esilInternalSizeofReg env e str = BitVec.ofNat 8 w.bits := by
  obtain ⟨item, hi⟩ := Option.isSome_iff_exists.mp hr
  obtain ⟨w, hw⟩ := h.size item hi
  exact ⟨w, by simp [esilInternalSizeofReg, hi, hw]⟩

theorem comparedSize_width {e : Esil R} {dst src : CStr} {d s : Ut64}
    (hd : CompareOperand env e dst d) (hs : CompareOperand env e src s) :
    ∃ w : MemWidth, (comparedSize env e dst src).toNat = w.bits := by
  have hbits : ∀ w : MemWidth, (BitVec.ofNat 8 w.bits).toNat = w.bits := by
    intro w
    cases w <;> decide
  rw [comparedSize]
  split
  · obtain ⟨w, hw⟩ := hd.sizeof ‹_›
    exact ⟨w, by rw [hw, hbits]⟩
  · split
    · obtain ⟨w, hw⟩ := hs.sizeof ‹_›
      exact ⟨w, by rw [hw, hbits]⟩
    · exact ⟨.w8, by decide⟩

variable (env)

theorem setupCompareOps_words : (setupCompareOps env).map Prod.fst = compareWords := by
  simp [setupCompareOps, compareWords, setupOps_words]

theorem setupCompareOps_hash_nodup :
    ((setupCompareOps env).map (fun op => sdbHash op.1)).Nodup := by
  have hm : (setupCompareOps env).map (fun op => sdbHash op.1) = compareWords.map sdbHash := by
    rw [← setupCompareOps_words env, List.map_map]
    rfl
  rw [hm]
  exact compareWords_hash_nodup

theorem iscommand_compareEnv {word : CStr} {op : EsilOp R} (h : (word, op) ∈ setupCompareOps env) :
    iscommand (compareEnv env) word = some op := by
  have ht := opTable_of_mem (setupCompareOps env) (setupCompareOps_hash_nodup env) h
  simp only [iscommand, compareEnv, ht]

theorem compareEnv_hookCommand : (compareEnv env).hookCommand = env.hookCommand := by
  simp only [compareEnv]

theorem runCommand_compareEnv (henv : env.NoHooks) (e : Esil R) {word : CStr} {op : EsilOp R}
    (h : (word, op) ∈ setupCompareOps env) : runCommand (compareEnv env) e word = op e := by
  simp only [runCommand, iscommand_compareEnv env h, compareEnv_hookCommand, henv.command]

/-- The command replaces its two operands by the truth value. -/
def Pushes (e : Esil R) (word : CStr) (rest : List CStr) (b : Bool) : Prop :=
  (runCommand (compareEnv env) e word).2.stack = hexLiteral (boolNum b) :: rest

theorem Pushes.unique {e : Esil R} {word : CStr} {rest : List CStr} {b b' : Bool}
    (h : Pushes env e word rest b) : Pushes env e word rest b' ↔ b = b' := by
  constructor
  · intro h'
    have heq := h.symm.trans h'
    have hnum := congrArg rNumGet (List.cons.inj heq).1
    rw [rNumGet_hexLiteral, rNumGet_hexLiteral] at hnum
    exact boolNum_inj hnum
  · intro hb
    subst hb
    exact h

/-- What a comparison word pushes for its two operands. -/
theorem compare_pushes (henv : env.NoHooks) (e : Esil R) {dst src : CStr} {rest : List CStr}
    (hstack : e.stack = dst :: src :: rest) (hroom : (rest.length : Int) < e.stacksize)
    {d s : Ut64} (hd : SourceValue env e dst d) (hs : SourceValue env e src s) {word : CStr}
    {result : Ut64 → Ut64 → Nat → Bool}
    (hw : (word, esilCompare env result) ∈ setupCompareOps env) :
    Pushes env e word rest (result d s (comparedSize env e dst src).toNat) := by
  have hsize : comparedSize env (e.withStack rest) dst src = comparedSize env e dst src := rfl
  rw [Pushes, runCommand_compareEnv env henv e hw]
  simp only [esilCompare, popTwo_cons e hstack, hd.parm henv.regRead, hs.parm henv.regRead,
    Option.getD_some, hsize, pushResult]
  rw [pushnum_of_room _ _ (by simpa [setFlags] using hroom)]
  simp [setFlags]

theorem setupCompareOps_mem {word : CStr} {op : EsilOp R}
    (h : (word, op) ∈ [(['<'], esilSmaller env), (['>'], esilBigger env),
      (['<', '='], esilSmallerEqual env), (['>', '='], esilBiggerEqual env)]) :
    (word, op) ∈ setupCompareOps env := List.mem_append_left _ h

/-- The four words push the signed order of the low bits, and agree with each other. -/
structure SignedComparisons (e : Esil R) (rest : List CStr) (n : Nat) (d s : Ut64) : Prop where
  smaller : Pushes env e ['<'] rest (decide ((d.setWidth n).toInt < (s.setWidth n).toInt))
  smallerEqual : Pushes env e ['<', '='] rest (decide ((d.setWidth n).toInt ≤ (s.setWidth n).toInt))
  bigger : Pushes env e ['>'] rest (decide ((d.setWidth n).toInt > (s.setWidth n).toInt))
  biggerEqual : Pushes env e ['>', '='] rest (decide ((d.setWidth n).toInt ≥ (s.setWidth n).toInt))
  smaller_not : ∀ b, Pushes env e ['<'] rest b ↔ Pushes env e ['>', '='] rest (!b)
  bigger_not : ∀ b, Pushes env e ['>'] rest b ↔ Pushes env e ['<', '='] rest (!b)
  smallerEqual_or : ∀ b, Pushes env e ['<'] rest b →
    Pushes env e ['<', '='] rest (b || decide (d.toNat % 2 ^ n = s.toNat % 2 ^ n))

/-- `<` and `>=` take all 64 bits into account: they are right where operands that agree in the
low bits are equal. -/
theorem signed_comparisons_iff (henv : env.NoHooks) (e : Esil R) (dst src : CStr)
    (rest : List CStr) (hstack : e.stack = dst :: src :: rest)
    (hroom : (rest.length : Int) < e.stacksize) (d s : Ut64) (hd : CompareOperand env e dst d)
    (hs : CompareOperand env e src s) (n : Nat) (hn : n = (comparedSize env e dst src).toNat) :
    SignedComparisons env e rest n d s ↔ (d.toNat % 2 ^ n = s.toNat % 2 ^ n → d = s) := by
  obtain ⟨w, hw⟩ := comparedSize_width hd hs
  have hpush : ∀ word result, (word, esilCompare env result) ∈ setupCompareOps env →
      Pushes env e word rest (result d s n) := by
    intro word result hmem
    rw [hn]
    exact compare_pushes env henv e hstack hroom hd.value hs.value hmem
  have hlt := hpush ['<'] (fun num num2 n => num ≠ num2 && !signedCompareGt num num2 n)
    (setupCompareOps_mem env (by simp [esilSmaller]))
  have hgt := hpush ['>'] signedCompareGt (setupCompareOps_mem env (by simp [esilBigger]))
  have hle := hpush ['<', '='] (fun num num2 n => !signedCompareGt num num2 n)
    (setupCompareOps_mem env (by simp [esilSmallerEqual]))
  have hge := hpush ['>', '='] (fun num num2 n => num = num2 || signedCompareGt num num2 n)
    (setupCompareOps_mem env (by simp [esilBiggerEqual]))
  have hnw : n = w.bits := hn.trans hw
  have hgt_eq : signedCompareGt d s n =
      decide ((s.setWidth n).toInt < (d.setWidth n).toInt) := by
    rw [hnw, signedCompareGt_eq]
  rw [hgt_eq] at hlt hgt hle hge
  obtain ⟨x, hx⟩ : ∃ x, (d.setWidth n).toInt = x := ⟨_, rfl⟩
  obtain ⟨y, hy⟩ : ∃ y, (s.setWidth n).toInt = y := ⟨_, rfl⟩
  have hinj : x = y ↔ d.toNat % 2 ^ n = s.toNat % 2 ^ n := by
    rw [← hx, ← hy]
    exact toInt_setWidth_inj d s n
  rw [hx, hy] at hlt hgt hle hge
  constructor
  · intro h hmod
    have hsmaller := h.smaller
    rw [hx, hy] at hsmaller
    have heq := (Pushes.unique env hlt).mp hsmaller
    simpa [hinj.mpr hmod] using heq
  · intro h
    have hdiff : decide (d = s) = decide (x = y) := by
      rw [decide_eq_decide, hinj]
      exact ⟨fun he => by rw [he], h⟩
    simp only [ne_eq, decide_not, hdiff] at hlt hge
    apply SignedComparisons.mk
    · rw [hx, hy, Pushes.unique env hlt, Bool.eq_iff_iff]
      simp
      omega
    · rw [hx, hy, Pushes.unique env hle, Bool.eq_iff_iff]
      simp
    · rw [hx, hy, Pushes.unique env hgt]
    · rw [hx, hy, Pushes.unique env hge, Bool.eq_iff_iff]
      simp
      omega
    · intro b
      rw [Pushes.unique env hlt, Pushes.unique env hge]
      by_cases hxy : x = y <;> cases b <;> simp [hxy]
    · intro b
      rw [Pushes.unique env hgt, Pushes.unique env hle]
      cases b <;> simp
    · intro b hb
      rw [Pushes.unique env hle, ← (Pushes.unique env hlt).mp hb, Bool.eq_iff_iff]
      simp only [← hinj]
      simp
      omega

end

/-- The emulator with `al = 0xff` and the operand -1 on the stack. -/
def alMinusOne : Esil Ut64 := { alEsil with stack := [['a', 'l'], ['-', '1']] }

theorem signed_comparisons_iff_al :
    SignedComparisons alEnv alEsil [] 8 0xff 0xff01 ↔
      ((0xff : Ut64).toNat % 2 ^ 8 = (0xff01 : Ut64).toNat % 2 ^ 8 → (0xff : Ut64) = 0xff01) :=
  signed_comparisons_iff alEnv ⟨rfl, rfl, rfl, rfl, rfl, rfl⟩ alEsil ['a', 'l']
    ['0', 'x', 'f', 'f', '0', '1'] [] rfl (by decide) 0xff 0xff01
    ⟨Or.inr ⟨by decide, ⟨['a', 'l'], 8⟩, rfl, rfl⟩, fun item hi => ⟨.w1, by
      cases hi
      rfl⟩⟩
    ⟨Or.inl ⟨by decide, by decide⟩, fun item hi => by cases hi⟩ 8 (by decide)

/-- `al` holds -1 as a byte and is not below -1, and `-1,al,<` pushes 1. -/
theorem signed_comparisons_minus_one :
    ¬SignedComparisons alEnv alMinusOne [] 8 0xff 0xffffffffffffffff := by
  intro h
  have hlt := h.smaller
  rw [Pushes, runCommand_compareEnv alEnv ⟨rfl, rfl, rfl, rfl, rfl, rfl⟩ alMinusOne
    (setupCompareOps_mem alEnv (by simp [esilSmaller] : (['<'], esilSmaller alEnv) ∈ _))] at hlt
  revert hlt
  decide

end Radare
