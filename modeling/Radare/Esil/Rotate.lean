import Radare.Esil.StoreLoad
import Radare.Framework.Rotate
import Radare.Reg.RegFile

namespace Radare

open Framework (window overwrite length_window length_overwrite window_overwrite_same setWidth_rotateRight
  setWidth_rotateLeft rotateRight_rotateRight rotateLeft_rotateLeft rotateRight_rotateLeft rotateLeft_rotateRight
  rotateRight_congr rotateLeft_congr)

section Operations

variable {R : Type} (env : EsilEnv R)

/-- `esil_ror` and `esil_rol`: both shift counts are cut to the width of the register. -/
def esilRotate (f : Ut64 → Nat → Nat → Ut64) (e : Esil R) : Int × Esil R :=
  let (dst, src, e) := popTwo e
  match dst with
  | none => (0, e)
  | some dst =>
    match rAnalEsilGetParmSize env e dst with
    | (none, e) => (0, e)
    | (some (num, regsize), e) =>
      match parmOf env e src with
      | (none, e) => (0, e)
      | (some num2, e) =>
        let mask := BitVec.ofInt 64 (regsize - 1)
        let num2 := num2 &&& mask
        pushResult e (f num (num2.toNat % 64) ((-num2 &&& mask).toNat % 64))

def esilRor : EsilOp R := esilRotate env (fun num k k' => num >>> k ||| num <<< k')

def esilRol : EsilOp R := esilRotate env (fun num k k' => num <<< k ||| num >>> k')

/-- The flag inputs are set when a value that is no internal variable was written. -/
def esilEq (e : Esil R) : Int × Esil R :=
  let (dst, src, e) := popTwo e
  match src, dst with
  | some src, some dst =>
    match rAnalEsilRegReadNocallback env e dst with
    | (none, e) => (0, e)
    | (some (num, _), e) =>
      match rAnalEsilGetParm env e src with
      | (none, e) => (0, e)
      | (some num2, e) =>
        let (ret, e) := rAnalEsilRegWrite env e dst num2
        if ret ≠ 0 ∧ rAnalEsilGetParmType env e src ≠ .internal then
          (ret, setFlags e num num2 (esilInternalSizeofReg env e dst))
        else (ret, e)
  | _, _ => (0, e)

/-- The commands of `r_anal_esil_setup_ops` with the rotations and the assignment. -/
def rotateOps : List (CStr × EsilOp R) :=
  setupOps env ++ [(['>', '>', '>'], esilRor env), (['<', '<', '<'], esilRol env), (['='], esilEq env)]

def rAnalEsilSetupRotates : EsilEnv R := { env with ops := opTable (rotateOps env) }

theorem rotateWords_hash_nodup :
    ((setupWords ++ [['>', '>', '>'], ['<', '<', '<'], ['=']]).map sdbHash).Nodup :=
  nodup_of_hashes (by decide)

theorem iscommand_rotateOps {word : CStr} {op : EsilOp R} (h : (word, op) ∈ rotateOps env) :
    iscommand (rAnalEsilSetupRotates env) word = some op := by
  have hwords : (rotateOps env).map (fun op => sdbHash op.1) =
      (setupWords ++ [['>', '>', '>'], ['<', '<', '<'], ['=']]).map sdbHash := by
    rw [rotateOps, List.map_append, List.map_append, ← setupOps_words env, List.map_map]
    rfl
  have hnd : ((rotateOps env).map (fun op => sdbHash op.1)).Nodup := by
    rw [hwords]
    exact rotateWords_hash_nodup
  have ht := opTable_of_mem (rotateOps env) hnd h
  simp only [iscommand, rAnalEsilSetupRotates, ht]

end Operations

/-- The direction of a rotation. -/
inductive Rotation where
  | right
  | left

namespace Rotation

def word : Rotation → CStr
  | right => ['>', '>', '>']
  | left => ['<', '<', '<']

def flip : Rotation → Rotation
  | right => left
  | left => right

/-- The purpose of the two operations. -/
def rotate {n : Nat} : Rotation → BitVec n → Nat → BitVec n
  | right, x, c => x.rotateRight c
  | left, x, c => x.rotateLeft c

def op {R : Type} (env : EsilEnv R) : Rotation → EsilOp R
  | right => esilRor env
  | left => esilRol env

variable {n : Nat}

theorem rotate_flip (t : Rotation) (x : BitVec n) (c : Nat) : t.flip.rotate (t.rotate x c) c = x := by
  cases t with
  | right => exact rotateRight_rotateLeft x c
  | left => exact rotateLeft_rotateRight x c

theorem rotate_rotate (t : Rotation) (x : BitVec n) (c c' : Nat) : t.rotate (t.rotate x c) c' = t.rotate x (c + c') := by
  cases t with
  | right => exact rotateRight_rotateRight x c c'
  | left => exact rotateLeft_rotateLeft x c c'

theorem rotate_congr (t : Rotation) (x : BitVec n) {c c' : Nat} (h : c % n = c' % n) : t.rotate x c = t.rotate x c' := by
  cases t with
  | right => exact rotateRight_congr x h
  | left => exact rotateLeft_congr x h

theorem word_mem {R : Type} (env : EsilEnv R) (t : Rotation) : (t.word, t.op env) ∈ rotateOps env := by
  cases t <;> simp [rotateOps, word, op]

end Rotation

/-- The widths that the registers have which hold a number. -/
def RegWidth (n : Nat) : Prop := n = 8 ∨ n = 16 ∨ n = 32 ∨ n = 64

section Masks

variable {n : Nat}

theorem RegWidth.le (h : RegWidth n) : n ≤ 64 ∧ 0 < n := by
  rcases h with h | h | h | h <;> omega

/-- Counts are added modulo a multiple of the width. -/
theorem RegWidth.add_mod (h : RegWidth n) (a b : Ut64) : (a + b).toNat % n = (a.toNat + b.toNat) % n := by
  rw [BitVec.toNat_add]
  rcases h with rfl | rfl | rfl | rfl <;> omega

theorem and_width_toNat (h : RegWidth n) (x : Ut64) : (x &&& BitVec.ofInt 64 ((n : Int) - 1)).toNat = x.toNat % n := by
  rw [BitVec.toNat_and]
  rcases h with rfl | rfl | rfl | rfl
  · exact Nat.and_two_pow_sub_one_eq_mod x.toNat 3
  · exact Nat.and_two_pow_sub_one_eq_mod x.toNat 4
  · exact Nat.and_two_pow_sub_one_eq_mod x.toNat 5
  · exact Nat.and_two_pow_sub_one_eq_mod x.toNat 6

/-- The count of the shift the other way. -/
theorem neg_and_width_toNat (h : RegWidth n) {k : Ut64} (hk : k.toNat < n) :
    (-k &&& BitVec.ofInt 64 ((n : Int) - 1)).toNat = (n - k.toNat) % n := by
  rw [and_width_toNat h, BitVec.toNat_neg]
  rcases h with rfl | rfl | rfl | rfl <;> omega

end Masks

section Run

variable {R : Type} {env : EsilEnv R}

/-- A word that can name a register. -/
structure RegWord (r : CStr) : Prop where
  name : isInternalName r = false
  noNumber : isParmNumber r = false
  comma : r.head? ≠ some ','
  ne : r ≠ []

/-- In every good register file the word `r` names a register of `n` bits that reads as it was set. -/
structure RegCell (env : EsilEnv R) (Good : R → Prop) (r : CStr) (n : Nat) (item : RRegItem) : Prop where
  size : item.size = n
  get : ∀ reg, Good reg → env.regGet reg r = some item
  lt : ∀ reg, Good reg → (env.regGetValue reg item).toNat < 2 ^ n
  keep : ∀ reg v, Good reg → Good (env.regSetValue reg item v)
  same : ∀ reg v, Good reg → (env.regGetValue (env.regSetValue reg item v) item).toNat = v.toNat % 2 ^ n

/-- The value of a register. -/
def Esil.regValue (e : Esil R) (env : EsilEnv R) (r : CStr) : Ut64 :=
  ((rAnalEsilRegRead env e r).1.map Prod.fst).getD 0

variable {Good : R → Prop} {r c : CStr} {n : Nat} {item : RRegItem} {e : Esil R}

theorem runCommand_reg (e : Esil R) (hr : RegWord r) (hplain : iscommand env r = none)
    (hroom : (e.stack.length : Int) < e.stacksize) : runCommand env e r = (1, e.withStack (r :: e.stack)) := by
  have hpush := push_of_room e hr.ne hroom
  simp [runCommand, hplain, hr.ne, hr.comma, hpush]

theorem getParmType_reg (e : Esil R) (hr : RegWord r) (hget : env.regGet e.reg r = some item) :
    rAnalEsilGetParmType env e r = .reg := by
  have hname := hr.name
  have hnum := hr.noNumber
  cases r with
  | nil => exact absurd rfl hr.ne
  | cons c cs =>
    have hdollar : ¬(c = '$' ∧ cs ≠ []) := by
      intro h
      obtain ⟨rfl, hcs⟩ := h
      cases cs with
      | nil => exact hcs rfl
      | cons d ds => exact absurd hname (by simp [isInternalName])
    simp [rAnalEsilGetParmType, hdollar, hnum, hget]

theorem regRead_cell (hh : env.hookRegRead = none) (hr : RegWord r) (hcell : RegCell env Good r n item)
    (hgood : Good e.reg) : rAnalEsilRegRead env e r = (some (env.regGetValue e.reg item, (n : Int)), e) := by
  simp [rAnalEsilRegRead, hr.name, hh, hcell.get e.reg hgood, hcell.size]

theorem regValue_cell (hh : env.hookRegRead = none) (hr : RegWord r) (hcell : RegCell env Good r n item)
    (hgood : Good e.reg) : e.regValue env r = env.regGetValue e.reg item := by
  rw [Esil.regValue, regRead_cell hh hr hcell hgood]
  rfl

/-- The operation with a register on top of a count. -/
theorem esilRotate_cell (f : Ut64 → Nat → Nat → Ut64) (hh : env.hookRegRead = none) (hr : RegWord r)
    (hcell : RegCell env Good r n item) (hgood : Good e.reg) (hn : RegWidth n) (hc : isParmNumber c = true)
    {rest : List CStr} (hstack : e.stack = r :: c :: rest) :
    esilRotate env f e = pushResult (e.withStack rest)
      (f (env.regGetValue e.reg item) ((rNumGet c).toNat % n) ((n - (rNumGet c).toNat % n) % n)) := by
  have hn64 := hn.le
  have hget := hcell.get e.reg hgood
  have hsize : rAnalEsilGetParmSize env (e.withStack rest) r =
      (some (env.regGetValue e.reg item, (n : Int)), e.withStack rest) := by
    rw [rAnalEsilGetParmSize, getParmType_reg (e.withStack rest) hr hget]
    exact regRead_cell hh hr hcell hgood
  have hk := and_width_toNat hn (rNumGet c)
  have hklt : (rNumGet c).toNat % n < n := Nat.mod_lt _ hn64.2
  have hk' := neg_and_width_toNat hn (hk.trans_lt hklt)
  have hk'lt : (n - (rNumGet c).toNat % n) % n < n := Nat.mod_lt _ hn64.2
  rw [hk] at hk'
  have hcut : (rNumGet c).toNat % n % 64 = (rNumGet c).toNat % n := Nat.mod_eq_of_lt (by omega)
  have hcut' : (n - (rNumGet c).toNat % n) % n % 64 = (n - (rNumGet c).toNat % n) % n := Nat.mod_eq_of_lt (by omega)
  simp only [esilRotate, popTwo_cons e hstack, hsize, parmOf_number env _ hc, hk, hk']
  rw [hcut, hcut']

/-- Both operations push the rotation in the low bits. -/
theorem rotation_cell (t : Rotation) (hh : env.hookRegRead = none) (hr : RegWord r)
    (hcell : RegCell env Good r n item) (hgood : Good e.reg) (hn : RegWidth n) (hc : isParmNumber c = true)
    {rest : List CStr} (hstack : e.stack = r :: c :: rest) :
    ∃ v : Ut64, t.op env e = pushResult (e.withStack rest) v ∧
      v.setWidth n = t.rotate ((env.regGetValue e.reg item).setWidth n) (rNumGet c).toNat := by
  have hn64 := hn.le
  have hlt := hcell.lt e.reg hgood
  have hk : (rNumGet c).toNat % n < n := Nat.mod_lt _ hn64.2
  cases t with
  | right =>
    refine ⟨_, esilRotate_cell (fun num k k' => num >>> k ||| num <<< k') hh hr hcell hgood hn hc hstack, ?_⟩
    rw [setWidth_rotateRight hn64.1 hk hlt]
    exact BitVec.rotateRight_mod_eq_rotateRight
  | left =>
    refine ⟨_, esilRotate_cell (fun num k k' => num <<< k ||| num >>> k') hh hr hcell hgood hn hc hstack, ?_⟩
    rw [setWidth_rotateLeft hn64.1 hk hlt]
    exact BitVec.rotateLeft_mod_eq_rotateLeft

def Esil.withReg (e : Esil R) (reg : R) : Esil R := { e with reg := reg }

/-- The assignment of a number to a register. -/
theorem esilEq_cell (henv : env.NoHooks) (hr : RegWord r) (hcell : RegCell env Good r n item)
    (hgood : Good e.reg) (v : Ut64) {rest : List CStr} (hstack : e.stack = r :: hexLiteral v :: rest) :
    ∃ lastsz, esilEq env e = (1, setFlags ((e.withStack rest).withReg (env.regSetValue e.reg item v))
      (env.regGetValue e.reg item) v lastsz) := by
  have hget := hcell.get e.reg hgood
  have hread : rAnalEsilRegReadNocallback env (e.withStack rest) r =
      (some (env.regGetValue e.reg item, (n : Int)), e.withStack rest) := by
    have hcell' : RegCell { env with hookRegRead := none } Good r n item :=
      ⟨hcell.size, hcell.get, hcell.lt, hcell.keep, hcell.same⟩
    exact regRead_cell rfl hr hcell' hgood
  have hsrc : rAnalEsilGetParm env (e.withStack rest) (hexLiteral v) = (some v, e.withStack rest) :=
    parmOf_hexLiteral env _ v
  have hwrite : rAnalEsilRegWrite env (e.withStack rest) r v =
      (1, (e.withStack rest).withReg (env.regSetValue e.reg item v)) := by
    simp [rAnalEsilRegWrite, henv.regWrite, hr.name, hget, Esil.withReg]
  have htype := getParmType_number env ((e.withStack rest).withReg (env.regSetValue e.reg item v))
    (isParmNumber_hexLiteral v)
  generalize (e.withStack rest).withReg (env.regSetValue e.reg item v) = e' at hwrite htype ⊢
  refine ⟨esilInternalSizeofReg env e' r, ?_⟩
  simp only [esilEq, popTwo_cons e hstack, hread, hsrc, hwrite, htype]
  rfl

end Run

section Words

variable {R : Type} {env : EsilEnv R} {Good : R → Prop} {r c : CStr} {n : Nat} {item : RRegItem} {e : Esil R}

theorem runCommand_rotateOps (henv : env.NoHooks) (e : Esil R) {word : CStr} {op : EsilOp R}
    (h : (word, op) ∈ rotateOps env) : runCommand (rAnalEsilSetupRotates env) e word = op e := by
  have hhook : (rAnalEsilSetupRotates env).hookCommand = none := by
    simp only [rAnalEsilSetupRotates, henv.command]
  simp only [runCommand, iscommand_rotateOps env h, hhook]

theorem Esil.pushResult_room (e : Esil R) (v : Ut64) (hroom : (e.stack.length : Int) < e.stacksize) :
    pushResult e v = (1, e.withStack (hexLiteral v :: e.stack)) := by
  rw [pushResult, pushnum_of_room e v hroom]

/-- A count, a register and a rotation push the rotated value. -/
theorem rotation_runs (t : Rotation) (henv : env.NoHooks) (hr : RegWord r)
    (hplain : iscommand (rAnalEsilSetupRotates env) r = none) (hcell : RegCell env Good r n item)
    (hgood : Good e.reg) (hn : RegWidth n) (hc : Operand (rAnalEsilSetupRotates env) c)
    (hroom : (e.stack.length : Int) + 2 ≤ e.stacksize) :
    ∃ v : Ut64, runWords (rAnalEsilSetupRotates env) e [c, r, t.word] = some (e.withStack (hexLiteral v :: e.stack)) ∧
      v.setWidth n = t.rotate ((env.regGetValue e.reg item).setWidth n) (rNumGet c).toNat := by
  obtain ⟨v, hop, hv⟩ := rotation_cell t henv.regRead hr hcell (e := e.withStack (r :: c :: e.stack)) hgood hn
    hc.number rfl
  have hpushc := runCommand_operand (rAnalEsilSetupRotates env) e hc (by omega)
  have hpushr := runCommand_reg (e.withStack (c :: e.stack)) hr hplain
    (by simp only [Esil.withStack_stack, Esil.withStack_stacksize, List.length_cons]; omega)
  have hword := runCommand_rotateOps henv (e.withStack (r :: c :: e.stack)) (t.word_mem env)
  have hroom' : (e.stack.length : Int) < e.stacksize := by omega
  refine ⟨v, ?_, hv⟩
  simp only [Esil.withStack_withStack, Esil.withStack_stack] at hpushr hop
  have hresult := hword.trans hop
  rw [Esil.pushResult_room (e.withStack e.stack) v (by exact hroom')] at hresult
  rw [runWords_step hpushc one_ne_zero, runWords_step hpushr one_ne_zero, runWords_step hresult one_ne_zero]
  rfl

/-- Behind a rotation that was written back: the register holds `y`, and the stack is as before. -/
structure WrittenBack (env : EsilEnv R) (Good : R → Prop) (item : RRegItem) (e e' : Esil R) (y : BitVec n) : Prop where
  stack : e'.stack = e.stack
  stacksize : e'.stacksize = e.stacksize
  good : Good e'.reg
  value : (env.regGetValue e'.reg item).setWidth n = y

/-- The rotated value written back to its register. -/
theorem rotation_writes (t : Rotation) (henv : env.NoHooks) (hr : RegWord r)
    (hplain : iscommand (rAnalEsilSetupRotates env) r = none) (hcell : RegCell env Good r n item)
    (hgood : Good e.reg) (hn : RegWidth n) (hc : Operand (rAnalEsilSetupRotates env) c)
    (hroom : (e.stack.length : Int) + 2 ≤ e.stacksize) :
    ∃ e', runWords (rAnalEsilSetupRotates env) e [c, r, t.word, r, ['=']] = some e' ∧
      WrittenBack env Good item e e' (t.rotate ((env.regGetValue e.reg item).setWidth n) (rNumGet c).toNat) := by
  obtain ⟨v, hrun, hv⟩ := rotation_runs t henv hr hplain hcell hgood hn hc hroom
  have hpushr := runCommand_reg (e.withStack (hexLiteral v :: e.stack)) hr hplain
    (by simp only [Esil.withStack_stack, Esil.withStack_stacksize, List.length_cons]; omega)
  obtain ⟨lastsz, hassign⟩ := esilEq_cell (e := e.withStack (r :: hexLiteral v :: e.stack)) henv hr hcell hgood v rfl
  have hmem : (['='], esilEq env) ∈ rotateOps env := by simp [rotateOps]
  have hword := runCommand_rotateOps henv (e.withStack (r :: hexLiteral v :: e.stack)) hmem
  simp only [Esil.withStack_withStack, Esil.withStack_stack, Esil.withStack_reg] at hpushr hassign
  have hall : runWords (rAnalEsilSetupRotates env) e ([c, r, t.word] ++ [r, ['=']]) =
      some (setFlags ((e.withStack e.stack).withReg (env.regSetValue e.reg item v)) (env.regGetValue e.reg item) v
        lastsz) := by
    rw [runWords_append, hrun, Option.bind_some, runWords_step hpushr one_ne_zero,
      runWords_step (hword.trans hassign) one_ne_zero]
    rfl
  refine ⟨_, hall, rfl, rfl, hcell.keep e.reg v hgood, ?_⟩
  have hsame := hcell.same e.reg v hgood
  rw [← hv]
  apply BitVec.eq_of_toNat_eq
  rw [BitVec.toNat_setWidth, BitVec.toNat_setWidth]
  exact (congrArg (· % 2 ^ n) hsame).trans (Nat.mod_mod _ _)

/-- Good register files with the same low bits in the register have the same value in it. -/
theorem RegCell.value_inj (hcell : RegCell env Good r n item) {reg reg' : R} (hgood : Good reg) (hgood' : Good reg')
    (h : (env.regGetValue reg item).setWidth n = (env.regGetValue reg' item).setWidth n) :
    env.regGetValue reg item = env.regGetValue reg' item := by
  have hlt := hcell.lt reg hgood
  have hlt' := hcell.lt reg' hgood'
  have hmod := congrArg BitVec.toNat h
  rw [BitVec.toNat_setWidth, BitVec.toNat_setWidth, Nat.mod_eq_of_lt hlt, Nat.mod_eq_of_lt hlt'] at hmod
  exact BitVec.eq_of_toNat_eq hmod

/-- What the two rotations do with a register `r` of `n` bits, by the counts `c` and `c'` and their sum `s`. -/
structure RotatesAsGroup (env : EsilEnv R) (e : Esil R) (t : Rotation) (r : CStr) (n : Nat) (c c' s : CStr) : Prop where
  pushes : ∃ v : Ut64,
    runWords (rAnalEsilSetupRotates env) e [c, r, t.word] = some (e.withStack (hexLiteral v :: e.stack)) ∧
      v.setWidth n = t.rotate ((e.regValue env r).setWidth n) ((rNumGet c).toNat % n)
  restores : ∃ e₁ e₂, runWords (rAnalEsilSetupRotates env) e [c, r, t.word, r, ['=']] = some e₁ ∧
    runWords (rAnalEsilSetupRotates env) e₁ [c, r, t.flip.word, r, ['=']] = some e₂ ∧
      e₂.regValue env r = e.regValue env r
  adds : ∃ e₁ e₂ e₃, runWords (rAnalEsilSetupRotates env) e [c, r, t.word, r, ['=']] = some e₁ ∧
    runWords (rAnalEsilSetupRotates env) e₁ [c', r, t.word, r, ['=']] = some e₂ ∧
      runWords (rAnalEsilSetupRotates env) e [s, r, t.word, r, ['=']] = some e₃ ∧
        e₂.regValue env r = e₃.regValue env r

theorem rotatesAsGroup_cell (t : Rotation) (henv : env.NoHooks) (hr : RegWord r)
    (hplain : iscommand (rAnalEsilSetupRotates env) r = none) (hcell : RegCell env Good r n item)
    (hgood : Good e.reg) (hn : RegWidth n) {c' s : CStr} (hc : Operand (rAnalEsilSetupRotates env) c)
    (hc' : Operand (rAnalEsilSetupRotates env) c') (hs : Operand (rAnalEsilSetupRotates env) s)
    (hsum : rNumGet s = rNumGet c + rNumGet c') (hroom : (e.stack.length : Int) + 2 ≤ e.stacksize) :
    RotatesAsGroup env e t r n c c' s := by
  have hread : ∀ e' : Esil R, Good e'.reg → e'.regValue env r = env.regGetValue e'.reg item :=
    fun _ h => regValue_cell henv.regRead hr hcell h
  obtain ⟨e₁, hrun₁, hw₁⟩ := rotation_writes t henv hr hplain hcell hgood hn hc hroom
  have hroom₁ : (e₁.stack.length : Int) + 2 ≤ e₁.stacksize := by
    rw [hw₁.stack, hw₁.stacksize]
    exact hroom
  refine ⟨?_, ?_, ?_⟩
  · obtain ⟨v, hrun, hv⟩ := rotation_runs t henv hr hplain hcell hgood hn hc hroom
    refine ⟨v, hrun, ?_⟩
    rw [hread e hgood, hv]
    exact t.rotate_congr _ (Nat.mod_mod _ _).symm
  · obtain ⟨e₂, hrun₂, hw₂⟩ := rotation_writes t.flip henv hr hplain hcell hw₁.good hn hc hroom₁
    refine ⟨e₁, e₂, hrun₁, hrun₂, ?_⟩
    rw [hread e₂ hw₂.good, hread e hgood]
    apply hcell.value_inj hw₂.good hgood
    rw [hw₂.value, hw₁.value, t.rotate_flip]
  · obtain ⟨e₂, hrun₂, hw₂⟩ := rotation_writes t henv hr hplain hcell hw₁.good hn hc' hroom₁
    obtain ⟨e₃, hrun₃, hw₃⟩ := rotation_writes t henv hr hplain hcell hgood hn hs hroom
    refine ⟨e₁, e₂, e₃, hrun₁, hrun₂, hrun₃, ?_⟩
    rw [hread e₂ hw₂.good, hread e₃ hw₃.good]
    apply hcell.value_inj hw₂.good hw₃.good
    rw [hw₂.value, hw₁.value, hw₃.value, t.rotate_rotate, hsum]
    exact t.rotate_congr _ (hn.add_mod _ _).symm

end Words

section Registers

variable (get : CStr → Option Reg.RRegItem) (longDouble : List Ut8 → Int → Ut64) (stack : Nat → Ut8)

/-- The register interface over a register file. `r_reg_get` looks a name up in the profile, which no
operation changes. -/
def regEnv : EsilEnv Reg.RReg where
  regGet _ name := (get name).map (fun item => ⟨name, item.size.toNat⟩)
  regGetValue reg r := ((get r.name).bind (Reg.rRegGetValue longDouble reg)).getD 0
  regSetValue reg r v := ((get r.name).bind (fun item => Reg.rRegSetValue stack reg item v)).elim reg (·.1)
  ops _ := none
  hookCommand := none
  hookFlagRead := none
  hookRegRead := none
  hookRegWrite := none
  hookMemRead := none
  hookMemWrite := none
  uninit := []

theorem regEnv_noHooks : (regEnv get longDouble stack).NoHooks := ⟨rfl, rfl, rfl, rfl, rfl, rfl⟩

/-- A register of whole bytes that lies in its arena. -/
theorem regEnv_cell {r : CStr} {q n : Nat} {item : Reg.RRegItem} (hget : get r = some item)
    {size : Nat} (h : Reg.Whole item q n size) :
    RegCell (regEnv get longDouble stack) (fun reg => (reg.regset item.type).cur.bytes.length = size) r (8 * n)
      ⟨r, 8 * n⟩ := by
  have hn8 : n ≤ 8 := by
    have hn := h.bytes
    omega
  have hfits := h.fits
  have hlt : ∀ bs : List Ut8, bs.length = n → leNat bs < 2 ^ (8 * n) := by
    intro bs hbs
    have hbound := leNat_lt bs
    rw [hbs] at hbound
    rw [Nat.pow_mul]
    exact hbound
  have hread : ∀ reg : Reg.RReg, (reg.regset item.type).cur.bytes.length = size →
      ((regEnv get longDouble stack).regGetValue reg ⟨r, 8 * n⟩).toNat =
        leNat (orient reg.bigEndian (window (reg.regset item.type).cur.bytes q n)) := by
    intro reg hgood
    subst hgood
    have hbound := hlt (orient reg.bigEndian (window (reg.regset item.type).cur.bytes q n)) (by
      rw [orient_length, length_window hfits])
    have hbig := Nat.pow_le_pow_right (by decide : 2 > 0) (by omega : 8 * n ≤ 64)
    change (((get r).bind (Reg.rRegGetValue longDouble reg)).getD 0).toNat = _
    rw [hget, Option.bind_some, Reg.rRegGetValue_whole h longDouble, Option.getD_some,
      Reg.ofNat_toNat_lt (lt_of_lt_of_le hbound hbig)]
  have hwrite : ∀ (reg : Reg.RReg) (v : Ut64), (reg.regset item.type).cur.bytes.length = size →
      (regEnv get longDouble stack).regSetValue reg ⟨r, 8 * n⟩ v = reg.setArena item.type
        ⟨overwrite (reg.regset item.type).cur.bytes q (orient reg.bigEndian (leBytes n v.toNat))⟩ := by
    intro reg v hgood
    subst hgood
    change ((get r).bind (fun item => Reg.rRegSetValue stack reg item v)).elim reg (·.1) = _
    rw [hget, Option.bind_some, Reg.rRegSetValue_whole h stack v]
    rfl
  have hbytes : ∀ (reg : Reg.RReg) (v : Ut64),
      (orient reg.bigEndian (leBytes n v.toNat)).length = n := by
    intro reg v
    rw [orient_length, leBytes_length]
  have hkeep : ∀ (reg : Reg.RReg) (v : Ut64), (reg.regset item.type).cur.bytes.length = size →
      (((regEnv get longDouble stack).regSetValue reg ⟨r, 8 * n⟩ v).regset item.type).cur.bytes.length = size := by
    intro reg v hgood
    rw [hwrite reg v hgood, Reg.setArena_cur, if_pos rfl, length_overwrite (by rw [hbytes reg v]; omega), hgood]
  refine ⟨rfl, ?_, ?_, hkeep, ?_⟩
  · intro reg _
    change (get r).map _ = _
    rw [hget, Option.map_some, h.width, Int.toNat_natCast]
  · intro reg hgood
    rw [hread reg hgood]
    exact hlt _ (by rw [orient_length, length_window (by omega)])
  · intro reg v hgood
    have hroom : q + (orient reg.bigEndian (leBytes n v.toNat)).length ≤ (reg.regset item.type).cur.bytes.length := by
      rw [hbytes reg v]
      omega
    have hwin := window_overwrite_same hroom
    rw [hbytes reg v] at hwin
    rw [hread _ (hkeep reg v hgood), hwrite reg v hgood, Reg.setArena_cur, if_pos rfl]
    change leNat (orient reg.bigEndian (window (overwrite _ q _) q n)) = _
    rw [hwin, orient_orient, leNat_leBytes, Nat.pow_mul]

/-- The words `c,r,>>>` and `c,r,<<<` rotate a register of whole bytes, and with `r,=` they are a group of
rotations on its value, for every count. -/
theorem rotate_register {r c c' s : CStr} {q n : Nat} {item : Reg.RRegItem} (t : Rotation) (e : Esil Reg.RReg)
    (hr : RegWord r) (hget : get r = some item)
    (hwhole : Reg.Whole item q n (e.reg.regset item.type).cur.bytes.length)
    (hplain : iscommand (rAnalEsilSetupRotates (regEnv get longDouble stack)) r = none)
    (hc : Operand (rAnalEsilSetupRotates (regEnv get longDouble stack)) c)
    (hc' : Operand (rAnalEsilSetupRotates (regEnv get longDouble stack)) c')
    (hs : Operand (rAnalEsilSetupRotates (regEnv get longDouble stack)) s)
    (hsum : rNumGet s = rNumGet c + rNumGet c') (hroom : (e.stack.length : Int) + 2 ≤ e.stacksize) :
    RotatesAsGroup (regEnv get longDouble stack) e t r (8 * n) c c' s := by
  have hwidth : RegWidth (8 * n) := by
    have hbytes := hwhole.bytes
    unfold RegWidth
    omega
  exact rotatesAsGroup_cell t (regEnv_noHooks get longDouble stack) hr hplain
    (regEnv_cell get longDouble stack hget hwhole) rfl hwidth hc hc' hs hsum hroom

end Registers

def eaxItem : Reg.RRegItem := ⟨['e', 'a', 'x'], .gpr, 32, 0, 0, none⟩

def eaxGet (name : CStr) : Option Reg.RRegItem := if name = ['e', 'a', 'x'] then some eaxItem else none

def eaxEnv : EsilEnv Reg.RReg := regEnv eaxGet (fun _ _ => 0) (fun _ => 0)

/-- One register on an arena of eight bytes. -/
def eaxEsil : Esil Reg.RReg :=
  { anal := some ⟨64, false, 4096⟩, stack := [], stacksize := 32, skip := false,
    nowrite := false, iotrap := false, repeatFlag := false, parseStop := 0, parseGoto := 0,
    parseGotoCount := esilGotoLimitDefault, address := 0, delay := 0, jumpTarget := 0,
    jumpTargetSet := 0, trap := 0, trapCode := 0, old := 0, cur := 0, lastsz := 0,
    reil := none, mem := fun _ => 0,
    reg := ⟨none, false, fun _ => ⟨fun _ => ⟨[1, 2, 3, 0x84, 5, 6, 7, 8]⟩, 1, 0, [0], [eaxItem]⟩⟩ }

theorem operand_eax_env {c : CStr} (hc : c ∈ [['3'], ['6', '1'], ['6', '4']]) :
    Operand (rAnalEsilSetupRotates eaxEnv) c := by
  simp only [List.mem_cons, List.not_mem_nil, or_false] at hc
  rcases hc with rfl | rfl | rfl
  · exact ⟨rfl, by decide⟩
  · exact ⟨rfl, by decide⟩
  · exact ⟨rfl, by decide⟩

theorem rotate_register_eax : RotatesAsGroup eaxEnv eaxEsil .right ['e', 'a', 'x'] 32 ['3'] ['6', '1'] ['6', '4'] :=
  rotate_register eaxGet (fun _ _ => 0) (fun _ => 0) .right eaxEsil ⟨rfl, rfl, by decide, by decide⟩ rfl
    (n := 4) (q := 0) ⟨by decide, rfl, rfl, by decide⟩ (by decide) (operand_eax_env (by decide))
    (operand_eax_env (by decide)) (operand_eax_env (by decide)) (by decide) (by decide)

end Radare
