import Radare.Esil.Parse
import Radare.Framework.Memory
import Radare.Util.Endian

namespace Radare

section
variable {R : Type} (env : EsilEnv R)

/-- Destination and source, in the order they are popped. -/
def popTwo (e : Esil R) : Option CStr × Option CStr × Esil R :=
  let (dst, e) := rAnalEsilPop e
  let (src, e) := rAnalEsilPop e
  (dst, src, e)

/-- The test `s && r_anal_esil_get_parm (esil, s, &num)`. -/
def parmOf (e : Esil R) : Option CStr → Option Ut64 × Esil R
  | none => (none, e)
  | some s => rAnalEsilGetParm env e s

/-- The test `s && r_anal_esil_reg_read (esil, s, &num, NULL)`. -/
def regOf (e : Esil R) : Option CStr → Option Ut64 × Esil R
  | none => (none, e)
  | some s =>
    let (r, e) := rAnalEsilRegRead env e s
    (r.map Prod.fst, e)

def pushResult (e : Esil R) (num : Ut64) : Int × Esil R := (1, (rAnalEsilPushnum e num).2)

def setFlags (e : Esil R) (old cur : Ut64) (lastsz : Ut8) : Esil R :=
  { e with old := old, cur := cur, lastsz := lastsz }

def divByZero (e : Esil R) : Esil R := { e with trap := 3, trapCode := 0 }

/-- `esil_and`, `esil_or`, `esil_xor`, `esil_lsl` and `esil_lsr` read the destination first. -/
def esilDstFirst (f : Ut64 → Ut64 → Ut64) (e : Esil R) : Int × Esil R :=
  let (dst, src, e) := popTwo e
  match parmOf env e dst with
  | (none, e) => (0, e)
  | (some num, e) =>
    match parmOf env e src with
    | (none, e) => (0, e)
    | (some num2, e) => pushResult e (f num num2)

def esilAnd : EsilOp R := esilDstFirst env (· &&& ·)

def esilOr : EsilOp R := esilDstFirst env (· ||| ·)

def esilXor : EsilOp R := esilDstFirst env (· ^^^ ·)

def esilLsl : EsilOp R := esilDstFirst env (fun num num2 => num <<< (num2.toNat % 64))

def esilLsr : EsilOp R := esilDstFirst env (fun num num2 => num >>> (num2.toNat % 64))

/-- `esil_add` and `esil_mul` read the source first. -/
def esilSrcFirst (f : Ut64 → Ut64 → Ut64) (e : Esil R) : Int × Esil R :=
  let (dst, src, e) := popTwo e
  match parmOf env e src with
  | (none, e) => (0, e)
  | (some s, e) =>
    match parmOf env e dst with
    | (none, e) => (0, e)
    | (some d, e) => pushResult e (f d s)

def esilAdd : EsilOp R := esilSrcFirst env (fun d s => s + d)

def esilMul : EsilOp R := esilSrcFirst env (fun d s => d * s)

/-- `esil_mod` and `esil_div` trap on a zero source and still return one. -/
def esilDivision (f : Ut64 → Ut64 → Ut64) (e : Esil R) : Int × Esil R :=
  let (dst, src, e) := popTwo e
  match parmOf env e src with
  | (none, e) => (0, e)
  | (some s, e) =>
    match parmOf env e dst with
    | (none, e) => (0, e)
    | (some d, e) => if s = 0 then (1, divByZero e) else pushResult e (f d s)

def esilMod : EsilOp R := esilDivision env (fun d s => d % s)

def esilDiv : EsilOp R := esilDivision env (fun d s => d / s)

/-- `esil_sub` takes registers and numbers only. -/
def esilSub (e : Esil R) : Int × Esil R :=
  match popRN env e with
  | (none, e) => (0, e)
  | (some d, e) =>
    match popRN env e with
    | (none, e) => (0, e)
    | (some s, e) => pushResult e (d - s)

/-- `esil_inc` and `esil_dec`. -/
def esilUnary (f : Ut64 → Ut64) (e : Esil R) : Int × Esil R :=
  let (src, e) := rAnalEsilPop e
  match parmOf env e src with
  | (none, e) => (0, e)
  | (some s, e) => pushResult e (f s)

def esilInc : EsilOp R := esilUnary env (· + 1)

def esilDec : EsilOp R := esilUnary env (· - 1)

/-- The flag inputs are left alone when the source is an internal variable. -/
def setFlagsUnlessInternal (e : Esil R) (src dst : CStr) (old cur : Ut64) : Esil R :=
  if rAnalEsilGetParmType env e src = .internal then e
  else setFlags e old cur (esilInternalSizeofReg env e dst)

/-- `esil_addeq`, `esil_subeq` and `esil_muleq`: source first, then the register. -/
def esilRegEq (f : Ut64 → Ut64 → Ut64) (e : Esil R) : Int × Esil R :=
  let (dst, src, e) := popTwo e
  match parmOf env e src with
  | (none, e) => (0, e)
  | (some s, e) =>
    match regOf env e dst with
    | (none, e) => (0, e)
    | (some d, e) =>
      let e := setFlagsUnlessInternal env e (src.getD []) (dst.getD []) d (f d s)
      (1, (rAnalEsilRegWrite env e (dst.getD []) (f d s)).2)

def esilAddeq : EsilOp R := esilRegEq env (fun d s => d + s)

def esilSubeq : EsilOp R := esilRegEq env (fun d s => d - s)

def esilMuleq : EsilOp R := esilRegEq env (fun d s => d * s)

/-- `esil_andeq`, `esil_oreq` and `esil_xoreq`: the register first, then the source. -/
def esilBitEq (f : Ut64 → Ut64 → Ut64) (e : Esil R) : Int × Esil R :=
  let (dst, src, e) := popTwo e
  match regOf env e dst with
  | (none, e) => (0, e)
  | (some num, e) =>
    match parmOf env e src with
    | (none, e) => (0, e)
    | (some num2, e) =>
      let e := setFlagsUnlessInternal env e (src.getD []) (dst.getD []) num (f num num2)
      (1, (rAnalEsilRegWrite env e (dst.getD []) (f num num2)).2)

def esilAndeq : EsilOp R := esilBitEq env (· &&& ·)

def esilOreq : EsilOp R := esilBitEq env (· ||| ·)

def esilXoreq : EsilOp R := esilBitEq env (· ^^^ ·)

/-- Pushes whether the operands are equal and keeps their difference for the flags. -/
def esilCmp (e : Esil R) : Int × Esil R :=
  let (dst, src, e) := popTwo e
  match parmOf env e dst with
  | (none, e) => (0, e)
  | (some num, e) =>
    match parmOf env e src with
    | (none, e) => (0, e)
    | (some num2, e) =>
      let dst := dst.getD []
      let src := src.getD []
      let lastsz :=
        if (env.regGet e.reg dst).isSome then esilInternalSizeofReg env e dst
        else if (env.regGet e.reg src).isSome then esilInternalSizeofReg env e src
        else 64
      pushResult (setFlags e num (num - num2) lastsz) (boolNum (num = num2))

/-- The condition counts as zero only when it was read; an unread one is `uninit`. -/
def esilIf (e : Esil R) : Int × Esil R :=
  match rAnalEsilPop e with
  | (none, e) => (0, e)
  | (some src, e) =>
    let (num, e) := rAnalEsilGetParm env e src
    let num := num.getD (rReadBle64 env.uninit false)
    (1, if num = 0 then { e with skip := true } else e)

def esilBreak (e : Esil R) : Int × Esil R := (1, { e with parseStop := 1 })

def esilTodo (e : Esil R) : Int × Esil R := (1, { e with parseStop := 2 })

def esilClear (e : Esil R) : Int × Esil R := (1, { e with stack := [] })

def esilPop (e : Esil R) : Int × Esil R := (1, (rAnalEsilPop e).2)

/-- The target is cut to an `int`. -/
def esilGoto (e : Esil R) : Int × Esil R :=
  match rAnalEsilPop e with
  | (none, e) => (1, e)
  | (some src, e) =>
    if src = [] then (1, e)
    else
      match rAnalEsilGetParm env e src with
      | (none, e) => (1, e)
      | (some num, e) => (1, { e with parseGoto := wrapInt num.toInt })

/-- Without a hook `len` bytes are read from the memory behind the callback. -/
def rAnalEsilMemRead (e : Esil R) (addr : Ut64) (buf : List Ut8) : Int × List Ut8 × Esil R :=
  let hooked := match env.hookMemRead with
    | none => (none, e)
    | some hook => hook e addr buf
  match hooked with
  | (some bs, e) => (bs.length, bs, e)
  | (none, e) => (buf.length, memRead e.mem addr buf.length, e)

def rAnalEsilMemWrite (e : Esil R) (addr : Ut64) (buf : List Ut8) : Int × Esil R :=
  let (ret, e) := match env.hookMemWrite with
    | none => (0, e)
    | some hook => hook e addr buf
  if ret ≠ 0 then (ret, e)
  else if e.nowrite then (0, e)
  else (buf.length, { e with mem := memWrite e.mem addr buf })

/-- The local buffer `b[8]` before anything is stored in it. -/
def pokeBuffer : List Ut8 := (env.uninit ++ List.replicate 8 0).take 8

def esilPokeN (bits : Nat) (e : Esil R) : Int × Esil R :=
  let (dst, src, e) := popTwo e
  let bytes := min 8 (bits / 8)
  if bits % 8 ≠ 0 then (0, e)
  else
    match parmOf env e src with
    | (none, e) => (0, e)
    | (some num, e) =>
      match parmOf env e dst with
      | (none, e) => (0, e)
      | (some addr, e) =>
        let b := pokeBuffer env
        if rAnalEsilGetParmType env e (src.getD []) = .internal then
          rAnalEsilMemWrite env e addr ((rWriteBle b num e.bigEndian bits).take bytes)
        else
          let (_, got, e) := rAnalEsilMemRead env e addr (b.take bytes)
          let b := got ++ b.drop bytes
          let e := setFlags e (rReadBle64 b e.bigEndian) num (BitVec.ofNat 8 bits)
          let num := num &&& genmask (bits - 1)
          rAnalEsilMemWrite env e addr ((rWriteBle b num e.bigEndian bits).take bytes)

def esilPeekN (bits : Nat) (e : Esil R) : Int × Esil R :=
  let (dst, e) := rAnalEsilPop e
  let bytes := bits / 8
  if bits % 8 ≠ 0 then (0, e)
  else
    match dst with
    | none => (0, e)
    | some dst =>
      match isregornum env e dst with
      | (none, e) => (0, e)
      | (some addr, e) =>
        let (ret, got, e) := rAnalEsilMemRead env e addr (List.replicate bytes 0)
        let a := got ++ List.replicate (8 - bytes) 0
        let b := rReadBle64 (if e.bigEndian then rMemSwapendian a bytes else a) false
        let (_, e) := rAnalEsilPush e (hexLiteral (b &&& genmask (bits - 1)))
        (ret, { e with lastsz := BitVec.ofNat 8 bits })

end

section
variable {R : Type} (env : EsilEnv R)

def boolInt (b : Bool) : Int := if b then 1 else 0

/-- The body the read-modify-write words share: read at `dst`, apply `f` and store the result.
The reading and the storing word work on the emulator's own stack. -/
def esilMemUpdate (f : Ut64 → Ut64) (bits : Nat) (dst : Option CStr) (e : Esil R) :
    Int × Esil R :=
  let (_, e) := rAnalEsilPushOpt e dst
  let (ret, e) := esilPeekN env bits e
  let (src1, e) := rAnalEsilPop e
  match parmOf env e src1 with
  | (none, e) => (0, e)
  | (some d, e) =>
    let (_, e) := rAnalEsilPushnum e (f d)
    let (_, e) := rAnalEsilPushOpt e dst
    let (wret, e) := esilPokeN env bits e
    (boolInt (ret ≠ 0 && wret ≠ 0), e)

/-- `f` takes the old value and the source. -/
def esilMemBinopN (f : Ut64 → Ut64 → Ut64) (bits : Nat) (e : Esil R) : Int × Esil R :=
  let (dst, src0, e) := popTwo e
  match parmOf env e src0 with
  | (none, e) => (0, e)
  | (some s, e) => esilMemUpdate env (fun d => f d s) bits dst e

def esilMemOreqN : Nat → EsilOp R := esilMemBinopN env (fun d s => d ||| s)

def esilMemXoreqN : Nat → EsilOp R := esilMemBinopN env (fun d s => d ^^^ s)

def esilMemAndeqN : Nat → EsilOp R := esilMemBinopN env (fun d s => d &&& s)

def esilMemAddeqN : Nat → EsilOp R := esilMemBinopN env (fun d s => d + s)

def esilMemSubeqN : Nat → EsilOp R := esilMemBinopN env (fun d s => d - s)

def esilMemMuleqN : Nat → EsilOp R := esilMemBinopN env (fun d s => d * s)

/-- Unlike its siblings this word pushes the remainder twice and stores it once. -/
def esilMemModeqN (bits : Nat) (e : Esil R) : Int × Esil R :=
  let (dst, src0, e) := popTwo e
  match parmOf env e src0 with
  | (none, e) => (0, e)
  | (some s, e) =>
    if s = 0 then (0, divByZero e)
    else
      let (_, e) := rAnalEsilPushOpt e dst
      let (ret, e) := esilPeekN env bits e
      let (src1, e) := rAnalEsilPop e
      match parmOf env e src1 with
      | (none, e) => (0, e)
      | (some d, e) =>
        let (_, e) := rAnalEsilPushnum e (d % s)
        let (_, e) := rAnalEsilPushnum e (d % s)
        let (_, e) := rAnalEsilPushOpt e dst
        let (wret, e) := esilPokeN env bits e
        (boolInt (ret ≠ 0 && wret ≠ 0), e)

def esilMemDiveqN (bits : Nat) (e : Esil R) : Int × Esil R :=
  let (dst, src0, e) := popTwo e
  match parmOf env e src0 with
  | (none, e) => (0, e)
  | (some s, e) =>
    if s = 0 then (0, divByZero e) else esilMemUpdate env (fun d => d / s) bits dst e

/-- `esil_mem_inceq_n` and `esil_mem_deceq_n` take the address alone. -/
def esilMemUnaryN (f : Ut64 → Ut64) (bits : Nat) (e : Esil R) : Int × Esil R :=
  match rAnalEsilPop e with
  | (none, e) => (0, e)
  | (some off, e) => esilMemUpdate env f bits (some off) e

def esilMemInceqN : Nat → EsilOp R := esilMemUnaryN env (fun s => s + 1)

def esilMemDeceqN : Nat → EsilOp R := esilMemUnaryN env (fun s => s - 1)

/-- Every read-modify-write word except `*=[]` takes the width of the analysis module. -/
def withAnalBits (op : Nat → EsilOp R) (e : Esil R) : Int × Esil R := op e.bits.toNat e

def esilMemMuleq (e : Esil R) : Int × Esil R :=
  if e.bits = 64 ∨ e.bits = 32 ∨ e.bits = 16 ∨ e.bits = 8 then
    esilMemMuleqN env e.bits.toNat e
  else (0, e)

/-- The five words of one operation on memory, without a size and with each of the four sizes. -/
def sizedWords (stem : CStr) (plain : EsilOp R) (op : Nat → EsilOp R) : List (CStr × EsilOp R) :=
  [(stem ++ ['[', ']'], plain), (stem ++ ['[', '1', ']'], op 8), (stem ++ ['[', '2', ']'], op 16),
    (stem ++ ['[', '4', ']'], op 32), (stem ++ ['[', '8', ']'], op 64)]

/-- The commands of `r_anal_esil_setup_ops` that are modelled, in its order. -/
def setupOps : List (CStr × EsilOp R) :=
  [(['=', '='], esilCmp env), (['?', '{'], esilIf env), (['<', '<'], esilLsl env),
    (['>', '>'], esilLsr env), (['&'], esilAnd env), (['&', '='], esilAndeq env),
    (['|'], esilOr env), (['|', '='], esilOreq env), (['*'], esilMul env),
    (['*', '='], esilMuleq env), (['^'], esilXor env), (['^', '='], esilXoreq env),
    (['+'], esilAdd env), (['+', '='], esilAddeq env), (['+', '+'], esilInc env),
    (['-'], esilSub env), (['-', '='], esilSubeq env), (['-', '-'], esilDec env),
    (['/'], esilDiv env), (['%'], esilMod env)] ++
  sizedWords ['='] (withAnalBits (esilPokeN env)) (esilPokeN env) ++
  sizedWords ['|', '='] (withAnalBits (esilMemOreqN env)) (esilMemOreqN env) ++
  sizedWords ['^', '='] (withAnalBits (esilMemXoreqN env)) (esilMemXoreqN env) ++
  sizedWords ['&', '='] (withAnalBits (esilMemAndeqN env)) (esilMemAndeqN env) ++
  sizedWords ['+', '='] (withAnalBits (esilMemAddeqN env)) (esilMemAddeqN env) ++
  sizedWords ['-', '='] (withAnalBits (esilMemSubeqN env)) (esilMemSubeqN env) ++
  sizedWords ['%', '='] (withAnalBits (esilMemModeqN env)) (esilMemModeqN env) ++
  sizedWords ['/', '='] (withAnalBits (esilMemDiveqN env)) (esilMemDiveqN env) ++
  sizedWords ['*', '='] (esilMemMuleq env) (esilMemMuleqN env) ++
  sizedWords ['+', '+', '='] (withAnalBits (esilMemInceqN env)) (esilMemInceqN env) ++
  sizedWords ['-', '-', '='] (withAnalBits (esilMemDeceqN env)) (esilMemDeceqN env) ++
  sizedWords [] (withAnalBits (esilPeekN env)) (esilPeekN env) ++
  [(['P', 'O', 'P'], esilPop), (['T', 'O', 'D', 'O'], esilTodo),
    (['G', 'O', 'T', 'O'], esilGoto env), (['B', 'R', 'E', 'A', 'K'], esilBreak),
    (['C', 'L', 'E', 'A', 'R'], esilClear)]

/-- The table is keyed by the hash of the word; a later entry replaces an earlier one. -/
def opTable (ops : List (CStr × EsilOp R)) (hash : Ut32) : Option (EsilOp R) :=
  (ops.reverse.find? (fun op => sdbHash op.1 = hash)).map Prod.snd

/-- The environment after `r_anal_esil_setup_ops`. -/
def rAnalEsilSetupOps : EsilEnv R := { env with ops := opTable (setupOps env) }

end

section
variable {R : Type}

/-- Where no two words share a hash, each word finds its own operation. -/
theorem opTable_of_mem (ops : List (CStr × EsilOp R))
    (hnd : (ops.map (fun op => sdbHash op.1)).Nodup) {word : CStr} {op : EsilOp R}
    (h : (word, op) ∈ ops) : opTable ops (sdbHash word) = some op := by
  have hs : (ops.reverse.find? (fun op => sdbHash op.1 = sdbHash word)).isSome := by
    rw [List.find?_isSome]
    exact ⟨(word, op), by simpa using h, by simp⟩
  obtain ⟨p, hp⟩ := Option.isSome_iff_exists.mp hs
  have hm : p ∈ ops := by simpa using List.mem_of_find?_eq_some hp
  have hh : sdbHash p.1 = sdbHash word := by simpa using List.find?_some hp
  have he : p = (word, op) := List.inj_on_of_nodup_map hnd hm h hh
  rw [opTable, hp, he]
  rfl

end

def sizedNames (stem : CStr) : List CStr :=
  [stem ++ ['[', ']'], stem ++ ['[', '1', ']'], stem ++ ['[', '2', ']'], stem ++ ['[', '4', ']'],
    stem ++ ['[', '8', ']']]

/-- The words of the table, without their operations. -/
def setupWords : List CStr :=
  [['=', '='], ['?', '{'], ['<', '<'], ['>', '>'], ['&'], ['&', '='], ['|'], ['|', '='], ['*'],
    ['*', '='], ['^'], ['^', '='], ['+'], ['+', '='], ['+', '+'], ['-'], ['-', '='], ['-', '-'],
    ['/'], ['%']] ++
  [['='], ['|', '='], ['^', '='], ['&', '='], ['+', '='], ['-', '='], ['%', '='], ['/', '='],
    ['*', '='], ['+', '+', '='], ['-', '-', '='], []].flatMap sizedNames ++
  [['P', 'O', 'P'], ['T', 'O', 'D', 'O'], ['G', 'O', 'T', 'O'], ['B', 'R', 'E', 'A', 'K'],
    ['C', 'L', 'E', 'A', 'R']]

/-- Each number is new. -/
def allNew : List Nat → Bool
  | [] => true
  | n :: l => !l.elem n && allNew l

theorem nodup_of_allNew {l : List Nat} (h : allNew l = true) : l.Nodup := by
  induction l with
  | nil => exact List.nodup_nil
  | cons n l ih =>
    rw [allNew, Bool.and_eq_true, Bool.not_eq_true', List.elem_eq_contains, List.contains_eq_mem,
      decide_eq_false_iff_not] at h
    exact List.nodup_cons.mpr ⟨h.1, ih h.2⟩

theorem nodup_of_hashes {words : List CStr} (h : allNew (words.map fun w => (sdbHash w).toNat) = true) :
    (words.map sdbHash).Nodup := by
  have hnodup := nodup_of_allNew h
  rw [← Function.comp_def, ← List.map_map] at hnodup
  exact hnodup.of_map BitVec.toNat

theorem setupWords_hash_nodup : (setupWords.map sdbHash).Nodup := nodup_of_hashes (by decide)

section
variable {R : Type} (env : EsilEnv R)

theorem setupOps_words : (setupOps env).map Prod.fst = setupWords := by
  simp [setupOps, setupWords, sizedWords, sizedNames]

theorem setupOps_hash_nodup : ((setupOps env).map (fun op => sdbHash op.1)).Nodup := by
  have hm : (setupOps env).map (fun op => sdbHash op.1) = setupWords.map sdbHash := by
    rw [← setupOps_words env, List.map_map]
    rfl
  rw [hm]
  exact setupWords_hash_nodup

theorem setupOps_hookCommand : (rAnalEsilSetupOps env).hookCommand = env.hookCommand := by
  simp only [rAnalEsilSetupOps]

/-- No two of the commands collide, so every command word runs its own operation. -/
theorem iscommand_setupOps {word : CStr} {op : EsilOp R} (h : (word, op) ∈ setupOps env) :
    iscommand (rAnalEsilSetupOps env) word = some op := by
  have ht := opTable_of_mem (setupOps env) (setupOps_hash_nodup env) h
  simp only [iscommand, rAnalEsilSetupOps, ht]

end

/-- The mask of bit `k` keeps the bits up to and including `k`, also where its shift overflows. -/
theorem genmask_toNat (k : Nat) (hk : k < 64) : (genmask k).toNat = 2 ^ (k + 1) - 1 := by
  have h : ∀ k : Fin 64, (genmask (k.val : Int)).toNat = 2 ^ (k.val + 1) - 1 := by decide
  exact h ⟨k, hk⟩

theorem and_genmask_toNat (x : Ut64) (k : Nat) (hk : k < 64) :
    (x &&& genmask k).toNat = x.toNat % 2 ^ (k + 1) := by
  rw [BitVec.toNat_and, genmask_toNat k hk, Nat.and_two_pow_sub_one_eq_mod]

theorem isParmNumber_hexLiteral (n : Ut64) : isParmNumber (hexLiteral n) = true := by
  simp [isParmNumber, hexLiteral]

/-- A number starts with a digit or with a minus sign. -/
theorem isParmNumber_head {c : Char} {cs : CStr} (h : isParmNumber (c :: cs) = true) :
    isDigitChar c = true ∨ c = '-' := by
  simp only [isParmNumber, Bool.or_eq_true, Bool.and_eq_true, decide_eq_true_eq] at h
  rcases h with h | h
  · have hc : '0' = c := by
      simp only [List.isPrefixOf, Bool.and_eq_true, beq_iff_eq] at h
      exact h.1
    subst hc
    exact Or.inl rfl
  · exact h.1

section
variable {R : Type} (env : EsilEnv R)

/-- No hook and no tracer sees the registers, the flags and the memory. -/
structure EsilEnv.NoHooks : Prop where
  command : env.hookCommand = none
  flagRead : env.hookFlagRead = none
  regRead : env.hookRegRead = none
  regWrite : env.hookRegWrite = none
  memRead : env.hookMemRead = none
  memWrite : env.hookMemWrite = none

/-- Without hooks a command word runs its operation. -/
theorem runCommand_setupOps (henv : env.NoHooks) (e : Esil R) {word : CStr} {op : EsilOp R}
    (h : (word, op) ∈ setupOps env) : runCommand (rAnalEsilSetupOps env) e word = op e := by
  simp only [runCommand, iscommand_setupOps env h, setupOps_hookCommand, henv.command]

/-- No register has the name of a number. -/
def NumbersAreNoRegs (r : R) : Prop := ∀ str, isParmNumber str = true → env.regGet r str = none

theorem getParmType_number (e : Esil R) {str : CStr} (h : isParmNumber str = true) :
    rAnalEsilGetParmType env e str = .num := by
  cases str with
  | nil => exact absurd h (by decide)
  | cons c cs =>
    have hc : c ≠ '$' := by
      rintro rfl
      exact absurd (isParmNumber_head h) (by decide)
    simp [rAnalEsilGetParmType, hc, h]

theorem getParm_number (e : Esil R) {str : CStr} (h : isParmNumber str = true) :
    rAnalEsilGetParm env e str = (some (rNumGet str), e) := by
  simp [rAnalEsilGetParm, rAnalEsilGetParmSize, getParmType_number env e h]

theorem parmOf_number (e : Esil R) {str : CStr} (h : isParmNumber str = true) :
    parmOf env e (some str) = (some (rNumGet str), e) := getParm_number env e h

theorem parmOf_hexLiteral (e : Esil R) (n : Ut64) :
    parmOf env e (some (hexLiteral n)) = (some n, e) := by
  rw [parmOf_number env e (isParmNumber_hexLiteral n), rNumGet_hexLiteral]

theorem isInternalName_number {str : CStr} (h : isParmNumber str = true) :
    isInternalName str = false := by
  unfold isInternalName
  split
  · exact absurd (isParmNumber_head h) (by decide)
  · rfl

theorem regRead_number (hh : env.hookRegRead = none) (e : Esil R)
    (hr : NumbersAreNoRegs env e.reg) {str : CStr} (h : isParmNumber str = true) :
    rAnalEsilRegRead env e str = (none, e) := by
  simp [rAnalEsilRegRead, isInternalName_number h, hh, hr str h]

/-- `isregornum` takes a number only where it starts with a digit. -/
theorem isregornum_number (hh : env.hookRegRead = none) (e : Esil R)
    (hr : NumbersAreNoRegs env e.reg) {str : CStr} (h : isParmNumber str = true) :
    isregornum env e str =
      (if str.head? = some '-' then none else some (rNumGet str), e) := by
  rw [isregornum, regRead_number env hh e hr h]
  cases str with
  | nil => exact absurd h (by decide)
  | cons c cs =>
    rcases isParmNumber_head h with hc | rfl
    · have hm : c ≠ '-' := by
        rintro rfl
        exact absurd hc (by decide)
      simp [isnum, hc, hm]
    · simp [isnum, isDigitChar]

def Esil.withStack (e : Esil R) (stack : List CStr) : Esil R := { e with stack := stack }

@[simp] theorem Esil.withStack_stack (e : Esil R) (st : List CStr) : (e.withStack st).stack = st :=
  rfl

@[simp] theorem Esil.withStack_withStack (e : Esil R) (st st' : List CStr) :
    (e.withStack st).withStack st' = e.withStack st' := rfl

@[simp] theorem Esil.withStack_mem (e : Esil R) (st : List CStr) : (e.withStack st).mem = e.mem :=
  rfl

@[simp] theorem Esil.withStack_reg (e : Esil R) (st : List CStr) : (e.withStack st).reg = e.reg :=
  rfl

@[simp] theorem Esil.withStack_stacksize (e : Esil R) (st : List CStr) :
    (e.withStack st).stacksize = e.stacksize := rfl

@[simp] theorem Esil.withStack_bigEndian (e : Esil R) (st : List CStr) :
    (e.withStack st).bigEndian = e.bigEndian := rfl

@[simp] theorem Esil.withStack_nowrite (e : Esil R) (st : List CStr) :
    (e.withStack st).nowrite = e.nowrite := rfl

theorem pop_cons (e : Esil R) {str : CStr} {rest : List CStr} (h : e.stack = str :: rest) :
    rAnalEsilPop e = (some str, e.withStack rest) := by
  simp only [rAnalEsilPop, h, Esil.withStack]

theorem popTwo_cons (e : Esil R) {dst src : CStr} {rest : List CStr}
    (h : e.stack = dst :: src :: rest) :
    popTwo e = (some dst, some src, e.withStack rest) := by
  rw [popTwo, pop_cons e h]
  simp only [pop_cons (e.withStack (src :: rest)) rfl, Esil.withStack_withStack]

theorem push_of_room (e : Esil R) {str : CStr} (hs : str ≠ [])
    (hroom : (e.stack.length : Int) < e.stacksize) :
    rAnalEsilPush e str = (true, e.withStack (str :: e.stack)) := by
  rw [rAnalEsilPush, if_neg (not_or.mpr ⟨hs, by omega⟩), Esil.withStack]

theorem pushnum_of_room (e : Esil R) (num : Ut64) (hroom : (e.stack.length : Int) < e.stacksize) :
    rAnalEsilPushnum e num = (true, e.withStack (hexLiteral num :: e.stack)) :=
  push_of_room e (List.cons_ne_nil _ _) hroom

theorem number_ne_nil {str : CStr} (h : isParmNumber str = true) : str ≠ [] := by
  rintro rfl
  exact absurd h (by decide)

end

end Radare
