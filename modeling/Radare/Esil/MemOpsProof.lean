import Radare.Esil.MemOps

namespace Radare

/-- The value a memory stores at an address in the given byte order. -/
def memValue (bigEndian : Bool) (m : Ut64 → Ut8) (a : Ut64) (bytes : Nat) : Nat :=
  leNat (orient bigEndian (memRead m a bytes))

/-- The four widths of the sized memory words. -/
inductive MemWidth where
  | w1
  | w2
  | w4
  | w8
  deriving DecidableEq

def MemWidth.bytes : MemWidth → Nat
  | .w1 => 1
  | .w2 => 2
  | .w4 => 4
  | .w8 => 8

def MemWidth.bits (w : MemWidth) : Nat := 8 * w.bytes

def MemWidth.digit : MemWidth → Char
  | .w1 => '1'
  | .w2 => '2'
  | .w4 => '4'
  | .w8 => '8'

def MemWidth.suffix (w : MemWidth) : CStr := ['[', w.digit, ']']

theorem memValue_lt (be : Bool) (m : Ut64 → Ut8) (a : Ut64) (bytes : Nat) :
    memValue be m a bytes < 256 ^ bytes := by
  have h := leNat_lt (orient be (memRead m a bytes))
  rwa [orient_length, memRead_length] at h

theorem MemWidth.two_pow_bits (w : MemWidth) : 2 ^ w.bits = 256 ^ w.bytes := by
  cases w <;> rfl

theorem memValue_lt_bits (be : Bool) (m : Ut64 → Ut8) (a : Ut64) (w : MemWidth) :
    memValue be m a w.bytes < 2 ^ w.bits := by
  rw [w.two_pow_bits]
  exact memValue_lt be m a w.bytes

theorem MemWidth.pow_bits_le (w : MemWidth) : 2 ^ w.bits ≤ 2 ^ 64 := by
  cases w <;> decide

/-- A stored number is loaded with the bits that fit. -/
theorem memValue_memWrite (be : Bool) (m : Ut64 → Ut8) (a : Ut64) (bytes v : Nat)
    (hb : bytes ≤ 8) :
    memValue be (memWrite m a (orient be (leBytes bytes v))) a bytes = v % 256 ^ bytes := by
  have hl : (orient be (leBytes bytes v)).length = bytes := by rw [orient_length, leBytes_length]
  have hr := memRead_memWrite m a (orient be (leBytes bytes v)) (by omega)
  rw [hl] at hr
  rw [memValue, hr, orient_orient, leNat_leBytes]

section
variable {R : Type} (env : EsilEnv R)

theorem rMemSwapendian_append (bs cs : List Ut8) (w : MemWidth) (hl : bs.length = w.bytes) :
    rMemSwapendian (bs ++ cs) w.bytes = bs.reverse ++ cs := by
  have hw : w.bytes = 1 ∨ w.bytes = 2 ∨ w.bytes = 4 ∨ w.bytes = 8 := by cases w <;> decide
  rw [rMemSwapendian, if_pos hw, ← hl, List.take_left, List.drop_left]

/-- Loading pads the bytes in the order of the host and swaps them for a big-endian target. -/
theorem load_padded (be : Bool) (m : Ut64 → Ut8) (a : Ut64) (w : MemWidth) :
    rReadBle64 (if be then
        rMemSwapendian (memRead m a w.bytes ++ List.replicate (8 - w.bytes) 0) w.bytes
      else memRead m a w.bytes ++ List.replicate (8 - w.bytes) 0) false =
      BitVec.ofNat 64 (memValue be m a w.bytes) := by
  have hl := memRead_length m a w.bytes
  have hb : w.bytes ≤ 8 := by cases w <;> decide
  have he : (if be then
        rMemSwapendian (memRead m a w.bytes ++ List.replicate (8 - w.bytes) 0) w.bytes
      else memRead m a w.bytes ++ List.replicate (8 - w.bytes) 0) =
      orient be (memRead m a w.bytes) ++ List.replicate (8 - w.bytes) 0 := by
    rw [rMemSwapendian_append _ _ w hl]
    cases be <;> rfl
  have h8 : (orient be (memRead m a w.bytes) ++ List.replicate (8 - w.bytes) (0 : Ut8)).length =
      8 := by
    rw [List.length_append, orient_length, hl, List.length_replicate]
    omega
  rw [he, rReadBle64, List.take_of_length_le (by omega)]
  simp only [orient, Bool.false_eq_true, if_false]
  rw [leNat_append_zeros]
  rfl

theorem ofNat_and_genmask (w : MemWidth) (v : Nat) (hv : v < 2 ^ w.bits) :
    BitVec.ofNat 64 v &&& genmask ((w.bits : Int) - 1) = BitVec.ofNat 64 v := by
  have hk : ((w.bits : Int) - 1) = ((w.bits - 1 : Nat) : Int) := by cases w <;> rfl
  have hs : w.bits - 1 + 1 = w.bits := by cases w <;> rfl
  apply BitVec.eq_of_toNat_eq
  rw [hk, and_genmask_toNat _ _ (by cases w <;> decide), hs, BitVec.toNat_ofNat,
    Nat.mod_eq_of_lt (lt_of_lt_of_le hv w.pow_bits_le), Nat.mod_eq_of_lt hv]

/-- The state after a word of width `w` has loaded a value. -/
def Esil.loaded (e : Esil R) (w : MemWidth) (stack : List CStr) : Esil R :=
  { e.withStack stack with lastsz := BitVec.ofNat 8 w.bits }

/-- The value found at an address, as a machine number. -/
def Esil.valueAt (e : Esil R) (a : Ut64) (w : MemWidth) : Ut64 :=
  BitVec.ofNat 64 (memValue e.bigEndian e.mem a w.bytes)

@[simp] theorem Esil.valueAt_withStack (e : Esil R) (st : List CStr) (a : Ut64) (w : MemWidth) :
    (e.withStack st).valueAt a w = e.valueAt a w := rfl

@[simp] theorem Esil.loaded_withStack (e : Esil R) (st st' : List CStr) (w : MemWidth) :
    (e.withStack st).loaded w st' = e.loaded w st' := rfl

@[simp] theorem Esil.withStack_loaded (e : Esil R) (st st' : List CStr) (w : MemWidth) :
    (e.loaded w st).withStack st' = e.loaded w st' := rfl

@[simp] theorem Esil.loaded_stack (e : Esil R) (st : List CStr) (w : MemWidth) :
    (e.loaded w st).stack = st := rfl

@[simp] theorem Esil.loaded_stacksize (e : Esil R) (st : List CStr) (w : MemWidth) :
    (e.loaded w st).stacksize = e.stacksize := rfl

/-- The word `[n]` replaces a number by the value stored at that address. -/
theorem peek_spec (henv : env.NoHooks) (e : Esil R) (hr : NumbersAreNoRegs env e.reg)
    (w : MemWidth) {a : CStr} {rest : List CStr} (hstack : e.stack = a :: rest)
    (ha : isParmNumber a = true) (hneg : a.head? ≠ some '-')
    (hroom : (rest.length : Int) < e.stacksize) :
    esilPeekN env w.bits e = ((w.bytes : Int),
      e.loaded w (hexLiteral (e.valueAt (rNumGet a) w) :: rest)) := by
  have h8 : w.bits % 8 = 0 := by cases w <;> rfl
  have hb : w.bits / 8 = w.bytes := by cases w <;> rfl
  have hrn := isregornum_number env henv.regRead (e.withStack rest) hr ha
  rw [if_neg hneg] at hrn
  have hpush := pushnum_of_room (e.withStack rest) (e.valueAt (rNumGet a) w) hroom
  simp only [esilPeekN, pop_cons e hstack, h8, hb, ne_eq, not_true, if_false, hrn,
    rAnalEsilMemRead, henv.memRead, List.length_replicate, load_padded,
    ofNat_and_genmask w _ (memValue_lt_bits _ _ _ w), Esil.withStack_mem,
    Esil.withStack_bigEndian]
  rw [rAnalEsilPushnum, Esil.valueAt] at hpush
  rw [hpush]
  rfl

/-- An address with a minus sign is popped and refused. -/
theorem peek_negative (henv : env.NoHooks) (e : Esil R) (hr : NumbersAreNoRegs env e.reg)
    (w : MemWidth) {a : CStr} {rest : List CStr} (hstack : e.stack = a :: rest)
    (ha : isParmNumber a = true) (hneg : a.head? = some '-') :
    esilPeekN env w.bits e = (0, e.withStack rest) := by
  have h8 : w.bits % 8 = 0 := by cases w <;> rfl
  have hrn := isregornum_number env henv.regRead (e.withStack rest) hr ha
  rw [if_pos hneg] at hrn
  simp only [esilPeekN, pop_cons e hstack, h8, ne_eq, not_true, if_false, hrn]

theorem writeBle_take (b : List Ut8) (v : Ut64) (be : Bool) (w : MemWidth) :
    (rWriteBle b v be w.bits).take w.bytes = orient be (leBytes w.bytes v.toNat) := by
  have hw : w.bits = 8 ∨ w.bits = 16 ∨ w.bits = 32 ∨ w.bits = 64 := by cases w <;> decide
  have hb : w.bits / 8 = w.bytes := by cases w <;> rfl
  have hl : (orient be (leBytes w.bytes v.toNat)).length = w.bytes := by
    rw [orient_length, leBytes_length]
  rw [rWriteBle, if_pos hw, hb]
  exact List.take_left' hl

/-- The state after a word of width `w` has stored `v` at `a`. -/
def Esil.stored (e : Esil R) (w : MemWidth) (a v old : Ut64) : Esil R :=
  { setFlags e old v (BitVec.ofNat 8 w.bits) with
    mem := memWrite e.mem a (orient e.bigEndian (leBytes w.bytes (v.toNat % 2 ^ w.bits))) }

/-- The local buffer of `=[n]` after the old bytes were read into its front. -/
def oldBuffer (e : Esil R) (w : MemWidth) (a : Ut64) : List Ut8 :=
  memRead e.mem a w.bytes ++ (pokeBuffer env).drop w.bytes

/-- The word `=[n]` stores the low bits of its second operand and keeps the rest of the stack. -/
theorem poke_number (henv : env.NoHooks) (e : Esil R) (hnw : e.nowrite = false) (w : MemWidth)
    {a s : CStr} {rest : List CStr} (hstack : e.stack = a :: s :: rest) (ha : isParmNumber a = true)
    (hs : isParmNumber s = true) :
    esilPokeN env w.bits e = ((w.bytes : Int), (e.withStack rest).stored w (rNumGet a) (rNumGet s)
      (rReadBle64 (oldBuffer env e w (rNumGet a)) e.bigEndian)) := by
  have h8 : w.bits % 8 = 0 := by cases w <;> rfl
  have hb : min 8 (w.bits / 8) = w.bytes := by cases w <;> rfl
  have hk : ((w.bits : Int) - 1) = ((w.bits - 1 : Nat) : Int) := by cases w <;> rfl
  have hbits : w.bits - 1 + 1 = w.bits := by cases w <;> rfl
  have hm : (rNumGet s &&& genmask ((w.bits : Int) - 1)).toNat = (rNumGet s).toNat % 2 ^ w.bits := by
    rw [hk, and_genmask_toNat _ _ (by cases w <;> decide), hbits]
  have hl : (orient e.bigEndian (leBytes w.bytes ((rNumGet s).toNat % 2 ^ w.bits))).length = w.bytes := by
    rw [orient_length, leBytes_length]
  have ht := getParmType_number env (e.withStack rest) hs
  have htake : ((pokeBuffer env).take w.bytes).length = w.bytes := by
    have h : w.bytes ≤ 8 := by cases w <;> decide
    simp [pokeBuffer]
    omega
  simp only [esilPokeN, popTwo_cons e hstack, h8, hb, ne_eq, not_true, if_false,
    parmOf_number env _ hs, parmOf_number env _ ha, Option.getD_some, ht, reduceCtorEq,
    rAnalEsilMemRead, henv.memRead, htake]
  simp only [rAnalEsilMemWrite, henv.memWrite, writeBle_take, hm, if_false, setFlags,
    Esil.withStack, hnw, Bool.false_eq_true]
  change ((((orient e.bigEndian (leBytes w.bytes ((rNumGet s).toNat % 2 ^ w.bits))).length : Nat) : Int), _) =
    _
  rw [hl]
  rfl

theorem poke_spec (henv : env.NoHooks) (e : Esil R) (hnw : e.nowrite = false) (w : MemWidth)
    {a : CStr} {v : Ut64} {rest : List CStr} (hstack : e.stack = a :: hexLiteral v :: rest)
    (ha : isParmNumber a = true) :
    ∃ old : Ut64, esilPokeN env w.bits e =
      ((w.bytes : Int), (e.withStack rest).stored w (rNumGet a) v old) := by
  have h := poke_number env henv e hnw w hstack ha (isParmNumber_hexLiteral v)
  rw [rNumGet_hexLiteral] at h
  exact ⟨_, h⟩

theorem MemWidth.bytes_ne_zero (w : MemWidth) : (w.bytes : Int) ≠ 0 := by cases w <;> decide

/-- Reading, computing and storing leaves the stack as it was and updates the one value. -/
theorem memUpdate_spec (henv : env.NoHooks) (e : Esil R) (hr : NumbersAreNoRegs env e.reg)
    (hnw : e.nowrite = false) (f : Ut64 → Ut64) (w : MemWidth) {a : CStr}
    (ha : isParmNumber a = true) (hneg : a.head? ≠ some '-')
    (hroom : (e.stack.length : Int) + 2 ≤ e.stacksize) :
    ∃ old : Ut64, esilMemUpdate env f w.bits (some a) e =
      (1, e.stored w (rNumGet a) (f (e.valueAt (rNumGet a) w)) old) := by
  have hpush := push_of_room e (number_ne_nil ha) (by omega)
  have hpeek := peek_spec env henv (e.withStack (a :: e.stack)) hr w rfl ha hneg
    (by rw [Esil.withStack_stacksize]; omega)
  have hpop (x : CStr) := pop_cons (e.loaded w (x :: e.stack)) rfl
  have hnum (v : Ut64) := pushnum_of_room (e.loaded w e.stack) v
    (by rw [Esil.loaded_stack, Esil.loaded_stacksize]; omega)
  have hpush2 (x : CStr) := push_of_room (e.loaded w (x :: e.stack)) (number_ne_nil ha)
    (by rw [Esil.loaded_stack, Esil.loaded_stacksize, List.length_cons]; omega)
  obtain ⟨old, hpoke⟩ := poke_spec env henv
    (e.loaded w (a :: hexLiteral (f (e.valueAt (rNumGet a) w)) :: e.stack)) hnw w rfl ha
  refine ⟨old, ?_⟩
  simp only [Esil.valueAt_withStack, Esil.loaded_withStack] at hpeek
  simp only [Esil.withStack_loaded, Esil.loaded_stack] at hpop hnum hpush2 hpoke
  simp only [esilMemUpdate, rAnalEsilPushOpt, hpush, hpeek, hpop, parmOf_hexLiteral, hnum, hpush2,
    hpoke]
  simp only [ne_eq, w.bytes_ne_zero, not_false_eq_true, decide_true, Bool.and_self, boolInt,
    if_true]
  rfl

/-- A refused address makes the whole word fail, whatever is left on the stack. -/
theorem memUpdate_negative (henv : env.NoHooks) (e : Esil R) (hr : NumbersAreNoRegs env e.reg)
    (f : Ut64 → Ut64) (w : MemWidth) {a : CStr} (ha : isParmNumber a = true)
    (hneg : a.head? = some '-') (hroom : (e.stack.length : Int) + 2 ≤ e.stacksize) :
    (esilMemUpdate env f w.bits (some a) e).1 = 0 := by
  have hpush := push_of_room e (number_ne_nil ha) (by omega)
  have hpeek := peek_negative env henv (e.withStack (a :: e.stack)) hr w rfl ha hneg
  simp only [esilMemUpdate, rAnalEsilPushOpt, hpush, hpeek]
  split
  · rfl
  · simp [boolInt]

end

end Radare
