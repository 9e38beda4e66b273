import Radare.Framework.ReflectedCrc
import Radare.Util.Endian
import Mathlib.Tactic.Ring

namespace Radare

open Framework.Crc

/-- What is static in `r_hash_crc32`: `crc_table_is_init` and `crc_table`. -/
structure Crc32Static where
  crcTableIsInit : Bool
  crcTable : List Ut32

/-- Before the first call. -/
def crc32Static : Crc32Static := ⟨false, List.replicate 256 0⟩

def crc32Poly : Ut32 := 0xedb88320

/-- The inner loop of the table: `j` goes on by `2 * i`. -/
def fillFrom (h : Ut32) (i : Nat) : Nat → Nat → List Ut32 → Option (List Ut32)
  | 0, _, _ => none
  | turns + 1, j, crcTable =>
    if j < 256 then do
      let c ← crcTable[j]?
      if i + j < crcTable.length then fillFrom h i turns (j + 2 * i) (crcTable.set (i + j) (c ^^^ h))
      else none
    else some crcTable

/-- The outer loop of the table: `i` goes down to its half. -/
def fillTable : Nat → Nat → Ut32 → List Ut32 → Option (List Ut32)
  | 0, _, _, _ => none
  | turns + 1, i, h, crcTable =>
    if i = 0 then some crcTable
    else do
      let h := (h >>> 1) ^^^ (if h &&& 1 ≠ 0 then crc32Poly else 0)
      let crcTable ← fillFrom h i 129 0 crcTable
      fillTable turns (i / 2) h crcTable

def crc32Loop (crcTable : List Ut32) : Nat → List Ut8 → Ut32 → Option Ut32
  | 0, _, crc => some crc
  | _ + 1, [], _ => none
  | len + 1, b :: buf, crc => do
    let t ← crcTable[((crc ^^^ b.setWidth 32) &&& 0xff).toNat]?
    crc32Loop crcTable len buf ((crc >>> 8) ^^^ t)

/-- `r_write_le32`. -/
def rWriteLe32 (val : Ut32) : List Ut8 := leBytes 4 val.toNat

/-- `r_read_le32`. -/
def rReadLe32 (src : List Ut8) : Ut32 := BitVec.ofNat 32 (leNat (src.take 4))

/-- `r_hash_crc32`, with what it leaves static; `none` stands for an access outside the table or the buffer. -/
def rHashCrc32 (st : Crc32Static) (buf : List Ut8) (len : Ut64) : Option (Crc32Static × Ut32) := do
  let st ← if st.crcTableIsInit then some st
    else (fillTable 9 128 1 (st.crcTable.set 0 0)).map (fun crcTable => ⟨true, crcTable⟩)
  let crc ← crc32Loop st.crcTable len.toNat buf (0 ^^^ BitVec.allOnes 32)
  some (st, rReadLe32 (rWriteLe32 (crc ^^^ BitVec.allOnes 32)))

/-- Calls one after the other, with their results. -/
def rHashCrc32Calls : Crc32Static → List (List Ut8 × Ut64) → Option (Crc32Static × List Ut32)
  | st, [] => some (st, [])
  | st, (buf, len) :: calls => do
    let (st, crc) ← rHashCrc32 st buf len
    let (st, crcs) ← rHashCrc32Calls st calls
    some (st, crc :: crcs)

/-- The reflected CRC-32, bit after bit. -/
def crc32 (buf : List Ut8) : Ut32 :=
  crcBits crc32Poly (BitVec.allOnes 32) (buf.flatMap blockBits) ^^^ BitVec.allOnes 32

/-- The entry of a byte: its eight steps. -/
def crcEntry (v : Nat) : Ut32 := crcSteps crc32Poly 8 (BitVec.ofNat 32 v)

/-- The entries of the multiples of `2 ^ m` are there. -/
structure Filled (m : Nat) (crcTable : List Ut32) : Prop where
  length : crcTable.length = 256
  entries : ∀ v < 256, 2 ^ m ∣ v → crcTable[v]? = some (crcEntry v)

theorem ofNat_add_twoPow (m q : Nat) :
    BitVec.ofNat 32 (2 ^ m + 2 ^ (m + 1) * q) = BitVec.ofNat 32 (2 ^ (m + 1) * q) ^^^ BitVec.ofNat 32 (2 ^ m) := by
  have hlt : 2 ^ m < 2 ^ (m + 1) := Nat.pow_lt_pow_right (by omega) (Nat.lt_succ_self m)
  apply BitVec.eq_of_getLsbD_eq
  intro i hi
  simp only [BitVec.getLsbD_xor, BitVec.getLsbD_ofNat, hi, decide_true, Bool.true_and]
  rw [Nat.add_comm, Nat.testBit_two_pow_mul_add _ hlt, Nat.testBit_two_pow_mul, Nat.testBit_two_pow]
  by_cases hbit : i < m + 1
  · simp [hbit, Nat.not_le_of_gt hbit]
  · simp [hbit, Nat.le_of_not_lt hbit, show ¬m = i by omega]

/-- An entry is linear. -/
theorem crcEntry_add (m q : Nat) : crcEntry (2 ^ m + 2 ^ (m + 1) * q) = crcEntry (2 ^ (m + 1) * q) ^^^ crcEntry (2 ^ m) := by
  rw [crcEntry, ofNat_add_twoPow, crcSteps_xor]
  rfl

theorem crcEntry_zero : crcEntry 0 = 0 := by
  rw [crcEntry, crcSteps_low_zero]
  · exact BitVec.zero_ushiftRight
  · intro i hi
    simp

/-- The number that is added in the round of `2 ^ m`. -/
theorem crcEntry_twoPow {m : Nat} (hm : m < 8) : crcEntry (2 ^ m) = crcSteps crc32Poly (8 - m) 1 := by
  have hbit : BitVec.ofNat 32 (2 ^ m) = bitAt m true := by
    apply BitVec.eq_of_getLsbD_eq
    intro i hi
    rw [BitVec.getLsbD_ofNat, getLsbD_bitAt (by omega), Nat.testBit_two_pow]
    simp [hi, eq_comm]
  rw [crcEntry, show 8 = 8 - m + m by omega, crcSteps_add, hbit, crcSteps_bitAt _ (by omega), Nat.add_sub_cancel]
  rfl

/-- What the round of `2 ^ m` fills in are the odd multiples of it. -/
theorem Filled.halve {m q : Nat} {crcTable : List Ut32} (h : Filled (m + 1) crcTable) (hend : 256 ≤ 2 ^ (m + 1) * q)
    (hdone : ∀ k < q, 2 ^ m + 2 ^ (m + 1) * k < 256 →
      crcTable[2 ^ m + 2 ^ (m + 1) * k]? = some (crcEntry (2 ^ m + 2 ^ (m + 1) * k))) : Filled m crcTable := by
  refine ⟨h.length, fun v hv hdvd => ?_⟩
  obtain ⟨c, rfl⟩ := hdvd
  rcases Nat.even_or_odd' c with ⟨k, rfl | rfl⟩
  · exact h.entries _ hv ⟨k, by ring⟩
  · have hodd : 2 ^ m * (2 * k + 1) = 2 ^ m + 2 ^ (m + 1) * k := by ring
    rw [hodd] at hv ⊢
    have hk : 2 ^ (m + 1) * k < 2 ^ (m + 1) * q := ((Nat.le_add_left _ _).trans_lt hv).trans_le hend
    exact hdone k (Nat.lt_of_mul_lt_mul_left hk) hv

theorem twoPow_add_injective {m j k : Nat} (h : 2 ^ m + 2 ^ (m + 1) * j = 2 ^ m + 2 ^ (m + 1) * k) : j = k :=
  Nat.eq_of_mul_eq_mul_left (Nat.two_pow_pos (m + 1)) (Nat.add_left_cancel h)

theorem not_dvd_twoPow_add (m q : Nat) : ¬2 ^ (m + 1) ∣ 2 ^ m + 2 ^ (m + 1) * q := by
  intro h
  have hdvd : 2 ^ (m + 1) ∣ 2 ^ m := (Nat.dvd_add_left (Nat.dvd_mul_right _ q)).mp h
  have hle := Nat.le_of_dvd (Nat.two_pow_pos m) hdvd
  rw [pow_succ] at hle
  have hpos := Nat.two_pow_pos m
  omega

/-- The inner loop: the entry behind `j` is that of `j` with the number of the round added. -/
theorem fillFrom_filled {m : Nat} (hm : m < 8) (turns q : Nat) (crcTable : List Ut32)
    (hturns : 256 ≤ 2 ^ (m + 1) * (q + turns)) (h : Filled (m + 1) crcTable)
    (hdone : ∀ k < q, 2 ^ m + 2 ^ (m + 1) * k < 256 →
      crcTable[2 ^ m + 2 ^ (m + 1) * k]? = some (crcEntry (2 ^ m + 2 ^ (m + 1) * k))) :
    ∃ crcTable', fillFrom (crcEntry (2 ^ m)) (2 ^ m) (turns + 1) (2 ^ (m + 1) * q) crcTable = some crcTable' ∧
      Filled m crcTable' := by
  have htwice : 2 * 2 ^ m = 2 ^ (m + 1) := by rw [pow_succ, Nat.mul_comm]
  induction turns generalizing q crcTable with
  | zero => exact ⟨crcTable, if_neg (Nat.not_lt.mpr hturns), h.halve hturns hdone⟩
  | succ turns ih =>
    by_cases hj : 2 ^ (m + 1) * q < 256
    · -- `256` is a multiple of the step, so the entry behind `j` is inside the table
      have htop : 2 ^ (m + 1) * 2 ^ (7 - m) = 256 := by
        rw [← Nat.pow_add, show m + 1 + (7 - m) = 8 by omega]
      have hq : q + 1 ≤ 2 ^ (7 - m) := Nat.lt_of_mul_lt_mul_left (hj.trans_eq htop.symm)
      have hnext : 2 ^ (m + 1) * (q + 1) ≤ 256 := (Nat.mul_le_mul_left _ hq).trans_eq htop
      have hinside : 2 ^ m + 2 ^ (m + 1) * q < crcTable.length := by
        rw [h.length]
        rw [Nat.mul_add, ← htwice] at hnext
        rw [← htwice]
        have hpos := Nat.two_pow_pos m
        omega
      have hrun : fillFrom (crcEntry (2 ^ m)) (2 ^ m) (turns + 1 + 1) (2 ^ (m + 1) * q) crcTable =
          fillFrom (crcEntry (2 ^ m)) (2 ^ m) (turns + 1) (2 ^ (m + 1) * (q + 1))
            (crcTable.set (2 ^ m + 2 ^ (m + 1) * q) (crcEntry (2 ^ m + 2 ^ (m + 1) * q))) := by
        rw [fillFrom, if_pos hj, h.entries _ hj (Nat.dvd_mul_right _ q), Option.bind_eq_bind, Option.bind_some,
          if_pos hinside, crcEntry_add, htwice, Nat.mul_succ]
      rw [hrun]
      refine ih (q + 1) _ (by rw [show q + 1 + turns = q + (turns + 1) by omega]; exact hturns)
        ⟨by rw [List.length_set, h.length], fun v hv hdvd => ?_⟩ fun k hk hlt => ?_
      · have hne : 2 ^ m + 2 ^ (m + 1) * q ≠ v := fun heq => not_dvd_twoPow_add m q (heq ▸ hdvd)
        rw [List.getElem?_set_ne hne]
        exact h.entries v hv hdvd
      · by_cases hkq : k = q
        · rw [hkq, List.getElem?_set_self hinside]
        · rw [List.getElem?_set_ne fun heq => hkq (twoPow_add_injective heq).symm]
          exact hdone k (by omega) hlt
    · exact ⟨crcTable, if_neg hj, h.halve (Nat.le_of_not_lt hj) hdone⟩

theorem crcStep_eq (h : Ut32) : (h >>> 1) ^^^ (if h &&& 1 ≠ 0 then crc32Poly else 0) = crcStep crc32Poly h := by
  have hbit : h &&& 1 = if h.getLsbD 0 then 1#32 else 0#32 := by
    rw [show (1 : Ut32) = 1#32 from rfl, BitVec.and_one_eq_setWidth_ofBool_getLsbD]
    cases h.getLsbD 0 <;> rfl
  rw [crcStep, hbit]
  cases h.getLsbD 0
  · simp
  · simp

/-- One round of the outer loop. -/
theorem fillTable_round {m : Nat} (hm : m < 8) (turns : Nat) {crcTable : List Ut32} (h : Filled (m + 1) crcTable) :
    ∃ crcTable', Filled m crcTable' ∧ fillTable (turns + 1) (2 ^ m) (crcSteps crc32Poly (7 - m) 1) crcTable =
      fillTable turns (2 ^ m / 2) (crcSteps crc32Poly (8 - m) 1) crcTable' := by
  have hpos := Nat.two_pow_pos m
  have hturns : 256 ≤ 2 ^ (m + 1) * (0 + 128) := by
    rw [pow_succ]
    omega
  obtain ⟨crcTable', hrun, hfilled⟩ := fillFrom_filled hm 128 0 crcTable hturns h fun k hk => absurd hk (Nat.not_lt_zero k)
  refine ⟨crcTable', hfilled, ?_⟩
  have hstep : crcStep crc32Poly (crcSteps crc32Poly (7 - m) 1) = crcSteps crc32Poly (8 - m) 1 := by
    rw [show 8 - m = 7 - m + 1 by omega, crcSteps_succ]
  rw [Nat.mul_zero, crcEntry_twoPow hm] at hrun
  rw [fillTable, if_neg (Nat.ne_of_gt hpos), crcStep_eq, hstep]
  show (fillFrom (crcSteps crc32Poly (8 - m) 1) (2 ^ m) 129 0 crcTable).bind _ = _
  rw [hrun]
  rfl

/-- The outer loop, from the round of `2 ^ m` on. -/
theorem fillTable_filled {m : Nat} (hm : m < 8) {crcTable : List Ut32} (h : Filled (m + 1) crcTable) :
    ∃ crcTable', fillTable (m + 2) (2 ^ m) (crcSteps crc32Poly (7 - m) 1) crcTable = some crcTable' ∧
      Filled 0 crcTable' := by
  induction m generalizing crcTable with
  | zero =>
    obtain ⟨crcTable', hfilled, hrun⟩ := fillTable_round hm 1 h
    exact ⟨crcTable', hrun, hfilled⟩
  | succ m ih =>
    obtain ⟨crcTable', hfilled, hrun⟩ := fillTable_round hm (m + 2) h
    rw [hrun, show 2 ^ (m + 1) / 2 = 2 ^ m by rw [pow_succ, Nat.mul_div_cancel _ (by omega)],
      show 8 - (m + 1) = 7 - m by omega]
    exact ih (by omega) hfilled

/-- The table of the first call. -/
theorem fillTable_first : ∃ crcTable, fillTable 9 128 1 ((List.replicate 256 0).set 0 0) = some crcTable ∧ Filled 0 crcTable := by
  refine fillTable_filled (m := 7) (by omega) ⟨by rw [List.length_set, List.length_replicate], fun v hv hdvd => ?_⟩
  have hzero : v = 0 := by omega
  rw [hzero, crcEntry_zero]
  rfl

section Lookup

variable {crcTable : List Ut32} (h : Filled 0 crcTable)

include h

theorem Filled.get (b : Ut8) : crcTable[b.toNat]? = some (crcSteps crc32Poly 8 (b.setWidth 32)) := by
  rw [h.entries _ b.isLt (one_dvd _), crcEntry, BitVec.ofNat_toNat]

theorem Filled.get_index (c : Ut32) : crcTable[(c &&& 0xff).toNat]? = some (crcSteps crc32Poly 8 (low 8 c)) := by
  have hval : (c &&& 0xff).toNat = c.toNat % 256 := by
    rw [BitVec.toNat_and]
    exact Nat.and_two_pow_sub_one_eq_mod c.toNat 8
  have hlow : BitVec.ofNat 32 (c.toNat % 256) = low 8 c := by
    apply BitVec.eq_of_toNat_eq
    rw [low, BitVec.toNat_ofNat, BitVec.toNat_setWidth, BitVec.toNat_setWidth]
  rw [hval, h.entries _ (Nat.mod_lt _ (by omega)) (one_dvd _), crcEntry, hlow]

/-- The loop takes the bits of the buffer one after the other. -/
theorem Filled.loop (len : Nat) (buf : List Ut8) (hlen : len ≤ buf.length) (crc : Ut32) :
    crc32Loop crcTable len buf crc = some (crcBits crc32Poly crc ((buf.take len).flatMap blockBits)) := by
  induction len generalizing buf crc with
  | zero => rfl
  | succ len ih =>
    cases buf with
    | nil => exact absurd hlen (by simp)
    | cons b buf =>
      rw [crc32Loop, h.get_index, Option.bind_eq_bind, Option.bind_some, ih buf (Nat.le_of_succ_le_succ hlen),
        List.take_succ_cons, List.flatMap_cons, crcBits_append, crcBits_block crc32Poly (by omega) (by omega)]

end Lookup

theorem rReadLe32_rWriteLe32 (val : Ut32) : rReadLe32 (rWriteLe32 val) = val := by
  apply BitVec.eq_of_toNat_eq
  rw [rReadLe32, rWriteLe32, List.take_of_length_le (by rw [leBytes_length]), leNat_leBytes, BitVec.toNat_ofNat,
    Nat.mod_mod_of_dvd _ (by decide)]
  exact Nat.mod_eq_of_lt val.isLt

/-- What is static before a call: nothing yet, or the table of an earlier one. -/
inductive Crc32Ready : Crc32Static → Prop
  | first : Crc32Ready crc32Static
  | later (crcTable : List Ut32) : Filled 0 crcTable → Crc32Ready ⟨true, crcTable⟩

/-- One call. -/
theorem rHashCrc32_ready {st : Crc32Static} (hst : Crc32Ready st) (buf : List Ut8) (len : Ut64) (hlen : len.toNat ≤ buf.length) :
    ∃ crcTable, rHashCrc32 st buf len = some (⟨true, crcTable⟩, crc32 (buf.take len.toNat)) ∧ Filled 0 crcTable := by
  have hcall {crcTable : List Ut32} (h : Filled 0 crcTable) :
      rHashCrc32 ⟨true, crcTable⟩ buf len = some (⟨true, crcTable⟩, crc32 (buf.take len.toNat)) := by
    show (crc32Loop crcTable len.toNat buf (0 ^^^ BitVec.allOnes 32)).bind _ = _
    have hinit : (0 : Ut32) ^^^ BitVec.allOnes 32 = BitVec.allOnes 32 := BitVec.zero_xor
    rw [h.loop len.toNat buf hlen, hinit, Option.bind_some, rReadLe32_rWriteLe32]
    rfl
  cases hst with
  | first =>
    obtain ⟨crcTable, hfill, h⟩ := fillTable_first
    refine ⟨crcTable, ?_, h⟩
    rw [← hcall h, rHashCrc32, crc32Static, hfill]
    rfl
  | later crcTable h => exact ⟨crcTable, hcall h, h⟩

theorem rHashCrc32Calls_ready (calls : List (List Ut8 × Ut64)) (hcalls : ∀ c ∈ calls, c.2.toNat ≤ c.1.length)
    {st : Crc32Static} (hst : Crc32Ready st) :
    ∃ st', rHashCrc32Calls st calls = some (st', calls.map (fun c => crc32 (c.1.take c.2.toNat))) ∧ Crc32Ready st' ∧
      (calls ≠ [] → Filled 0 st'.crcTable) := by
  induction calls generalizing st with
  | nil => exact ⟨st, rfl, hst, fun h => absurd rfl h⟩
  | cons c calls ih =>
    obtain ⟨hc, hrest⟩ := List.forall_mem_cons.mp hcalls
    obtain ⟨crcTable, hcall, hfilled⟩ := rHashCrc32_ready hst c.1 c.2 hc
    obtain ⟨st', hrun, hst', htable⟩ := ih hrest (.later crcTable hfilled)
    refine ⟨st', ?_, hst', fun _ => ?_⟩
    · rw [rHashCrc32Calls, hcall]
      show (rHashCrc32Calls ⟨true, crcTable⟩ calls).bind _ = _
      rw [hrun]
      rfl
    · cases calls with
      | nil =>
        cases hrun
        exact hfilled
      | cons d calls => exact htable (List.cons_ne_nil d calls)

/-- Every call gives the bit-by-bit value, and the table that the first one leaves is linear. -/
theorem rHashCrc32_calls (calls : List (List Ut8 × Ut64)) (hcalls : ∀ c ∈ calls, c.2.toNat ≤ c.1.length) :
    ∃ st, rHashCrc32Calls crc32Static calls = some (st, calls.map (fun c => crc32 (c.1.take c.2.toNat))) ∧
      (calls ≠ [] → st.crcTable.length = 256 ∧ ∀ a b : Ut8, ∃ x y,
        st.crcTable[a.toNat]? = some x ∧ st.crcTable[b.toNat]? = some y ∧
          st.crcTable[(a ^^^ b).toNat]? = some (x ^^^ y)) := by
  obtain ⟨st, hrun, -, htable⟩ := rHashCrc32Calls_ready calls hcalls .first
  refine ⟨st, hrun, fun hne => ⟨(htable hne).length, fun a b => ⟨_, _, (htable hne).get a, (htable hne).get b, ?_⟩⟩⟩
  rw [(htable hne).get, BitVec.setWidth_xor, crcSteps_xor]

/-- The text "123456789" in two calls. -/
theorem rHashCrc32_calls_check :
    ∃ st, rHashCrc32Calls crc32Static [([0x31, 0x32, 0x33, 0x34, 0x35, 0x36, 0x37, 0x38, 0x39], 9), ([], 0)] =
        some (st, [0xcbf43926, 0]) ∧ st.crcTable.length = 256 := by
  obtain ⟨st, hrun, htable⟩ := rHashCrc32_calls
    [([0x31, 0x32, 0x33, 0x34, 0x35, 0x36, 0x37, 0x38, 0x39], 9), ([], 0)] (by decide)
  have hcheck : crc32 [0x31, 0x32, 0x33, 0x34, 0x35, 0x36, 0x37, 0x38, 0x39] = 0xcbf43926 := by decide +kernel
  exact ⟨st, hrun.trans (by rw [← hcheck]; rfl), (htable (by simp)).1⟩

end Radare
