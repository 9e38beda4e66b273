import Mathlib.Data.Nat.Bitwise
import Radare.Util.Num

namespace Radare

/-- The locals of the loop of `r_num_to_bits`; `pos` is the length of `out`. -/
structure ToBits where
  out : CStr
  realsize : Nat
  hasbit : Bool
  deriving DecidableEq

def toBitsTurn (num : Ut64) (size : Nat) (st : ToBits) (i : Nat) : ToBits :=
  let bit := if (num >>> (size - i - 1)) &&& 1 ≠ 0 then '1' else '0'
  let out := if st.hasbit ∨ bit = '1' then st.out ++ [bit] else st.out
  if ¬st.hasbit ∧ bit = '1' then ⟨out, size - i, true⟩ else ⟨out, st.realsize, st.hasbit⟩

def toBitsSize (num : Ut64) : Nat :=
  if num >>> 32 ≠ 0 then 64
  else if num &&& 0xff000000 ≠ 0 then 32
  else if num &&& 0xff0000 ≠ 0 then 24
  else if num &&& 0xff00 ≠ 0 then 16
  else if num &&& 0xff ≠ 0 then 8
  else 64

/-- `r_num_to_bits`: the text in `out` up to the terminator it writes, and the size it returns. -/
def rNumToBits (num : Ut64) : CStr × Nat :=
  let size := toBitsSize num
  let st := (List.range size).foldl (toBitsTurn num size) ⟨[], 0, false⟩
  (if st.realsize = 0 then ['0'] else st.out.take st.realsize, size)

/-- A number with no bit in the byte `k` and none above is below `2^k`. -/
theorem lt_of_byte_zero {num mask : Ut64} {k : Nat} (hlt : num.toNat < 2 ^ (k + 8)) (hand : num &&& mask = 0)
    (hmask : ∀ i, k ≤ i → i < k + 8 → mask.getLsbD i = true) : num.toNat < 2 ^ k := by
  refine Nat.lt_pow_two_of_testBit _ (fun i hi => ?_)
  rcases Nat.lt_or_ge i (k + 8) with h | h
  · have hbit : (num &&& mask).getLsbD i = false := by
      rw [hand]
      exact BitVec.getLsbD_zero
    rwa [BitVec.getLsbD_and, hmask i hi h, Bool.and_true] at hbit
  · exact Nat.testBit_lt_two_pow (hlt.trans_le (Nat.pow_le_pow_right (by decide) h))

theorem lt_toBitsSize (num : Ut64) : num.toNat < 2 ^ toBitsSize num := by
  unfold toBitsSize
  split_ifs with h64 h32 h24 h16 h8
  · exact num.isLt
  all_goals
    have hhigh : num.toNat < 2 ^ 32 := by
      have hz := congrArg BitVec.toNat (not_not.mp h64)
      rw [BitVec.toNat_ushiftRight, Nat.shiftRight_eq_div_pow] at hz
      exact (Nat.div_eq_zero_iff_lt (by decide)).mp hz
  · exact hhigh
  all_goals
    have h3 := lt_of_byte_zero (k := 24) hhigh (not_not.mp h32)
      (fun i hl hu => by interval_cases i <;> rfl)
  · exact h3
  all_goals
    have h2 := lt_of_byte_zero (k := 16) h3 (not_not.mp h24)
      (fun i hl hu => by interval_cases i <;> rfl)
  · exact h2
  all_goals
    have h1 := lt_of_byte_zero (k := 8) h2 (not_not.mp h16)
      (fun i hl hu => by interval_cases i <;> rfl)
  · exact h1
  · exact num.isLt

/-- The bit that a turn looks at. -/
theorem shift_and_one (num : Ut64) (k : Nat) : ((num >>> k) &&& 1 ≠ 0) ↔ num.toNat / 2 ^ k % 2 = 1 := by
  have hval : ((num >>> k) &&& 1).toNat = num.toNat / 2 ^ k % 2 := by
    rw [BitVec.toNat_and, BitVec.toNat_ushiftRight, Nat.shiftRight_eq_div_pow]
    exact Nat.and_one_is_mod _
  have hmod := Nat.mod_two_eq_zero_or_one (num.toNat / 2 ^ k)
  rw [ne_eq, ← BitVec.toNat_inj, hval, show (0 : Ut64).toNat = 0 from rfl]
  omega

/-- What the loop has done with the leading bits, which make up the number `p`. -/
structure BitsSoFar (size i p : Nat) (st : ToBits) : Prop where
  blank : p = 0 → st = ⟨[], 0, false⟩
  digits : 0 < p → st.out = Nat.toDigits 2 p ∧ st.realsize = st.out.length + (size - i) ∧ st.hasbit = true

theorem toDigits_double {q : Nat} (hq : 2 ≤ q) :
    Nat.toDigits 2 q = Nat.toDigits 2 (q / 2) ++ [if q % 2 = 1 then '1' else '0'] := by
  have h := Nat.toDigits_append_toDigits (b := 2) (n := q / 2) (d := q % 2) (by decide) (by omega)
    (Nat.mod_lt _ (by decide))
  rw [Nat.div_add_mod] at h
  rw [← h]
  congr 1
  rcases Nat.mod_two_eq_zero_or_one q with h0 | h1
  · rw [h0]
    rfl
  · rw [h1]
    rfl

theorem toBitsTurn_spec {num : Ut64} {size i : Nat} {st : ToBits} (hi : i < size)
    (h : BitsSoFar size i (num.toNat / 2 ^ (size - i)) st) :
    BitsSoFar size (i + 1) (num.toNat / 2 ^ (size - (i + 1))) (toBitsTurn num size st i) := by
  have hsplit : num.toNat / 2 ^ (size - i) = num.toNat / 2 ^ (size - (i + 1)) / 2 := by
    rw [Nat.div_div_eq_div_mul, ← Nat.pow_succ, show (size - (i + 1)).succ = size - i by omega]
  have hbit := shift_and_one num (size - i - 1)
  rw [show size - i - 1 = size - (i + 1) by omega] at hbit
  rw [hsplit] at h
  unfold toBitsTurn
  rw [show size - i - 1 = size - (i + 1) by omega]
  simp only [hbit]
  generalize num.toNat / 2 ^ (size - (i + 1)) = q at h ⊢
  rcases Nat.lt_or_ge q 2 with hsmall | hbig
  · have hst := h.blank (by omega)
    rw [hst]
    interval_cases q
    · exact ⟨fun _ => rfl, fun hpos => absurd hpos (Nat.lt_irrefl 0)⟩
    · refine ⟨by simp, fun _ => ⟨rfl, ?_, rfl⟩⟩
      show size - i = 1 + (size - (i + 1))
      omega
  · obtain ⟨hout, hreal, hhas⟩ := h.digits (by omega)
    refine ⟨by omega, fun _ => ?_⟩
    simp only [hhas, true_or, if_true, not_true_eq_false, false_and, if_false, hout, toDigits_double hbig,
      List.length_append, List.length_singleton, and_true, true_and]
    rw [hreal, hout]
    omega

theorem toBitsLoop_spec (num : Ut64) (size : Nat) (hlt : num.toNat < 2 ^ size) {n : Nat} (hn : n ≤ size) :
    BitsSoFar size n (num.toNat / 2 ^ (size - n)) ((List.range n).foldl (toBitsTurn num size) ⟨[], 0, false⟩) := by
  induction n with
  | zero =>
    rw [Nat.sub_zero, Nat.div_eq_of_lt hlt]
    exact ⟨fun _ => rfl, fun h => absurd h (Nat.lt_irrefl 0)⟩
  | succ n ih =>
    rw [List.range_succ, List.foldl_append]
    exact toBitsTurn_spec (by omega) (ih (by omega))

/-- `r_num_to_bits` writes the binary digits of every number. -/
theorem numToBits_digits (num : Ut64) : (rNumToBits num).1 = Nat.toDigits 2 num.toNat := by
  have h := toBitsLoop_spec num (toBitsSize num) (lt_toBitsSize num) (Nat.le_refl _)
  rw [Nat.sub_self, Nat.pow_zero, Nat.div_one] at h
  rcases Nat.eq_zero_or_pos num.toNat with hzero | hpos
  · rw [rNumToBits, h.blank hzero, hzero]
    rfl
  · obtain ⟨hout, hreal, -⟩ := h.digits hpos
    rw [Nat.sub_self, Nat.add_zero] at hreal
    have hne : (Nat.toDigits 2 num.toNat).length ≠ 0 :=
      fun hl => Nat.toDigits_ne_nil (List.eq_nil_of_length_eq_zero hl)
    simp only [rNumToBits, hreal, hout, if_neg hne, List.take_length]

/-- `1 << j` in an `int`: one bit up to the sign, which fills all above, and over again from there. -/
theorem getLsbD_intBit (j : Nat) {i : Nat} (hi : i < 64) :
    (intBit j).getLsbD i = true ↔ (j % 32 = 31 ∧ 31 ≤ i) ∨ (j % 32 ≠ 31 ∧ i = j % 32) := by
  have hr := Nat.mod_lt j (show 0 < 32 by decide)
  unfold intBit
  generalize j % 32 = r at hr
  rw [BitVec.getLsbD_signExtend, BitVec.msb_eq_getLsbD_last]
  simp only [BitVec.getLsbD_shiftLeft, BitVec.getLsbD_one]
  split_ifs with hlow
  · simp only [hi, hlow, decide_true, Bool.true_and, Bool.and_eq_true, Bool.not_eq_true',
      decide_eq_false_iff_not, decide_eq_true_eq]
    omega
  · simp only [hi, decide_true, Bool.true_and, Bool.and_eq_true, Bool.not_eq_true',
      decide_eq_false_iff_not, decide_eq_true_eq]
    omega

/-- What the digits of a number read from its last one set. -/
theorem scanBits_digits (tail : CStr) (htail : ∀ j ret, scanBits tail j ret = ret) (m j : Nat) (ret : Ut64)
    (i : Nat) : (scanBits ((Nat.toDigits 2 m).reverse ++ tail) j ret).getLsbD i = true ↔
      ret.getLsbD i = true ∨ ∃ k, m.testBit k = true ∧ (intBit (j + k)).getLsbD i = true := by
  induction m using Nat.strongRecOn generalizing j ret with
  | ind m ih =>
    rcases Nat.lt_or_ge m 2 with hsmall | hbig
    · interval_cases m
      · have hscan : scanBits ((Nat.toDigits 2 0).reverse ++ tail) j ret = ret := htail (j + 1) ret
        rw [hscan]
        simp
      · have hscan : scanBits ((Nat.toDigits 2 1).reverse ++ tail) j ret = ret ||| intBit j :=
          htail (j + 1) _
        rw [hscan, BitVec.getLsbD_or, Bool.or_eq_true]
        simp [Nat.testBit_one_eq_true_iff_self_eq_zero]
    · rw [toDigits_double hbig, List.reverse_append, List.reverse_singleton, List.singleton_append,
        List.cons_append]
      have hbits : (∃ k, m.testBit k = true ∧ (intBit (j + k)).getLsbD i = true) ↔
          (m % 2 = 1 ∧ (intBit j).getLsbD i = true) ∨
            ∃ k, (m / 2).testBit k = true ∧ (intBit (j + 1 + k)).getLsbD i = true := by
        rw [← Nat.or_exists_add_one]
        simp only [Nat.testBit_zero, decide_eq_true_eq, Nat.testBit_add_one, Nat.add_zero]
        refine or_congr Iff.rfl (exists_congr (fun k => ?_))
        rw [show j + (k + 1) = j + 1 + k by omega]
      rw [hbits]
      have hrest := fun ret => ih (m / 2) (by omega) (j + 1) ret
      rcases Nat.mod_two_eq_zero_or_one m with h0 | h1
      · have hscan : scanBits ('0' :: ((Nat.toDigits 2 (m / 2)).reverse ++ tail)) j ret =
            scanBits ((Nat.toDigits 2 (m / 2)).reverse ++ tail) (j + 1) ret := rfl
        rw [if_neg (by omega), hscan, hrest]
        simp [h0]
      · have hscan : scanBits ('1' :: ((Nat.toDigits 2 (m / 2)).reverse ++ tail)) j ret =
            scanBits ((Nat.toDigits 2 (m / 2)).reverse ++ tail) (j + 1) (ret ||| intBit j) := rfl
        rw [if_pos h1, hscan, hrest, BitVec.getLsbD_or, Bool.or_eq_true]
        simp [h1, or_assoc]

/-- The bits that come back from the digits of `n`. -/
def intBits (n : Ut64) : Ut64 := scanBits (Nat.toDigits 2 n.toNat).reverse 0 0

theorem getLsbD_intBits (n : Ut64) {i : Nat} (hi : i < 64) : (intBits n).getLsbD i = true ↔
    ∃ k, n.getLsbD k = true ∧ ((k % 32 = 31 ∧ 31 ≤ i) ∨ (k % 32 ≠ 31 ∧ i = k % 32)) := by
  have h := scanBits_digits [] (fun _ _ => rfl) n.toNat 0 0 i
  rw [List.append_nil] at h
  rw [intBits, h, show (0 : Ut64).getLsbD i = false from BitVec.getLsbD_zero]
  simp only [Bool.false_eq_true, false_or, Nat.zero_add, getLsbD_intBit _ hi]
  rfl

/-- The `int` shifts give a number back exactly when it is below `2^31` or has all bits set. -/
theorem intBits_eq_iff (n : Ut64) : intBits n = n ↔ n.toNat < 2 ^ 31 ∨ n = ut64Max := by
  constructor
  · intro h
    by_contra hcond
    obtain ⟨hbig, hmax⟩ : 2 ^ 31 ≤ n.toNat ∧ n ≠ ut64Max := by
      exact ⟨by_contra (fun hb => hcond (Or.inl (by omega))), fun hm => hcond (Or.inr hm)⟩
    have hbits : ∀ i, i < 64 → (n.getLsbD i = true ↔
        ∃ k, n.getLsbD k = true ∧ ((k % 32 = 31 ∧ 31 ≤ i) ∨ (k % 32 ≠ 31 ∧ i = k % 32))) := by
      intro i hi
      rw [← getLsbD_intBits n hi, h]
    obtain ⟨k, hk, hset⟩ := Nat.exists_ge_and_testBit_of_ge_two_pow hbig
    have hk64 : k < 64 := BitVec.lt_of_getLsbD hset
    -- the sign of the `int` was among the bits, or the bit `k` would not be back
    obtain ⟨s, hs, hsign⟩ : ∃ s, n.getLsbD s = true ∧ s % 32 = 31 := by
      obtain ⟨s, hs, hcase⟩ := (hbits k hk64).mp hset
      rcases hcase with hcase | hcase
      · exact ⟨s, hs, hcase.1⟩
      · omega
    have hhigh : ∀ i, 31 ≤ i → i < 64 → n.getLsbD i = true :=
      fun i hl hi => (hbits i hi).mpr ⟨s, hs, Or.inl ⟨hsign, hl⟩⟩
    have hlow : ∀ i, i < 31 → n.getLsbD i = true := by
      intro i hi
      exact (hbits i (by omega)).mpr ⟨32 + i, hhigh (32 + i) (by omega) (by omega), Or.inr (by omega)⟩
    refine hmax (BitVec.eq_of_getLsbD_eq (fun i hi => ?_))
    rw [ut64Max, BitVec.getLsbD_allOnes, decide_eq_true hi]
    rcases Nat.lt_or_ge i 31 with hl | hg
    · exact hlow i hl
    · exact hhigh i hg hi
  · intro h
    refine BitVec.eq_of_getLsbD_eq (fun i hi => Bool.eq_iff_iff.mpr ?_)
    rw [getLsbD_intBits n hi]
    rcases h with hsmall | hmax
    · have hbelow : ∀ k, n.getLsbD k = true → k < 31 := by
        intro k hk
        by_contra hge
        have hfalse := Nat.testBit_lt_two_pow (hsmall.trans_le (Nat.pow_le_pow_right (by decide) (not_lt.mp hge)))
        rw [BitVec.getLsbD, hfalse] at hk
        cases hk
      constructor
      · intro hk
        obtain ⟨k, hk, hcase⟩ := hk
        have hlt := hbelow k hk
        rwa [show i = k by omega]
      · intro hset
        have hlt := hbelow i hset
        exact ⟨i, hset, Or.inr (by omega)⟩
    · have hall : ∀ k, k < 64 → n.getLsbD k = true := by
        intro k hk
        rw [hmax, ut64Max, BitVec.getLsbD_allOnes, decide_eq_true hk]
      constructor
      · intro _
        exact hall i hi
      · intro _
        rcases Nat.lt_or_ge i 31 with hl | hg
        · exact ⟨i, hall i hi, Or.inr (by omega)⟩
        · exact ⟨31, hall 31 (by decide), Or.inl (by omega)⟩

theorem numSegment_no_colon {str : CStr} (h : ':' ∉ str) : numSegment str = none := by
  have hget : ∀ i : Nat, str[i]? ≠ some ':' := fun i hi => h (List.mem_of_getElem? hi)
  simp [numSegment, hget]

/-- Without a callback a text that has no colon, blank or quote in its way is read as plain. -/
theorem numGet_plain {c : Char} {cs : CStr} (hblank : c ≠ ' ') (hquote : c ≠ Char.ofNat 39)
    (hcolon : ':' ∉ c :: cs) : rNumGet (c :: cs) = numPlain (c :: cs) := by
  have hdrop : (c :: cs).dropWhile (· = ' ') = c :: cs := by simp [hblank]
  rw [rNumGet, hdrop]
  rcases cs with _ | ⟨b, _ | ⟨a, rest⟩⟩
  · rfl
  · rfl
  · simp only [hquote, false_and, if_false, numSegment_no_colon hcolon]
    rfl

theorem binary_mem {n : Nat} {c : Char} (h : c ∈ Nat.toDigits 2 n) : c = '0' ∨ c = '1' := by
  obtain ⟨d, hd, rfl⟩ := toDigits_mem (by decide) h
  interval_cases d
  · exact Or.inl rfl
  · exact Or.inr rfl

theorem scanBits_tail (n : Ut64) :
    scanBits ((Nat.toDigits 2 n.toNat).reverse ++ ['b']) 0 0 = intBits n := by
  have hb := scanBits_digits ['b'] (fun _ _ => rfl) n.toNat 0 0
  have hnil := scanBits_digits [] (fun _ _ => rfl) n.toNat 0 0
  refine BitVec.eq_of_getLsbD_eq (fun i _ => Bool.eq_iff_iff.mpr ?_)
  rw [hb, intBits, ← List.append_nil (Nat.toDigits 2 n.toNat).reverse, hnil]

/-- Both forms of a binary literal give what the `int` shifts make of the digits. -/
theorem numGet_prefix (n : Ut64) : rNumGet ('0' :: 'b' :: Nat.toDigits 2 n.toNat) = intBits n := by
  rw [numGet_plain (by decide) (by decide)]
  · rw [← scanBits_tail, ← List.reverse_cons]
    rfl
  · intro h
    rw [List.mem_cons, List.mem_cons] at h
    rcases h with h | h | h
    · exact absurd h (by decide)
    · exact absurd h (by decide)
    · rcases binary_mem h with h | h
      · exact absurd h (by decide)
      · exact absurd h (by decide)

/-- The radix letter at the end counts when no prefix is in front. -/
theorem numPlain_suffix {c d : Char} {rest : CStr} (hc : c ≠ Char.ofNat 39) (hb : d ≠ 'b') (hx : d ≠ 'x')
    (hlen : (c :: d :: rest).length < 127) :
    numPlain (c :: d :: rest ++ ['b']) = scanBits (c :: d :: rest).reverse 0 0 := by
  have h0 : (c :: d :: rest ++ ['b'])[0]? = some c := rfl
  have h1 : (c :: d :: rest ++ ['b'])[1]? = some d := rfl
  have hchar : charLen (c :: d :: rest ++ ['b']) = ((c :: d :: rest).length + 1 : Nat) := by
    unfold charLen
    rw [List.length_append, List.length_singleton]
    omega
  have hlast : (c :: d :: rest ++ ['b'])[(c :: d :: rest).length]? = some 'b' := by
    rw [List.getElem?_append_right (Nat.le_refl _), Nat.sub_self]
    rfl
  have hdrop : (c :: d :: rest ++ ['b']).dropLast = c :: d :: rest := List.dropLast_concat
  have hpos : 0 < (((c :: d :: rest).length + 1 : Nat) : Int) := by omega
  have hindex : (((c :: d :: rest).length + 1 : Nat) : Int).toNat - 1 = (c :: d :: rest).length := by omega
  unfold numPlain
  simp only [h0, h1, hchar, if_pos hpos, hindex, hlast, hdrop, Option.some.injEq, hc, hb, hx, and_false, if_false,
    Option.getD_some, ne_eq, not_true_eq_false, false_and]
  rfl

theorem numGet_suffix (n : Ut64) : rNumGet (Nat.toDigits 2 n.toNat ++ ['b']) = intBits n := by
  rcases Nat.lt_or_ge n.toNat 2 with hsmall | hbig
  · have hn : n = 0 ∨ n = 1 := by
      rw [← BitVec.toNat_inj, ← BitVec.toNat_inj]
      show n.toNat = 0 ∨ n.toNat = 1
      omega
    rcases hn with rfl | rfl
    · decide
    · decide
  · have hmem : ∀ c ∈ Nat.toDigits 2 n.toNat, c = '0' ∨ c = '1' := fun c hc => binary_mem hc
    have hlen : (Nat.toDigits 2 n.toNat).length ≤ 64 :=
      (Nat.length_toDigits_le_iff (by decide) (by decide)).mpr n.isLt
    obtain ⟨c, d, rest, hdigits⟩ : ∃ c d rest, Nat.toDigits 2 n.toNat = c :: d :: rest := by
      obtain ⟨c, cs, hc⟩ := List.exists_cons_of_ne_nil (Nat.toDigits_ne_nil (n := n.toNat / 2) (b := 2))
      rw [toDigits_double hbig, hc]
      cases cs with
      | nil => exact ⟨c, _, [], rfl⟩
      | cons d cs => exact ⟨c, d, _, rfl⟩
    rw [intBits]
    rw [hdigits] at hmem hlen ⊢
    have hc := hmem c (by simp)
    have hd := hmem d (by simp)
    have hcolon : ':' ∉ c :: d :: rest ++ ['b'] := by
      intro h
      rcases List.mem_append.mp h with h | h
      · rcases hmem _ h with h | h
        · exact absurd h (by decide)
        · exact absurd h (by decide)
      · exact absurd h (by decide)
    have hclear : ∀ x, x = '0' ∨ x = '1' → x ≠ ' ' ∧ x ≠ Char.ofNat 39 ∧ x ≠ 'b' ∧ x ≠ 'x' := by
      intro x hx
      rcases hx with rfl | rfl
      · decide
      · decide
    obtain ⟨hblank, hquote, -, -⟩ := hclear c hc
    obtain ⟨-, -, hdb, hdx⟩ := hclear d hd
    exact (numGet_plain hblank hquote hcolon).trans (numPlain_suffix hquote hdb hdx (by omega))

/-- The text of `r_num_to_bits` is right for every number; both forms of the literal give the number back
exactly when it is below `2^31` or has all bits set. -/
theorem numToBits_roundTrip_iff (n : Ut64) :
    ((rNumToBits n).1 = Nat.toDigits 2 n.toNat ∧ rNumGet (['0', 'b'] ++ (rNumToBits n).1) = n ∧
        rNumGet ((rNumToBits n).1 ++ ['b']) = n) ↔
      n.toNat < 2 ^ 31 ∨ n = ut64Max := by
  rw [numToBits_digits, ← intBits_eq_iff]
  have hmark : rNumGet (['0', 'b'] ++ Nat.toDigits 2 n.toNat) = intBits n := numGet_prefix n
  rw [hmark, numGet_suffix]
  exact ⟨fun h => h.2.1, fun h => ⟨rfl, h, h⟩⟩

set_option maxRecDepth 4096 in
/-- The digit of `2^31` is the sign of the `int` that is shifted. -/
theorem numToBits_sign : (rNumToBits 0x80000000).1 = '1' :: List.replicate 31 '0' ∧
    rNumGet (['0', 'b'] ++ (rNumToBits 0x80000000).1) = 0xffffffff80000000 ∧
    rNumGet ((rNumToBits 0x80000000).1 ++ ['b']) = 0xffffffff80000000 ∧
    (0xffffffff80000000 : Ut64) ≠ 0x80000000 := by
  refine ⟨by decide, by decide, by decide, by decide⟩

end Radare
