import Radare.Util.CalcDivision

namespace Radare.Calc

open Framework (EndsIn)

/-- The text of a memory reference. -/
def bracketed (s : CStr) : CStr := '[' :: (s ++ [']'])

section Texts

theorem rStrChop_bracketed (s : CStr) : rStrChop (bracketed s) = bracketed s := by
  have hhead : (bracketed s).dropWhile isWhiteChar = '[' :: (s ++ [']']) := List.dropWhile_cons_of_neg (by decide)
  have htail : (s ++ [']']).rdropWhile isWhiteChar = s ++ [']'] :=
    List.rdropWhile_concat_neg isWhiteChar s ']' (by decide)
  rw [rStrChop, hhead]
  dsimp only
  rw [htail]
  rfl

theorem rNumGetWith_bracketed {num : RNum} {callback : CStr → Option Ut64} (hnum : num.callback = some callback)
    {s : CStr} {v : Ut64} (hv : callback (bracketed s) = some v) :
    rNumGetWith (some num) (bracketed s) = (v, some num) := by
  have hblank : (bracketed s).dropWhile (· = ' ') = bracketed s := List.dropWhile_cons_of_neg (by decide)
  have hne : bracketed s ≠ [] := List.cons_ne_nil _ _
  rw [rNumGetWith, hblank, if_neg hne]
  simp only [Option.bind_some, hnum, hv]

/-- A numeral is zero only where the callback says so or it is the numeral of zero. -/
theorem numeral_eq_zero_iff (num : RNum) (callback : CStr → Option Ut64) (hnum : num.callback = some callback)
    (n : Nat) (hn : 2 ^ 64 ∣ n) : (rNumGetWith (some num) (Nat.toDigits 10 n)).1 = 0 ↔
      callback (Nat.toDigits 10 n) = some 0 ∨ (callback (Nat.toDigits 10 n) = none ∧ n = 0) := by
  have hbind : ((callbackOf (some num)).join.bind fun callback => callback (Nat.toDigits 10 n)) =
      callback (Nat.toDigits 10 n) := by
    simp [callbackOf, hnum]
  rw [rNumGetWith_numeral, hbind]
  cases hget : callback (Nat.toDigits 10 n) with
  | some w => simp
  | none =>
    simp only [Option.getD_none, reduceCtorEq, true_and, false_or]
    constructor
    · intro hzero
      by_contra hne
      have hbig : 2 ^ 64 ≤ n := Nat.le_of_dvd (Nat.pos_of_ne_zero hne) hn
      rw [numPlain_numeral (lt_of_lt_of_le (by decide) hbig), strtoull_saturates hbig] at hzero
      exact absurd hzero (by decide)
    · rintro rfl
      decide

end Texts

section Tokens

variable (scanDouble : CStr → Option Float) (st : CalcState)

/-- A memory reference is one name; its bracket is put back. -/
theorem getToken_bracketed {s rest : CStr} (hs : ']' ∉ s) (hlen : s.length < 1000)
    (hin : st.nc.pending.dropWhile isBlank = bracketed s ++ rest) :
    getToken scanDouble st =
      { st with nc := { st.nc with
          stringValue := bracketed s, oc := some ']', rest := rest, currTok := .rncName } } := by
  have hin' : st.nc.pending.dropWhile isBlank = '[' :: (s ++ ']' :: rest) := by
    rw [hin, bracketed, List.cons_append, List.append_assoc]
    rfl
  have hall : ∀ c ∈ s, decide (c ≠ ']') = true := fun c hc => decide_eq_true (fun he => hs (he ▸ hc))
  have hbody : (s ++ ']' :: rest).takeWhile (fun c => decide (c ≠ ']')) = s := by
    rw [List.takeWhile_append_of_pos hall, List.takeWhile_cons_of_neg (by decide), List.append_nil]
  have hbehind : (s ++ ']' :: rest).dropWhile (fun c => decide (c ≠ ']')) = ']' :: rest := by
    rw [List.dropWhile_append_of_pos hall, List.dropWhile_cons_of_neg (by decide)]
  have hfit : (bracketed s).take 1023 = bracketed s := by
    apply List.take_of_length_le
    simp only [bracketed, List.length_cons, List.length_append, List.length_nil]
    omega
  have hname : nameToken st.nc '[' (s ++ ']' :: rest) =
      { st.nc with stringValue := bracketed s, oc := some ']', rest := rest, currTok := .rncName } := by
    unfold nameToken
    simp only [if_true, hbody, hbehind, List.head?_cons, Option.toList_some, List.tail_cons]
    rw [if_neg (by decide), ← hfit]
    rfl
  rw [getToken, hin']
  exact congrArg (fun nc => { st with nc := nc }) hname

/-- The bracket that was put back is read again as the beginning of a name. -/
theorem getToken_close (rest : CStr) (hin : st.nc.pending = ']' :: rest) :
    (getToken scanDouble st).nc.currTok = .rncName ∧ (getToken scanDouble st).num = st.num := by
  have hdrop : st.nc.pending.dropWhile isBlank = ']' :: rest := by
    rw [hin]
    exact List.dropWhile_cons_of_neg (by decide)
  rw [getToken, hdrop]
  exact ⟨rfl, rfl⟩

theorem getToken_plus {c : Char} {rest : CStr} (hc : c ≠ '+')
    (hin : st.nc.pending.dropWhile isBlank = '+' :: c :: rest) :
    Reads st (getToken scanDouble st) .rncPlus (c :: rest) := by
  have hnext : (c :: rest).head? ≠ some '+' := fun h => hc (Option.some.inj h)
  have heq : getToken scanDouble st = { st with nc := { st.nc.putback (c :: rest) with currTok := .rncPlus } } := by
    rw [getToken, hin]
    dsimp only
    rw [if_neg (by decide), if_pos rfl, if_neg hnext]
  rw [heq]
  exact ⟨rfl, rfl, rfl⟩

/-- `prim` on a memory reference gives its value, with a name as the token behind it. -/
theorem prim_bracketed {num : RNum} {callback : CStr → Option Ut64} (hnum : st.num = some num)
    (hcall : num.callback = some callback) {s rest : CStr} {v : Ut64} (hv : callback (bracketed s) = some v)
    (hs : ']' ∉ s) (hlen : s.length < 1000) (hin : st.nc.pending.dropWhile isBlank = bracketed s ++ rest) :
    ∃ st', st'.nc.currTok = .rncName ∧ ∀ n, prim scanDouble (n + 1) true st = some (nset v, st') := by
  have htoken := getToken_bracketed scanDouble st hs hlen hin
  obtain ⟨hname, -⟩ := getToken_close scanDouble
    { st with nc := { st.nc with stringValue := bracketed s, oc := some ']', rest := rest, currTok := .rncName } }
    rest rfl
  refine ⟨_, hname, fun n => ?_⟩
  rw [prim, if_pos rfl, htoken]
  simp only [rStrChop_bracketed, hnum, rNumGetWith_bracketed hcall hv]
  rw [← hnum, if_neg (by rw [hname]; decide)]

theorem loose_name : Loose .rncName := by
  intro op hop htok
  cases op <;> cases htok

theorem term_bracketed {num : RNum} {callback : CStr → Option Ut64} (hnum : st.num = some num)
    (hcall : num.callback = some callback) {s rest : CStr} {v : Ut64} (hv : callback (bracketed s) = some v)
    (hs : ']' ∉ s) (hlen : s.length < 1000) (hin : st.nc.pending.dropWhile isBlank = bracketed s ++ rest) :
    ∃ st', st'.nc.currTok = .rncName ∧ ∀ n, term scanDouble (n + 2) true st = some (nset v, st') := by
  obtain ⟨st', hname, hprim⟩ := prim_bracketed scanDouble st hnum hcall hv hs hlen hin
  refine ⟨st', hname, fun n => ?_⟩
  rw [term, hprim]
  exact termLoop_exit scanDouble (hname.symm ▸ loose_name) n (nset v)

end Tokens

section Calc

variable (scanDouble : CStr → Option Float) (num : RNum) (nc : RNumCalc)

theorem bracketed_head (s rest : CStr) :
    (bracketed s ++ rest).dropWhile isBlank = bracketed s ++ rest := List.dropWhile_cons_of_neg (by decide)

theorem rNumCalc_ends {str : CStr} (hne : str ≠ []) {k : Nat} {v : RNumCalcValue} {st : CalcState}
    (h : ∀ n, expr scanDouble (n + k) true (calcStart (some num) nc str) = some (v, st)) :
    ∃ st', EndsIn (fun fuel => rNumCalc scanDouble fuel (some num) nc) str (v.n, st') := by
  refine ⟨{ st with num := st.num.map fun num => { num with fvalue := v.d } }, k, fun n => ?_⟩
  dsimp only
  rw [rNumCalc_start hne, h]
  rfl

/-- A memory reference at the left is the whole of the expression: what follows its bracket is not read. -/
theorem rNumCalc_bracketed_left {callback : CStr → Option Ut64} (hcall : num.callback = some callback) {s : CStr}
    {v : Ut64} (hv : callback (bracketed s) = some v) (hs : ']' ∉ s) (hlen : s.length < 1000) (rest : CStr) :
    ∃ st, EndsIn (fun fuel => rNumCalc scanDouble fuel (some num) nc) (bracketed s ++ rest) (v, st) := by
  have hin : (calcStart (some num) nc (bracketed s ++ rest)).nc.pending.dropWhile isBlank = bracketed s ++ rest :=
    bracketed_head s rest
  have hnum : (calcStart (some num) nc (bracketed s ++ rest)).num = some { num with dbz := 0 } := rfl
  obtain ⟨st', hname, hterm⟩ := term_bracketed scanDouble _ hnum hcall hv hs hlen hin
  have hend : exprOp st'.nc.currTok = none := by
    rw [hname]
    rfl
  have hne : bracketed s ++ rest ≠ [] := List.cons_ne_nil _ _
  have hexpr : ∀ n, expr scanDouble (n + 3) true (calcStart (some num) nc (bracketed s ++ rest)) =
      some (nset v, st') := by
    intro n
    rw [expr, hterm]
    exact exprLoop_exit scanDouble hend (n + 1) (nset v)
  exact rNumCalc_ends scanDouble num nc hne hexpr

theorem numeral_blank (n : Nat) (rest : CStr) :
    (Nat.toDigits 10 n ++ rest).dropWhile isBlank = Nat.toDigits 10 n ++ rest := by
  obtain ⟨c, cs, hc, hmem⟩ := literal_cons n
  rw [hc]
  apply List.dropWhile_cons_of_neg
  apply digit_cases hmem <;> decide

/-- A numeral has the same value for any `num` with the callback. -/
theorem numeral_value {num' : RNum} (h : num'.callback = num.callback) (n : Nat) :
    (rNumGetWith (some num') (Nat.toDigits 10 n)).1 = (rNumGetWith (some num) (Nat.toDigits 10 n)).1 := by
  rw [rNumGetWith_numeral, rNumGetWith_numeral]
  simp only [callbackOf, Option.map_some, h]

/-- A memory reference at the right of a sum is added to the numeral. -/
theorem rNumCalc_bracketed_right {callback : CStr → Option Ut64} (hcall : num.callback = some callback) {s : CStr}
    {v : Ut64} (hv : callback (bracketed s) = some v) (hs : ']' ∉ s) (hlen : s.length < 1000) {k : Nat}
    (hk : (Nat.toDigits 10 k).length < 1024) :
    ∃ st, EndsIn (fun fuel => rNumCalc scanDouble fuel (some num) nc) (Nat.toDigits 10 k ++ '+' :: bracketed s)
      ((rNumGetWith (some num) (Nat.toDigits 10 k)).1 + v, st) := by
  generalize hstart : calcStart (some num) nc (Nat.toDigits 10 k ++ '+' :: bracketed s) = st0
  have hin0 : st0.nc.pending.dropWhile isBlank = Nat.toDigits 10 k ++ '+' :: bracketed s := by
    rw [← hstart]
    exact numeral_blank k _
  have hstop : ∀ c, ('+' :: bracketed s).head? = some c → isNumberChar c = false := by
    intro c hc
    cases hc
    decide
  obtain ⟨hreads1, hvalue1⟩ := getToken_numeral scanDouble st0 k hin0 hstop
  have hin1 : (getToken scanDouble st0).nc.pending.dropWhile isBlank = '+' :: bracketed s := by
    rw [hreads1.pending]
    exact List.dropWhile_cons_of_neg (by decide)
  have hreads2 := getToken_plus scanDouble (getToken scanDouble st0) (show '[' ≠ '+' by decide) hin1
  have hnum0 : st0.num = some { num with dbz := 0 } := by
    rw [← hstart]
    rfl
  have hsame := numeral_value num (show ({ num with dbz := 0 } : RNum).callback = num.callback from rfl) k
  rw [hnum0, List.take_of_length_le hk.le, hsame] at hvalue1
  -- the callback is still there behind the numeral
  obtain ⟨num2, hnum2, hcall2⟩ : ∃ num2, (getToken scanDouble (getToken scanDouble st0)).num = some num2 ∧
      num2.callback = some callback := by
    have hkeep := callbackOf_frame (hreads1.trans hreads2).frame
    rw [hnum0] at hkeep
    obtain ⟨num2, hnum2, hcall2⟩ := Option.map_eq_some_iff.mp hkeep
    exact ⟨num2, hnum2, hcall2.trans hcall⟩
  have hin2 : (getToken scanDouble (getToken scanDouble st0)).nc.pending.dropWhile isBlank = bracketed s ++ [] := by
    rw [hreads2.pending, List.append_nil]
    exact List.dropWhile_cons_of_neg (by decide)
  obtain ⟨st', hname, hterm⟩ := term_bracketed scanDouble _ hnum2 hcall2 hv hs hlen hin2
  have hend : exprOp st'.nc.currTok = none := by
    rw [hname]
    rfl
  have hne : Nat.toDigits 10 k ++ '+' :: bracketed s ≠ [] := fun h => Nat.toDigits_ne_nil (List.append_eq_nil_iff.mp h).1
  have hloose : Loose (getToken scanDouble (getToken scanDouble st0)).nc.currTok := by
    rw [hreads2.token]
    exact loose_of_level (show CalcOp.add.level = 0 from rfl)
  have hexpr : ∀ n, expr scanDouble (n + 4) true st0 =
      some (nadd (nset (rNumGetWith (some num) (Nat.toDigits 10 k)).1) (nset v), st') := by
    intro n
    have hprim : prim scanDouble (n + 2) true st0 =
        some (nset (rNumGetWith (some num) (Nat.toDigits 10 k)).1, getToken scanDouble (getToken scanDouble st0)) := by
      rw [prim]
      simp only [if_true, hreads1.token, hvalue1]
    have hsum := exprLoop_op scanDouble (show CalcOp.add.level = 0 from rfl) hreads2.token
      (nset (rNumGetWith (some num) (Nat.toDigits 10 k)).1) (hterm n)
    rw [expr, term, hprim]
    simp only [Option.bind_eq_bind, Option.bind_some, termLoop_exit scanDouble hloose]
    rw [hsum]
    exact exprLoop_exit scanDouble hend (n + 1) _
  exact rNumCalc_ends scanDouble num nc hne (hstart.symm ▸ hexpr)

theorem digits_startsNumber (k : Nat) : ∀ c ∈ Nat.toDigits 10 k, CalcScan.startsNumber c = true := by
  intro c hc
  apply digit_cases (literal_mem hc) <;> decide

/-- Sums with a memory reference on either side: with a callback that leaves the parser's state as it is, both are right
only for a numeral of zero modulo `2^64` that fits its buffer and that the callback does not resolve to anything else. -/
theorem bracket_sums_iff (scanDouble : CStr → Option Float) (num : RNum) (nc : CalcScan.RNumCalc)
    {callback : CStr → Option Ut64} (hcall : num.callback = some callback) {s : CStr} {v : Ut64}
    (hs : ∀ c ∈ s, c ≠ '[' ∧ c ≠ ']' ∧ c ≠ Char.ofNat 39) (hlen : s.length < 1000)
    (hv : callback (bracketed s) = some v) (k : Nat) :
    (CalcScan.Gives scanDouble (some num) nc (bracketed s ++ '+' :: Nat.toDigits 10 k) (v + BitVec.ofNat 64 k) ∧
        CalcScan.Gives scanDouble (some num) nc (Nat.toDigits 10 k ++ '+' :: bracketed s) (BitVec.ofNat 64 k + v)) ↔
      2 ^ 64 ∣ k ∧ (Nat.toDigits 10 k).length < 1024 ∧
        (callback (Nat.toDigits 10 k) = some 0 ∨ (callback (Nat.toDigits 10 k) = none ∧ k = 0)) := by
  have hclose : ']' ∉ s := fun h => (hs _ h).2.1 rfl
  by_cases hk : (Nat.toDigits 10 k).length < 1024
  · have hbody : CalcScan.ShortRuns s := CalcScan.ShortRuns.of_length (by omega)
    have hdigits : CalcScan.ShortRuns (Nat.toDigits 10 k) := CalcScan.ShortRuns.of_length hk
    have hnil : CalcScan.ShortRuns [] := CalcScan.ShortRuns.of_length (by decide)
    obtain ⟨st, hleft⟩ := rNumCalc_bracketed_left scanDouble num nc.toCalc hcall hv hclose hlen ('+' :: Nat.toDigits 10 k)
    obtain ⟨st', hright⟩ := rNumCalc_bracketed_right scanDouble num nc.toCalc hcall hv hclose hlen hk
    have hrunsL : CalcScan.ShortRuns (bracketed s ++ '+' :: Nat.toDigits 10 k) :=
      (hnil.append (by decide) (hbody.append (by decide) hnil)).append (by decide) hdigits
    have hrunsR : CalcScan.ShortRuns (Nat.toDigits 10 k ++ '+' :: bracketed s) :=
      hdigits.append (by decide) (hnil.append (by decide) (hbody.append (by decide) hnil))
    have hlenL : (bracketed s ++ '+' :: Nat.toDigits 10 k).length < 2 ^ 31 := by
      simp only [bracketed, List.length_append, List.length_cons, List.length_nil]
      omega
    have hlenR : (Nat.toDigits 10 k ++ '+' :: bracketed s).length < 2 ^ 31 := by
      simp only [bracketed, List.length_append, List.length_cons, List.length_nil]
      omega
    rw [CalcScan.gives_iff (by simp) hlenL hrunsL hleft, CalcScan.gives_iff (by simp) hlenR hrunsR hright]
    have hdvd : v + BitVec.ofNat 64 k = v ↔ 2 ^ 64 ∣ k := by
      rw [← BitVec.toNat_inj, BitVec.toNat_add, BitVec.toNat_ofNat]
      have hlt := v.isLt
      omega
    rw [hdvd]
    refine and_congr_right (fun hdvd => ?_)
    have hzero : BitVec.ofNat 64 k = 0 := by
      rw [← BitVec.toNat_inj, BitVec.toNat_ofNat]
      exact Nat.mod_eq_zero_of_dvd hdvd
    rw [← numeral_eq_zero_iff num callback hcall k hdvd, hzero, and_iff_right hk, eq_comm]
    exact BitVec.add_left_inj v
  · refine iff_of_false (fun h => ?_) (fun h => hk h.2.1)
    exact CalcScan.not_gives_digits (not_lt.mp hk) (digits_startsNumber k) _ h.2

/-- A callback that knows the reference `[s]`. -/
def refCallback (str : CStr) : Option Ut64 := if str = bracketed ['s'] then some 5 else none

def refNum : RNum := { plainNum with callback := some refCallback }

theorem name_plain : ∀ c ∈ ['s'], c ≠ '[' ∧ c ≠ ']' ∧ c ≠ Char.ofNat 39 := by
  intro c hc
  rw [List.mem_singleton.mp hc]
  decide

theorem bracket_sums_iff_zero :
    CalcScan.Gives (fun _ => none) (some refNum) blankCalc (bracketed ['s'] ++ '+' :: Nat.toDigits 10 0)
        (5 + BitVec.ofNat 64 0) ∧
      CalcScan.Gives (fun _ => none) (some refNum) blankCalc (Nat.toDigits 10 0 ++ '+' :: bracketed ['s'])
        (BitVec.ofNat 64 0 + 5) := by
  have hcall : refNum.callback = some refCallback := rfl
  have hv : refCallback (bracketed ['s']) = some 5 := rfl
  apply (bracket_sums_iff (fun _ => none) refNum blankCalc hcall name_plain (by decide) hv 0).mpr
  exact ⟨Nat.dvd_zero _, by decide, Or.inr ⟨by decide, rfl⟩⟩

/-- `[s]+1` is `[s]`. -/
theorem bracket_drops_sum : (∀ c ∈ ['s'], c ≠ '[' ∧ c ≠ ']' ∧ c ≠ Char.ofNat 39) ∧
    refCallback (bracketed ['s']) = some 5 ∧
    CalcScan.Gives (fun _ => none) (some refNum) blankCalc (bracketed ['s'] ++ '+' :: Nat.toDigits 10 1) 5 ∧
    ¬CalcScan.Gives (fun _ => none) (some refNum) blankCalc (bracketed ['s'] ++ '+' :: Nat.toDigits 10 1)
      (5 + BitVec.ofNat 64 1) := by
  have hcall : refNum.callback = some refCallback := rfl
  have hv : refCallback (bracketed ['s']) = some 5 := rfl
  obtain ⟨st, hleft⟩ := rNumCalc_bracketed_left (fun _ => none) refNum blankCalc.toCalc hcall hv (by decide) (by decide)
    ('+' :: Nat.toDigits 10 1)
  have hgives := CalcScan.gives_iff (by decide) (by decide) (CalcScan.ShortRuns.of_length (by decide)) hleft
  refine ⟨name_plain, hv, (hgives 5).mpr rfl, fun h => ?_⟩
  exact absurd ((hgives _).mp h) (by decide)

end Calc

end Radare.Calc
