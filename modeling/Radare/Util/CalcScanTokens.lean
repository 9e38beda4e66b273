import Radare.Util.CalcScan

namespace Radare.CalcScan

open Calc (isNumberChar isValidChar charToken rNumGetWith)

/-- The state as the tokens see it: a text that is taken from its beginning. -/
def CalcState.toCalc (st : CalcState) : Calc.CalcState where
  num := st.num
  nc :=
    { currTok := st.nc.currTok, numberValue := st.nc.numberValue, stringValue := st.nc.stringValue,
      errors := st.nc.errors, oc := st.nc.oc, calcErr := st.nc.calcErr, rest := st.nc.text.drop st.nc.calcI }

/-- `st` at another place of the input. -/
def seek (st : Calc.CalcState) (oc : Option Char) (rest : CStr) : Calc.CalcState :=
  { st with nc := { st.nc with oc := oc, rest := rest } }

/-- `st` with another token buffer. -/
def named (st : Calc.CalcState) (s : CStr) : Calc.CalcState := { st with nc := { st.nc with stringValue := s } }

/-- The index has not left the text, and `string_value` was stored to inside the buffer. -/
structure Inside (st : CalcState) : Prop where
  index : st.nc.calcI ≤ st.nc.text.length
  stringValue : ∀ i ∈ st.log.stringValue, i < 1024

def ReadsOk (st : CalcState) : Prop := ∀ r ∈ st.log.reads, 0 ≤ r ∧ r ≤ st.nc.calcBuf.length

def StrOk (st : CalcState) : Prop := ∀ i ∈ st.log.str, i < 1024

/-- `st'` comes of `st` without a call of `get_token`; `ended` says that the end of the text was looked at, and `over` that
the store behind a number is outside `str`. -/
structure Scans (st st' : CalcState) (ended beyond : Prop) : Prop where
  buf : st'.nc.calcBuf = st.nc.calcBuf
  inside : Inside st → Inside st'
  reads : Inside st → (ReadsOk st' ↔ ReadsOk st ∧ (st.nc.calcBuf.length < 2 ^ 31 ∨ ¬ended))
  str : StrOk st' ↔ StrOk st ∧ ¬beyond
  calls : st'.log.calls = st.log.calls

theorem Scans.append {st st' st'' : CalcState} {ended beyond ended' beyond' : Prop} (h : Scans st st' ended beyond)
    (h' : Scans st' st'' ended' beyond') : Scans st st'' (ended ∨ ended') (beyond ∨ beyond') := by
  refine ⟨h'.buf.trans h.buf, fun hin => h'.inside (h.inside hin), fun hin => ?_, ?_, h'.calls.trans h.calls⟩
  · rw [h'.reads (h.inside hin), h.reads hin, h.buf, and_assoc, ← or_and_left, ← not_or]
  · rw [h'.str, h.str, and_assoc, ← not_or]

theorem Scans.trans {st st' st'' : CalcState} {ended beyond : Prop} (h : Scans st st' False False)
    (h' : Scans st' st'' ended beyond) : Scans st st'' ended beyond := by
  simpa only [false_or] using h.append h'

theorem Scans.before {st st' st'' : CalcState} {ended beyond : Prop} (h : Scans st st' ended beyond)
    (h' : Scans st' st'' False False) : Scans st st'' ended beyond := by
  simpa only [or_false] using h.append h'

/-- Steps that neither read the text nor store to a buffer. -/
theorem Scans.still {st st' : CalcState} (hbuf : st'.nc.calcBuf = st.nc.calcBuf) (hi : st'.nc.calcI = st.nc.calcI)
    (hlog : st'.log = st.log) : Scans st st' False False := by
  have htext : st'.nc.text = st.nc.text := by rw [RNumCalc.text, RNumCalc.text, hbuf]
  refine ⟨hbuf, fun hin => ⟨?_, ?_⟩, fun _ => ?_, ?_, congrArg Accesses.calls hlog⟩
  · rw [hi, htext]
    exact hin.index
  · rw [hlog]
    exact hin.stringValue
  · simp [ReadsOk, hlog, hbuf]
  · simp [StrOk, hlog]

theorem text_length (nc : RNumCalc) : nc.text.length = min (2 ^ 31) nc.calcBuf.length := List.length_take

/-- A read at the index of the next character. -/
theorem readsOk_append {st st' : CalcState} (hin : Inside st) (hbuf : st'.nc.calcBuf = st.nc.calcBuf)
    (hlog : st'.log.reads = st.log.reads ++ [wrapInt st.nc.calcI]) :
    ReadsOk st' ↔ ReadsOk st ∧ (st.nc.calcBuf.length < 2 ^ 31 ∨ ¬st.nc.calcI = st.nc.text.length) := by
  have hi := hin.index
  have hlen := text_length st.nc
  have hlast : (0 ≤ wrapInt st.nc.calcI ∧ wrapInt st.nc.calcI ≤ st.nc.calcBuf.length) ↔
      (st.nc.calcBuf.length < 2 ^ 31 ∨ ¬st.nc.calcI = st.nc.text.length) := by
    unfold wrapInt
    omega
  rw [← hlast, ReadsOk, ReadsOk, hlog, hbuf, List.forall_mem_append, List.forall_mem_singleton]

/-- A read that leaves the index at `j`. -/
theorem Scans.read {st st' : CalcState} {j : Nat} {ended : Prop} (hbuf : st'.nc.calcBuf = st.nc.calcBuf) (hj : st'.nc.calcI = j)
    (hle : Inside st → j ≤ st.nc.text.length)
    (hlog : st'.log = { st.log with reads := st.log.reads ++ [wrapInt st.nc.calcI] })
    (hended : Inside st → (ended ↔ st.nc.calcI = st.nc.text.length)) : Scans st st' ended False := by
  have htext : st'.nc.text = st.nc.text := by rw [RNumCalc.text, RNumCalc.text, hbuf]
  refine ⟨hbuf, fun hin => ⟨?_, ?_⟩, fun hin => ?_, ?_, by rw [hlog]⟩
  · rw [hj, htext]
    exact hle hin
  · rw [hlog]
    exact hin.stringValue
  · rw [readsOk_append hin hbuf (by rw [hlog]), hended hin]
  · simp [StrOk, hlog]

theorem cinGet_spec (st : CalcState) :
    (cinGet st).1 = st.pending.head? ∧ (cinGet st).2.toCalc = seek st.toCalc none st.pending.tail ∧
      Scans st (cinGet st).2 (st.pending = []) False := by
  cases hoc : st.nc.oc with
  | some c =>
    have hpending : st.pending = c :: st.nc.text.drop st.nc.calcI := by rw [CalcState.pending, hoc]; rfl
    have hcin : cinGet st = (some c, { st with nc := { st.nc with oc := none } }) := by simp only [cinGet, hoc]
    have hne : (c :: st.nc.text.drop st.nc.calcI = []) = False := eq_false (List.cons_ne_nil _ _)
    rw [hcin, hpending, hne]
    exact ⟨rfl, rfl, Scans.still rfl rfl rfl⟩
  | none =>
    have hpending : st.pending = st.nc.text.drop st.nc.calcI := by rw [CalcState.pending, hoc]; rfl
    rcases Nat.lt_or_ge st.nc.calcI st.nc.text.length with hlt | hge
    · have hget : st.nc.text[st.nc.calcI]? = some st.nc.text[st.nc.calcI] := List.getElem?_eq_getElem hlt
      have hcin : cinGet st = (some st.nc.text[st.nc.calcI],
          ⟨st.num, { st.nc with calcI := st.nc.calcI + 1 },
            { st.log with reads := st.log.reads ++ [wrapInt st.nc.calcI] }⟩) := by
        simp only [cinGet, hoc]
        rw [hget]
      rw [hcin, hpending, List.drop_eq_getElem_cons hlt]
      refine ⟨rfl, ?_, Scans.read rfl rfl (fun _ => hlt) rfl fun _ => iff_of_false (List.cons_ne_nil _ _) hlt.ne⟩
      simp only [CalcState.toCalc, seek, hoc]
      rfl
    · have hget : st.nc.text[st.nc.calcI]? = none := List.getElem?_eq_none hge
      have hcin : cinGet st =
          (none, { st with log := { st.log with reads := st.log.reads ++ [wrapInt st.nc.calcI] } }) := by
        simp only [cinGet, hoc]
        rw [hget]
      rw [hcin, hpending, List.drop_eq_nil_of_le hge]
      refine ⟨rfl, ?_, ?_⟩
      · simp only [CalcState.toCalc, seek, hoc, List.tail_nil, List.drop_eq_nil_of_le hge]
      · exact Scans.read rfl rfl Inside.index rfl fun hin => iff_of_true rfl (le_antisymm hin.index hge)

theorem cinGet_none {st st' : CalcState} (h : cinGet st = (none, st')) :
    st.pending = [] ∧ st'.toCalc = seek st.toCalc none [] ∧ Scans st st' True False := by
  obtain ⟨hget, hcalc, hscan⟩ := cinGet_spec st
  rw [h] at hget hcalc hscan
  have hnil : st.pending = [] := List.head?_eq_none_iff.mp hget.symm
  rw [hnil] at hcalc hscan
  exact ⟨hnil, hcalc, by simpa only using hscan⟩

theorem cinGet_some {st st' : CalcState} {c : Char} (h : cinGet st = (some c, st')) :
    st.pending = c :: st'.pending ∧ st'.toCalc = seek st.toCalc none st'.pending ∧ Scans st st' False False := by
  obtain ⟨-, hcalc, hscan⟩ := cinGet_spec st
  have hin := cinGet_pending h
  rw [h, hin] at hcalc hscan
  exact ⟨hin, hcalc, by simpa only [reduceCtorEq] using hscan⟩

theorem seek_seek (st : Calc.CalcState) (oc oc' : Option Char) (rest rest' : CStr) :
    seek (seek st oc rest) oc' rest' = seek st oc' rest' := rfl

theorem cinPutback_toCalc {st : CalcState} {st' : Calc.CalcState} {oc : Option Char} {rest : CStr}
    (h : st.toCalc = seek st' oc rest) (c : Option Char) : (cinPutback st c).toCalc = seek st' c rest := by
  have hcalc : (cinPutback st c).toCalc = seek st.toCalc c st.toCalc.nc.rest := rfl
  rw [hcalc, h]
  rfl

theorem Scans.putback (st : CalcState) (c : Option Char) : Scans st (cinPutback st c) False False := Scans.still rfl rfl rfl

theorem skipBlanks_spec (st : CalcState) :
    (skipBlanks st).1 = (st.pending.dropWhile Calc.isBlank).head? ∧
      (skipBlanks st).2.toCalc = seek st.toCalc none (st.pending.dropWhile Calc.isBlank).tail ∧
      Scans st (skipBlanks st).2 (st.pending.dropWhile Calc.isBlank = []) False := by
  fun_induction skipBlanks st with
  | case1 st st' h =>
    obtain ⟨hin, hcalc, hscan⟩ := cinGet_none h
    rw [hin]
    exact ⟨rfl, hcalc, by simpa using hscan⟩
  | case2 st ch st' h hblank ih =>
    obtain ⟨hin, hcalc, hscan⟩ := cinGet_some h
    obtain ⟨hch, hcalc', hscan'⟩ := ih
    rw [hin, List.dropWhile_cons_of_pos hblank]
    rw [hcalc, seek_seek] at hcalc'
    exact ⟨hch, hcalc', hscan.trans hscan'⟩
  | case3 st ch st' h hblank =>
    obtain ⟨hin, hcalc, hscan⟩ := cinGet_some h
    rw [hin, List.dropWhile_cons_of_neg hblank]
    exact ⟨rfl, hcalc, by simpa using hscan⟩

theorem Scans.storeStr (st : CalcState) (i : Nat) : Scans st (storeStr st i) False (1024 ≤ i) := by
  refine ⟨rfl, fun hin => ⟨hin.index, hin.stringValue⟩, fun _ => ?_, ?_, rfl⟩
  · simp [ReadsOk, CalcScan.storeStr]
  · rw [StrOk, StrOk, CalcScan.storeStr, List.forall_mem_append, List.forall_mem_singleton, not_le]

theorem Scans.inBuffer (st : CalcState) {i : Nat} (hi : i < 1024) : Scans st (CalcScan.storeStr st i) False False := by
  simpa only [not_le.mpr hi] using Scans.storeStr st i

theorem numLoop_spec (str : CStr) (st : CalcState) (hlen : str.length ≤ 1024) :
    (numLoop str st).1 = (str ++ st.pending.takeWhile isNumberChar).take 1024 ∧
      (numLoop str st).2.toCalc =
        seek st.toCalc (st.pending.dropWhile isNumberChar).head? (st.pending.dropWhile isNumberChar).tail ∧
      Scans st (numLoop str st).2 (st.pending.dropWhile isNumberChar = []) False := by
  fun_induction numLoop str st with
  | case1 str st st' h =>
    obtain ⟨hin, hcalc, hscan⟩ := cinGet_none h
    rw [hin]
    exact ⟨by simpa using (List.take_of_length_le hlen).symm, hcalc, by simpa using hscan⟩
  | case2 str st c st' h hc =>
    obtain ⟨hin, hcalc, hscan⟩ := cinGet_some h
    have hneg : ¬isNumberChar c = true := by simp [hc]
    rw [hin, List.takeWhile_cons_of_neg hneg, List.dropWhile_cons_of_neg hneg]
    refine ⟨by simpa using (List.take_of_length_le hlen).symm, cinPutback_toCalc hcalc _, ?_⟩
    simpa using hscan.trans (Scans.putback st' (some c))
  | case3 str st c st' h hc hfits ih =>
    obtain ⟨hin, hcalc, hscan⟩ := cinGet_some h
    have hpos : isNumberChar c = true := by simpa using hc
    obtain ⟨hstr, hcalc', hscan'⟩ := ih (by rw [List.length_append]; exact hfits)
    rw [hin, List.takeWhile_cons_of_pos hpos, List.dropWhile_cons_of_pos hpos]
    have hstore : (storeStr st' str.length).toCalc = st'.toCalc := rfl
    rw [hstore, hcalc, seek_seek] at hcalc'
    refine ⟨?_, hcalc', hscan.trans ((Scans.inBuffer st' hfits).trans hscan')⟩
    rw [hstr, List.append_assoc]
    rfl
  | case4 str st c st' h hc hfull ih =>
    obtain ⟨hin, hcalc, hscan⟩ := cinGet_some h
    have hpos : isNumberChar c = true := by simpa using hc
    have hlen' : str.length = 1024 := le_antisymm hlen (not_lt.mp hfull)
    obtain ⟨hstr, hcalc', hscan'⟩ := ih hlen
    rw [hin, List.takeWhile_cons_of_pos hpos, List.dropWhile_cons_of_pos hpos]
    rw [hcalc, seek_seek] at hcalc'
    refine ⟨?_, hcalc', hscan.trans hscan'⟩
    rw [hstr, ← hlen', List.take_left, List.take_left]

section
variable (scanDouble : CStr → Option Float)

theorem cinGetNum_spec (st : CalcState) :
    (cinGetNum scanDouble st).1 = (Calc.cinGetNum scanDouble st.toCalc).1 ∧
      (cinGetNum scanDouble st).2.toCalc = (Calc.cinGetNum scanDouble st.toCalc).2 ∧
      Scans st (cinGetNum scanDouble st).2 (st.pending.dropWhile isNumberChar = [])
        (1024 ≤ (st.pending.takeWhile isNumberChar).length) := by
  obtain ⟨hstr, hcalc, hscan⟩ := numLoop_spec [] (storeStr st 0) (Nat.zero_le _)
  have hpending : (storeStr st 0).pending = st.toCalc.nc.pending := rfl
  have hzero : (storeStr st 0).toCalc = st.toCalc := rfl
  rw [hpending] at hstr hcalc hscan
  rw [List.nil_append] at hstr
  rw [hzero] at hcalc
  replace hscan := (Scans.inBuffer st (by decide)).trans hscan
  change _ ∧ _ ∧ Scans st _ (st.toCalc.nc.pending.dropWhile isNumberChar = [])
    (1024 ≤ (st.toCalc.nc.pending.takeWhile isNumberChar).length)
  simp only [cinGetNum, Calc.cinGetNum]
  generalize numLoop [] (storeStr st 0) = r at hstr hcalc hscan ⊢
  obtain ⟨str, st'⟩ := r
  dsimp only at hstr hcalc hscan ⊢
  have hnc : st.toCalc.nc.putback (st.toCalc.nc.pending.dropWhile isNumberChar) = st'.toCalc.nc := by
    rw [hcalc]
    rfl
  have hnum : st.toCalc.num = st'.num := (congrArg Calc.CalcState.num hcalc).symm
  rw [← hstr, hnc, hnum]
  have hlen : 1024 ≤ str.length ↔ 1024 ≤ (st.toCalc.nc.pending.takeWhile isNumberChar).length := by
    rw [hstr, List.length_take]
    omega
  have hstore := Scans.storeStr st' str.length
  rw [hlen] at hstore
  have hover := hscan.append hstore
  rw [or_false, false_or] at hover
  split
  · cases scanDouble str with
    | none => exact ⟨rfl, rfl, hover.before (Scans.still rfl rfl rfl)⟩
    | some d => exact ⟨rfl, rfl, hover.before (Scans.still rfl rfl rfl)⟩
  · exact ⟨rfl, rfl, hover.before (Scans.still rfl rfl rfl)⟩

end

section Names

/-- Setting the token. -/
def withToken (st : Calc.CalcState) (tok : Calc.RNumCalcToken) : Calc.CalcState :=
  { st with nc := { st.nc with currTok := tok } }

theorem Scans.setToken (st : CalcState) (tok : Calc.RNumCalcToken) : Scans st (CalcScan.setToken st tok) False False :=
  Scans.still rfl rfl rfl

theorem stringValueAppend_scans (x : Option Char) (i : Nat) (st : CalcState) :
    Scans st (stringValueAppend x i st).2 False False := by
  have hstored : ∀ (j : Nat) (value : CStr), j < 1024 →
      Scans st
        ⟨st.num, { st.nc with stringValue := value }, { st.log with stringValue := st.log.stringValue ++ [j] }⟩
        False False := by
    intro j value hj
    refine ⟨rfl, fun hin => ⟨hin.index, ?_⟩, fun _ => ?_, ?_, rfl⟩
    · exact List.forall_mem_append.mpr ⟨hin.stringValue, List.forall_mem_singleton.mpr hj⟩
    · simp [ReadsOk]
    · simp [StrOk]
  unfold stringValueAppend
  split
  · exact hstored i _ (by omega)
  · exact hstored 1023 _ (by decide)

theorem stringValueAppend_calc (x : Option Char) (i : Nat) (st : CalcState) :
    (stringValueAppend x i st).2.toCalc = named st.toCalc (stringValueAppend x i st).2.nc.stringValue := by
  unfold stringValueAppend
  split <;> rfl

/-- A character behind the `i` that there are. -/
theorem stringValueAppend_char {i : Nat} {st : CalcState} (hi : st.nc.stringValue.length = i) (hle : i ≤ 1023) (c : Char) :
    (stringValueAppend (some c) i st).1 ≤ 1023 ∧
      (stringValueAppend (some c) i st).2.nc.stringValue = (st.nc.stringValue ++ [c]).take 1023 ∧
      (stringValueAppend (some c) i st).2.nc.stringValue.length = (stringValueAppend (some c) i st).1 := by
  unfold stringValueAppend
  split
  · rename_i hlt
    have hall : st.nc.stringValue.take i = st.nc.stringValue := List.take_of_length_le hi.le
    have hlen : (st.nc.stringValue ++ [c]).length = i + 1 := by rw [List.length_append, hi]; rfl
    dsimp only
    rw [hall, List.take_of_length_le (l := st.nc.stringValue ++ [c]) (by omega)]
    exact ⟨hlt, rfl, hlen⟩
  · have hfull : st.nc.stringValue.length = 1023 := by omega
    dsimp only
    rw [List.take_append_of_le_length hfull.ge]
    exact ⟨hle, rfl, by rw [List.take_of_length_le hfull.le]; exact hi⟩

/-- A zero changes none of the characters in front of it. -/
theorem stringValueAppend_zero {i : Nat} {st : CalcState} (hi : st.nc.stringValue.length ≤ i) (hle : i ≤ 1023) :
    (stringValueAppend none i st).1 ≤ 1023 ∧ i ≤ (stringValueAppend none i st).1 ∧
      (stringValueAppend none i st).2.nc.stringValue = st.nc.stringValue := by
  unfold stringValueAppend
  split
  · rename_i hlt
    exact ⟨hlt, Nat.le_succ i, by simp [List.take_of_length_le hi]⟩
  · exact ⟨hle, le_rfl, List.take_of_length_le (hi.trans hle)⟩

theorem take_take_append (l m : CStr) (n : Nat) : (l.take n ++ m).take n = (l ++ m).take n := by
  rcases Nat.le_total l.length n with hle | hge
  · rw [List.take_of_length_le hle]
  · have hlen : (l.take n).length = n := List.length_take_of_le hge
    rw [List.take_append_of_le_length hlen.ge, List.take_append_of_le_length hge, List.take_take, Nat.min_self]

theorem nameLoop_spec (inName : Char → Bool) (i : Nat) (st : CalcState) (hi : st.nc.stringValue.length = i) (hle : i ≤ 1023) :
    ∃ j st', nameLoop inName i st = .ok ((st.pending.dropWhile inName).head?, j, st') ∧ j ≤ 1023 ∧
      st'.nc.stringValue = (st.nc.stringValue ++ st.pending.takeWhile inName).take 1023 ∧
      st'.nc.stringValue.length = j ∧
      st'.toCalc = named (seek st.toCalc none (st.pending.dropWhile inName).tail) st'.nc.stringValue ∧
      Scans st st' (st.pending.dropWhile inName = []) False := by
  fun_induction nameLoop inName i st with
  | case1 i st st' h =>
    obtain ⟨hin, hcalc, hscan⟩ := cinGet_none h
    have hname : st'.nc.stringValue = st.nc.stringValue := congrArg (fun st => st.nc.stringValue) hcalc
    rw [hin]
    refine ⟨i, st', rfl, hle, ?_, by rw [hname, hi], by rw [hcalc, hname]; rfl, by simpa using hscan⟩
    rw [hname, List.takeWhile_nil, List.append_nil, List.take_of_length_le (by omega)]
  | case2 i st ch st' h hch =>
    obtain ⟨hin, hcalc, hscan⟩ := cinGet_some h
    have hname : st'.nc.stringValue = st.nc.stringValue := congrArg (fun st => st.nc.stringValue) hcalc
    have hneg : ¬inName ch = true := by simp [hch]
    rw [hin, List.takeWhile_cons_of_neg hneg, List.dropWhile_cons_of_neg hneg]
    refine ⟨i, st', rfl, hle, ?_, by rw [hname, hi], by rw [hcalc, hname]; rfl, by simpa using hscan⟩
    rw [hname, List.append_nil, List.take_of_length_le (by omega)]
  | case3 i st ch st' h hch hfull => omega
  | case4 i st ch st' h hch hfull ih =>
    obtain ⟨hin, hcalc, hscan⟩ := cinGet_some h
    have hname : st'.nc.stringValue = st.nc.stringValue := congrArg (fun st => st.nc.stringValue) hcalc
    have hpos : inName ch = true := by simpa using hch
    obtain ⟨hle', hvalue, hlen⟩ := stringValueAppend_char (hname ▸ hi) hle ch
    obtain ⟨j, st'', hloop, hj, hvalue', hlen', hcalc', hscan'⟩ := ih hlen hle'
    rw [stringValueAppend_pending] at hloop hvalue' hcalc' hscan'
    rw [hin, List.takeWhile_cons_of_pos hpos, List.dropWhile_cons_of_pos hpos]
    refine ⟨j, st'', hloop, hj, ?_, hlen', ?_, hscan.trans ((stringValueAppend_scans _ _ _).trans hscan')⟩
    · rw [hvalue', hvalue, hname, take_take_append, List.append_assoc]
      rfl
    · rw [hcalc', stringValueAppend_calc, hcalc]
      rfl

/-- The characters of the name that begins with `ch`. -/
def inName (ch : Char) : Char → Bool := if ch = '[' then fun c => c ≠ ']' else isValidChar

/-- The character behind a name in brackets is kept with it; at the end of the text that is a zero. -/
theorem stringValueAppend_last {i : Nat} {st : CalcState} (hi : st.nc.stringValue.length = i) (hle : i ≤ 1023) (last : Option Char) :
    (stringValueAppend last i st).1 ≤ 1023 ∧
      (stringValueAppend last i st).2.nc.stringValue = (st.nc.stringValue ++ last.toList).take 1023 ∧
      (stringValueAppend last i st).2.nc.stringValue.length ≤ (stringValueAppend last i st).1 := by
  cases last with
  | some c =>
    obtain ⟨hle', hvalue, hlen⟩ := stringValueAppend_char hi hle c
    exact ⟨hle', hvalue, hlen.le⟩
  | none =>
    obtain ⟨hle', hge, hvalue⟩ := stringValueAppend_zero hi.le hle
    refine ⟨hle', ?_, by rw [hvalue, hi]; exact hge⟩
    rw [hvalue, Option.toList_none, List.append_nil, List.take_of_length_le (hi.le.trans hle)]

/-- A name of which all but the zero behind it is stored. -/
theorem nameEnd_spec {i : Nat} {st : CalcState} (nc : Calc.RNumCalc) (rest : CStr) (hi : st.nc.stringValue.length ≤ i) (hle : i ≤ 1023)
    (hcalc : st.toCalc = ⟨st.num, { nc with stringValue := st.nc.stringValue, oc := none, rest := rest }⟩) (last : Option Char) :
    let st' := (stringValueAppend none i st).2
    let st'' := setToken (if last = some (Char.ofNat 39) then st' else cinPutback st' last) .rncName
    st''.toCalc = ⟨st.num,
        { nc with
          stringValue := st.nc.stringValue, oc := if last = some (Char.ofNat 39) then none else last, rest := rest,
          currTok := .rncName }⟩ ∧
      Scans st st'' False False := by
  obtain ⟨-, -, hvalue⟩ := stringValueAppend_zero hi hle
  have hscan := stringValueAppend_scans none i st
  have hcalc' : (stringValueAppend none i st).2.toCalc =
      seek ⟨st.num, { nc with stringValue := st.nc.stringValue }⟩ none rest := by
    rw [stringValueAppend_calc, hvalue, hcalc]
    rfl
  dsimp only
  split
  · exact ⟨congrArg (withToken · .rncName) hcalc', hscan.trans (Scans.setToken _ _)⟩
  · exact ⟨congrArg (withToken · .rncName) (cinPutback_toCalc hcalc' last),
      hscan.trans ((Scans.putback _ last).trans (Scans.setToken _ _))⟩

theorem nameToken_spec (ch : Char) (st : CalcState) :
    (nameToken ch st).toCalc = ⟨st.num, Calc.nameToken st.toCalc.nc ch st.pending⟩ ∧
      Scans st (nameToken ch st) (st.pending.dropWhile (inName ch) = []) False := by
  obtain ⟨j, st', hloop, hj, hvalue, hlen, hcalc, hscan⟩ :=
    nameLoop_spec (inName ch) 1 (stringValueAppend (some ch) 0 st).2 rfl (by decide)
  rw [stringValueAppend_pending] at hloop hvalue hcalc hscan
  have hfirst : (stringValueAppend (some ch) 0 st).2.toCalc = named st.toCalc [ch] := rfl
  replace hscan := (stringValueAppend_scans (some ch) 0 st).trans hscan
  have hvalue' : st'.nc.stringValue = (ch :: st.pending.takeWhile (inName ch)).take 1023 := hvalue
  have hnum : st'.num = st.num := congrArg Calc.CalcState.num hcalc
  have hstart : stringValueAppend (some ch) 0 st = (1, (stringValueAppend (some ch) 0 st).2) := rfl
  unfold nameToken
  rw [hstart]
  dsimp only
  have hinName : (if ch = '[' then fun c => decide (c ≠ ']') else isValidChar) = inName ch := rfl
  rw [hinName, hloop]
  dsimp only
  have hname : Calc.nameToken st.toCalc.nc ch st.pending =
      { st.toCalc.nc with
        stringValue := (if ch = '[' then ch :: st.pending.takeWhile (inName ch) ++ (st.pending.dropWhile (inName ch)).head?.toList
          else ch :: st.pending.takeWhile (inName ch)).take 1023
        oc := if (st.pending.dropWhile (inName ch)).head? = some (Char.ofNat 39) then none
          else (st.pending.dropWhile (inName ch)).head?
        rest := (st.pending.dropWhile (inName ch)).tail
        currTok := .rncName } := rfl
  rw [hname]
  by_cases hch : ch = '['
  · rw [if_pos hch, if_pos hch]
    obtain ⟨hj', hvalue'', hlen'⟩ := stringValueAppend_last hlen hj (st.pending.dropWhile (inName ch)).head?
    rw [hvalue', take_take_append] at hvalue''
    have hcalc' := stringValueAppend_calc (st.pending.dropWhile (inName ch)).head? j st'
    have hnum' : (stringValueAppend (st.pending.dropWhile (inName ch)).head? j st').2.num = st.num :=
      (congrArg Calc.CalcState.num hcalc').trans hnum
    have hend := nameEnd_spec st.toCalc.nc (st.pending.dropWhile (inName ch)).tail hlen' hj'
      (by rw [hcalc', hcalc, hfirst, hnum']; rfl) (st.pending.dropWhile (inName ch)).head?
    rw [hnum', hvalue''] at hend
    exact ⟨hend.1, hscan.before ((stringValueAppend_scans _ _ _).trans hend.2)⟩
  · rw [if_neg hch, if_neg hch, ← hvalue']
    have hend := nameEnd_spec st.toCalc.nc (st.pending.dropWhile (inName ch)).tail hlen.le hj
      (by rw [hcalc, hfirst, hnum]; rfl) (st.pending.dropWhile (inName ch)).head?
    rw [hnum] at hend
    exact ⟨hend.1, hscan.before hend.2⟩

theorem pairToken_spec (second : Char) (pair single : Calc.RNumCalcToken) (st : CalcState) :
    (pairToken second pair single st).toCalc =
        (if st.pending.head? = some second then withToken (seek st.toCalc none st.pending.tail) pair
        else withToken (seek st.toCalc st.pending.head? st.pending.tail) single) ∧
      Scans st (pairToken second pair single st) (st.pending = []) False := by
  unfold pairToken
  split
  · rename_i c st' h
    obtain ⟨hin, hcalc, hscan⟩ := cinGet_some h
    rw [hin]
    have hne : (c :: st'.pending = []) = False := eq_false (List.cons_ne_nil _ _)
    rw [hne]
    by_cases hc : c = second
    · rw [if_pos hc, if_pos (by rw [hc]; rfl)]
      exact ⟨congrArg (withToken · pair) hcalc, hscan.trans (Scans.setToken st' pair)⟩
    · rw [if_neg hc, List.head?_cons, if_neg fun heq => hc (Option.some.inj heq)]
      exact ⟨congrArg (withToken · single) (cinPutback_toCalc hcalc (some c)),
        hscan.trans ((Scans.putback st' (some c)).trans (Scans.setToken _ single))⟩
  · rename_i st' h
    obtain ⟨hin, hcalc, hscan⟩ := cinGet_none h
    rw [hin, List.head?_nil, if_neg (by simp)]
    have htrue : (([] : CStr) = []) = True := eq_true rfl
    rw [htrue]
    exact ⟨congrArg (withToken · single) (cinPutback_toCalc hcalc none),
      hscan.before ((Scans.putback st' none).trans (Scans.setToken _ single))⟩

end Names

/-- A number in front of the input has its place in `str`, with the zero behind it. -/
def NumberFits (input : CStr) : Prop :=
  ∀ c, (input.dropWhile Calc.isBlank).head? = some c → startsNumber c = true →
    ((input.dropWhile Calc.isBlank).takeWhile isNumberChar).length < 1024

/-- The token in front of the input is not over before the input is. -/
def RunsOut (input : CStr) : Prop :=
  match input.dropWhile Calc.isBlank with
  | [] => True
  | ch :: rest =>
    if ch = ';' ∨ ch = '\n' then False
    else if ch = '+' ∨ ch = '~' ∨ ch = '-' then rest = []
    else if (charToken ch).isSome then False
    else if startsNumber ch then rest.dropWhile isNumberChar = []
    else rest.dropWhile (inName ch) = []

theorem startsNumber_numberChar {c : Char} (h : startsNumber c = true) : isNumberChar c = true := by
  simp only [startsNumber, Bool.or_eq_true, decide_eq_true_eq] at h
  rcases h with h | h
  · simp [isNumberChar, Calc.isAlnum, h]
  · simp [isNumberChar, h]

theorem startsNumber_not_blank {c : Char} (h : startsNumber c = true) : ¬Calc.isBlank c = true := by
  intro hblank
  simp only [Calc.isBlank, isSpace, Bool.and_eq_true, Bool.or_eq_true, decide_eq_true_eq] at hblank
  simp only [startsNumber, Bool.or_eq_true, Bool.and_eq_true, decide_eq_true_eq] at h
  have hlow : 46 ≤ c.toNat := by
    rcases h with ⟨h, -⟩ | rfl
    · have hzero : '0'.toNat ≤ c.toNat := h
      exact le_trans (by decide) hzero
    · decide
  rcases hblank.2 with rfl | ⟨-, hhigh⟩
  · exact absurd hlow (by decide)
  · omega

theorem charToken_not_number {c : Char} {tok : Calc.RNumCalcToken} (h : charToken c = some tok) : startsNumber c = false := by
  by_contra hstart
  have hne : ∀ d, startsNumber d = false → c ≠ d := by
    rintro d hd rfl
    exact hstart hd
  simp only [charToken, hne '^' (by decide), hne '&' (by decide), hne '|' (by decide), hne '*' (by decide),
    hne '%' (by decide), hne '/' (by decide), hne '(' (by decide), hne ')' (by decide), hne '<' (by decide),
    hne '>' (by decide), hne '=' (by decide), if_false, reduceCtorEq] at h

theorem NumberFits.of_head {input rest : CStr} {ch : Char} (h : input.dropWhile Calc.isBlank = ch :: rest)
    (hch : startsNumber ch = false) : NumberFits input := by
  intro c hc hstart
  rw [h] at hc
  obtain rfl := Option.some.inj hc
  rw [hch] at hstart
  cases hstart

theorem Scans.congr {st st' : CalcState} {ended beyond ended' beyond' : Prop} (h : Scans st st' ended beyond)
    (hended : ended ↔ ended') (hover : beyond ↔ beyond') : Scans st st' ended' beyond' := by
  rwa [hended, hover] at h

section
variable (scanDouble : CStr → Option Float)

/-- The second character of a pair behind the first. -/
theorem pairToken_at {st st' : CalcState} {rest : CStr} (hcalc : st'.toCalc = seek st.toCalc none rest)
    (second : Char) (pair single : Calc.RNumCalcToken) :
    (pairToken second pair single st').toCalc =
        (if rest.head? = some second then withToken (seek st.toCalc none rest.tail) pair
        else withToken (seek st.toCalc rest.head? rest.tail) single) ∧
      Scans st' (pairToken second pair single st') (rest = []) False := by
  have hin : st'.pending = rest := congrArg (fun st => st.nc.pending) hcalc
  have hspec := pairToken_spec second pair single st'
  rwa [hin, hcalc] at hspec

/-- The number that begins with `ch`. -/
theorem numberToken_at {st : Calc.CalcState} {st' : CalcState} {ch : Char} {rest : CStr} (hcalc : st'.toCalc = seek st none rest)
    (hchar : isNumberChar ch = true) :
    let st'' := match cinGetNum scanDouble (cinPutback st' (some ch)) with
      | (false, st) => error st "invalid number conversion"
      | (true, st) => setToken st .rncNumber
    st''.toCalc =
        (match Calc.cinGetNum scanDouble (seek st (some ch) rest) with
        | (false, st) => Calc.error st "invalid number conversion"
        | (true, st) => withToken st .rncNumber) ∧
      Scans st' st'' (rest.dropWhile isNumberChar = []) (1024 ≤ ((ch :: rest).takeWhile isNumberChar).length) := by
  have hback : (cinPutback st' (some ch)).toCalc = seek st (some ch) rest := cinPutback_toCalc hcalc _
  have hin : (cinPutback st' (some ch)).pending = ch :: rest := congrArg (fun st => st.nc.pending) hback
  obtain ⟨hok, hcalc', hscan⟩ := cinGetNum_spec scanDouble (cinPutback st' (some ch))
  rw [hback] at hok hcalc'
  rw [hin, List.dropWhile_cons_of_pos hchar] at hscan
  replace hscan := (Scans.putback st' _).trans hscan
  dsimp only
  generalize cinGetNum scanDouble (cinPutback st' (some ch)) = r at hok hcalc' hscan ⊢
  generalize Calc.cinGetNum scanDouble (seek st (some ch) rest) = r' at hok hcalc' ⊢
  obtain ⟨ok, st''⟩ := r
  obtain ⟨ok', calc'⟩ := r'
  obtain rfl : ok = ok' := hok
  cases ok with
  | false => exact ⟨congrArg (Calc.error · _) hcalc', hscan.before (Scans.still rfl rfl rfl)⟩
  | true => exact ⟨congrArg (withToken · .rncNumber) hcalc', hscan.before (Scans.setToken _ _)⟩

theorem getToken_spec (st : CalcState) :
    (getToken scanDouble st).toCalc = Calc.getToken scanDouble st.toCalc ∧
      Scans (called st) (getToken scanDouble st) (RunsOut st.pending) (¬NumberFits st.pending) := by
  obtain ⟨hch, hcalc, hscan⟩ := skipBlanks_spec (called st)
  have hpending : (called st).pending = st.pending := rfl
  have hcalled : (called st).toCalc = st.toCalc := rfl
  rw [hpending] at hch hcalc hscan
  rw [hcalled] at hcalc
  have hcalcPending : st.toCalc.nc.pending = st.pending := rfl
  rw [getToken, Calc.getToken, hcalcPending]
  cases hrest : st.pending.dropWhile Calc.isBlank with
  | nil =>
    rw [hrest] at hch hcalc hscan
    have hskip : skipBlanks (called st) = (none, (skipBlanks (called st)).2) := Prod.ext hch rfl
    have hruns : RunsOut st.pending := by
      rw [RunsOut, hrest]
      trivial
    have hfits : NumberFits st.pending := by
      intro c hc
      rw [hrest] at hc
      cases hc
    rw [hskip]
    exact ⟨congrArg (withToken · .rncEnd) hcalc,
      (hscan.before (Scans.setToken _ _)).congr (iff_of_true rfl hruns) (iff_of_false id (not_not.mpr hfits))⟩
  | cons ch rest =>
    rw [hrest] at hch hcalc hscan
    have hskip : skipBlanks (called st) = (some ch, (skipBlanks (called st)).2) := Prod.ext hch rfl
    rw [hskip]
    generalize (skipBlanks (called st)).2 = st' at hcalc hscan ⊢
    rw [List.tail_cons] at hcalc
    replace hscan : Scans (called st) st' False False := hscan.congr (iff_of_false (List.cons_ne_nil _ _) id) Iff.rfl
    have hplain : startsNumber ch = false → (False ↔ ¬NumberFits st.pending) := fun hnumber =>
      iff_of_false id (not_not.mpr (NumberFits.of_head hrest hnumber))
    have hruns : RunsOut st.pending ↔
        if ch = ';' ∨ ch = '\n' then False
        else if ch = '+' ∨ ch = '~' ∨ ch = '-' then rest = []
        else if (charToken ch).isSome then False
        else if startsNumber ch then rest.dropWhile isNumberChar = []
        else rest.dropWhile (inName ch) = [] := by
      rw [RunsOut, hrest]
    dsimp only
    by_cases hend : ch = ';' ∨ ch = '\n'
    · rw [if_pos hend] at hruns
      rw [if_pos hend, if_pos hend]
      exact ⟨congrArg (withToken · .rncEnd) hcalc,
        (hscan.trans (Scans.setToken _ _)).congr hruns.symm (hplain (by rcases hend with rfl | rfl <;> decide))⟩
    rw [if_neg hend] at hruns
    rw [if_neg hend, if_neg hend]
    by_cases hplus : ch = '+'
    · rw [if_pos (Or.inl hplus)] at hruns
      rw [if_pos hplus, if_pos hplus]
      obtain ⟨hpair, hscan'⟩ := pairToken_at hcalc '+' .rncInc .rncPlus
      exact ⟨hpair, (hscan.trans hscan').congr hruns.symm (hplain (by rw [hplus]; decide))⟩
    rw [if_neg hplus, if_neg hplus]
    by_cases htilde : ch = '~'
    · rw [if_pos (Or.inr (Or.inl htilde))] at hruns
      rw [if_pos htilde, if_pos htilde]
      obtain ⟨hpair, hscan'⟩ := pairToken_at hcalc '-' .rncNeg .rncNeg
      exact ⟨hpair, (hscan.trans hscan').congr hruns.symm (hplain (by rw [htilde]; decide))⟩
    rw [if_neg htilde, if_neg htilde]
    by_cases hminus : ch = '-'
    · rw [if_pos (Or.inr (Or.inr hminus))] at hruns
      rw [if_pos hminus, if_pos hminus]
      obtain ⟨hpair, hscan'⟩ := pairToken_at hcalc '-' .rncDec .rncMinus
      exact ⟨hpair, (hscan.trans hscan').congr hruns.symm (hplain (by rw [hminus]; decide))⟩
    rw [if_neg (not_or.mpr ⟨hplus, not_or.mpr ⟨htilde, hminus⟩⟩)] at hruns
    rw [if_neg hminus, if_neg hminus]
    cases htoken : charToken ch with
    | some tok =>
      rw [htoken] at hruns
      exact ⟨congrArg (withToken · tok) hcalc,
        (hscan.trans (Scans.setToken _ _)).congr hruns.symm (hplain (charToken_not_number htoken))⟩
    | none =>
      rw [htoken] at hruns
      replace hruns : RunsOut st.pending ↔
          if startsNumber ch then rest.dropWhile isNumberChar = [] else rest.dropWhile (inName ch) = [] := hruns
      by_cases hnumber : startsNumber ch = true
      · have hnumber' : ((decide ('0' ≤ ch) && decide (ch ≤ '9')) || decide (ch = '.')) = true := hnumber
        rw [if_pos hnumber] at hruns
        dsimp only
        rw [if_pos hnumber, if_pos hnumber']
        have hfits : 1024 ≤ ((ch :: rest).takeWhile isNumberChar).length ↔ ¬NumberFits st.pending := by
          rw [NumberFits, hrest]
          simp [hnumber]
        obtain ⟨htok, hscan'⟩ := numberToken_at scanDouble hcalc (startsNumber_numberChar hnumber)
        exact ⟨htok, (hscan.trans hscan').congr hruns.symm hfits⟩
      · have hnumber' : ¬((decide ('0' ≤ ch) && decide (ch ≤ '9')) || decide (ch = '.')) = true := hnumber
        rw [if_neg hnumber] at hruns
        dsimp only
        rw [if_neg hnumber, if_neg hnumber']
        obtain ⟨hname, hscan'⟩ := nameToken_spec ch st'
        have hin : st'.pending = rest := congrArg (fun st => st.nc.pending) hcalc
        have hnum : st'.num = st.num := congrArg Calc.CalcState.num hcalc
        rw [hcalc, hin, hnum] at hname
        rw [hin] at hscan'
        exact ⟨hname, (hscan.trans hscan').congr hruns.symm (hplain (by simpa using hnumber))⟩

end

end Radare.CalcScan

namespace Radare.CalcScan

open Calc (RNumCalcValue RNum)

/-- A result as the parser over the remaining text sees it. -/
def toCalcResult (r : RNumCalcValue × CalcState) : RNumCalcValue × Calc.CalcState := (r.1, r.2.toCalc)

variable (scanDouble : CStr → Option Float)

theorem getToken_toCalc (st : CalcState) : (getToken scanDouble st).toCalc = Calc.getToken scanDouble st.toCalc :=
  (getToken_spec scanDouble st).1

/-- The functions of the parser answer the same on both models with this fuel. -/
structure Agrees (fuel : Nat) : Prop where
  prim : ∀ get st, (prim scanDouble fuel get st).map toCalcResult = Calc.prim scanDouble fuel get st.toCalc
  termLoop : ∀ left st, (termLoop scanDouble fuel left st).map toCalcResult = Calc.termLoop scanDouble fuel left st.toCalc
  term : ∀ get st, (term scanDouble fuel get st).map toCalcResult = Calc.term scanDouble fuel get st.toCalc
  exprLoop : ∀ left st, (exprLoop scanDouble fuel left st).map toCalcResult = Calc.exprLoop scanDouble fuel left st.toCalc
  expr : ∀ get st, (expr scanDouble fuel get st).map toCalcResult = Calc.expr scanDouble fuel get st.toCalc

/-- Two runs in sequence agree if their parts do. -/
theorem map_bind {x : Option (RNumCalcValue × CalcState)} {y : Option (RNumCalcValue × Calc.CalcState)}
    {f : RNumCalcValue × CalcState → Option (RNumCalcValue × CalcState)}
    {g : RNumCalcValue × Calc.CalcState → Option (RNumCalcValue × Calc.CalcState)} (hx : x.map toCalcResult = y)
    (hf : ∀ v st, (f (v, st)).map toCalcResult = g (v, st.toCalc)) : (x.bind f).map toCalcResult = y.bind g := by
  subst hx
  cases x with
  | none => rfl
  | some r => exact hf r.1 r.2

variable {scanDouble} {fuel : Nat} (h : Agrees scanDouble fuel)

include h

theorem prim_agrees (get : Bool) (st : CalcState) :
    (prim scanDouble (fuel + 1) get st).map toCalcResult = Calc.prim scanDouble (fuel + 1) get st.toCalc := by
  have hstart : (if get then Calc.getToken scanDouble st.toCalc else st.toCalc) =
      (if get then getToken scanDouble st else st).toCalc := by
    cases get with
    | false => rfl
    | true => exact (getToken_toCalc scanDouble st).symm
  rw [prim, Calc.prim, hstart]
  generalize (if get then getToken scanDouble st else st) = st
  have htok : st.toCalc.nc.currTok = st.nc.currTok := rfl
  have hget := getToken_toCalc scanDouble st
  have hunary : ∀ op : RNumCalcValue → RNumCalcValue,
      ((prim scanDouble fuel true st).bind fun r => some (op r.1, r.2)).map toCalcResult =
        (Calc.prim scanDouble fuel true st.toCalc).bind fun r => some (op r.1, r.2) :=
    fun op => map_bind (h.prim true st) fun v st => rfl
  dsimp only
  rw [htok]
  cases hname : st.nc.currTok with
  | rncNumber => exact congrArg (fun st' => some (st.nc.numberValue, st')) hget
  | rncName =>
    have hresolve : (resolveName st).2.toCalc =
        ⟨(Calc.rNumGetWith st.toCalc.num (rStrChop st.toCalc.nc.stringValue)).2,
          { st.toCalc.nc with currTok := .rncName, stringValue := rStrChop st.toCalc.nc.stringValue }⟩ := by
      rw [← hname]
      rfl
    have hnext := getToken_toCalc scanDouble (resolveName st).2
    have htok' : (getToken scanDouble (resolveName st).2).toCalc.nc.currTok =
        (getToken scanDouble (resolveName st).2).nc.currTok := rfl
    dsimp only
    rw [← hresolve, ← hnext, htok']
    split
    · exact h.expr true _
    · rfl
  | rncNeg =>
    dsimp only
    rw [← hget]
    rfl
  | rncInc => exact hunary fun v => Calc.naddi v 1
  | rncDec => exact hunary fun v => Calc.naddi v (-1)
  | rncOrr => exact hunary fun v => Calc.norr ⟨0, 0⟩ v
  | rncMinus => exact hunary fun v => Calc.nsub ⟨0, 0⟩ v
  | rncLeftp =>
    refine map_bind (h.expr true st) fun v st => ?_
    have htok : st.toCalc.nc.currTok = st.nc.currTok := rfl
    dsimp only
    rw [htok]
    split
    · exact congrArg (fun st' => some (v, st')) (getToken_toCalc scanDouble st)
    · rfl
  | _ => rfl

theorem termLoop_agrees (left : RNumCalcValue) (st : CalcState) :
    (termLoop scanDouble (fuel + 1) left st).map toCalcResult = Calc.termLoop scanDouble (fuel + 1) left st.toCalc := by
  have htok : st.toCalc.nc.currTok = st.nc.currTok := rfl
  rw [termLoop, Calc.termLoop, htok]
  by_cases hmul : st.nc.currTok = .rncMul
  · rw [if_pos hmul, if_pos hmul]
    exact map_bind (h.prim true st) fun v st => h.termLoop _ st
  rw [if_neg hmul, if_neg hmul]
  by_cases hmod : st.nc.currTok = .rncMod
  · rw [if_pos hmod, if_pos hmod]
    refine map_bind (h.prim true st) fun v st => ?_
    dsimp only
    split
    · rfl
    · exact h.termLoop _ st
  rw [if_neg hmod, if_neg hmod]
  by_cases hdiv : st.nc.currTok = .rncDiv
  · rw [if_pos hdiv, if_pos hdiv]
    refine map_bind (h.prim true st) fun v st => ?_
    have hnum : st.toCalc.num = st.num := rfl
    dsimp only
    rw [hnum]
    cases hst : st.num with
    | none => exact h.termLoop _ st
    | some num =>
      dsimp only
      split
      · rfl
      · exact h.termLoop _ st
  · rw [if_neg hdiv, if_neg hdiv]
    rfl

theorem term_agrees (get : Bool) (st : CalcState) :
    (term scanDouble (fuel + 1) get st).map toCalcResult = Calc.term scanDouble (fuel + 1) get st.toCalc := by
  rw [term, Calc.term]
  exact map_bind (h.prim get st) fun v st => h.termLoop v st

theorem exprLoop_agrees (left : RNumCalcValue) (st : CalcState) :
    (exprLoop scanDouble (fuel + 1) left st).map toCalcResult = Calc.exprLoop scanDouble (fuel + 1) left st.toCalc := by
  have htok : st.toCalc.nc.currTok = st.nc.currTok := rfl
  rw [exprLoop, Calc.exprLoop, htok]
  cases Calc.exprOp st.nc.currTok with
  | none => rfl
  | some op => exact map_bind (h.term true st) fun v st => h.exprLoop _ st

theorem expr_agrees (get : Bool) (st : CalcState) :
    (expr scanDouble (fuel + 1) get st).map toCalcResult = Calc.expr scanDouble (fuel + 1) get st.toCalc := by
  rw [expr, Calc.expr]
  exact map_bind (h.term get st) fun v st => h.exprLoop v st

omit h in
theorem agrees (scanDouble : CStr → Option Float) : ∀ fuel, Agrees scanDouble fuel
  | 0 =>
    { prim := fun _ _ => rfl
      termLoop := fun _ _ => rfl
      term := fun _ _ => rfl
      exprLoop := fun _ _ => rfl
      expr := fun _ _ => rfl }
  | fuel + 1 =>
    { prim := prim_agrees (agrees scanDouble fuel)
      termLoop := termLoop_agrees (agrees scanDouble fuel)
      term := term_agrees (agrees scanDouble fuel)
      exprLoop := exprLoop_agrees (agrees scanDouble fuel)
      expr := expr_agrees (agrees scanDouble fuel) }

omit h in
/-- On a text that an `int` can index, the parser over the buffer is the parser over the remaining text. -/
theorem rNumCalc_refines (num : Option RNum) (nc : RNumCalc) {str : CStr} (hlen : str.length ≤ 2 ^ 31) (fuel : Nat) :
    (rNumCalc scanDouble fuel num nc str).map (fun r => (r.1, r.2.toCalc)) =
      Calc.rNumCalc scanDouble fuel num (CalcState.toCalc ⟨num, nc, ⟨[], [], [], []⟩⟩).nc str := by
  rw [rNumCalc, Calc.rNumCalc]
  split
  · rfl
  · have htake : str.take (2 ^ 31) = str := List.take_of_length_le hlen
    have hstart : (startState num nc str).toCalc = ⟨num.map fun num => { num with dbz := 0 },
        { (CalcState.toCalc ⟨num, nc, ⟨[], [], [], []⟩⟩).nc with
          currTok := .rncPrint, numberValue := ⟨0, 0⟩, errors := 0, oc := none, calcErr := none, rest := str }⟩ := by
      rw [CalcState.toCalc, startState, RNumCalc.text, htake]
      rfl
    have hexpr := (agrees scanDouble fuel).expr false (getToken scanDouble (startState num nc str))
    rw [getToken_toCalc, hstart] at hexpr
    dsimp only
    rw [← hexpr]
    cases expr scanDouble fuel false (getToken scanDouble (startState num nc str)) with
    | none => rfl
    | some r => rfl

end Radare.CalcScan
