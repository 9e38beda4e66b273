import Radare.Framework.Loop
import Radare.Util.CalcParse
import Radare.Util.CalcScanTokens

namespace Radare.CalcScan

open Calc (RNumCalcValue RNumCalcToken RNum isNumberChar)
open Framework (EndsIn)

/-- Nothing is left and the last token says so. -/
def Done (st : CalcState) : Prop := st.nc.currTok = .rncEnd ∧ st.pending = []

instance (st : CalcState) : Decidable (Done st) := inferInstanceAs (Decidable (_ ∧ _))

/-- How much input there is, and nothing behind the end. -/
def rank (st : CalcState) : Nat := if Done st then 0 else st.pending.length + 1

/-- The invariant of a run over `text`: its reads and its stores to `str` are in range as far as each call of `get_token`
found a token that is. -/
structure Within (text : CStr) (st : CalcState) : Prop where
  buf : st.nc.calcBuf = text
  inside : Inside st
  pending : st.pending <:+ text.take (2 ^ 31)
  calls : ∀ input ∈ st.log.calls, input <:+ text.take (2 ^ 31)
  reads : ReadsOk st ↔ ∀ input ∈ st.log.calls, text.length < 2 ^ 31 ∨ ¬RunsOut input
  str : StrOk st ↔ ∀ input ∈ st.log.calls, NumberFits input

/-- Reads of the text and stores to the buffers, all in range. -/
def InRange (text : CStr) (st : CalcState) : Prop :=
  (∀ i ∈ st.log.reads, 0 ≤ i ∧ i ≤ text.length) ∧ (∀ i ∈ st.log.stringValue, i < 1024) ∧ ∀ i ∈ st.log.str, i < 1024

theorem Within.inRange_iff {text : CStr} {st : CalcState} (h : Within text st) : InRange text st ↔
    ∀ input ∈ st.log.calls, NumberFits input ∧ (text.length < 2 ^ 31 ∨ ¬RunsOut input) := by
  have hreads := h.reads
  rw [ReadsOk, h.buf] at hreads
  rw [InRange, hreads, show (∀ i ∈ st.log.str, i < 1024) ↔ _ from h.str]
  constructor
  · rintro ⟨hends, -, hfits⟩ input hin
    exact ⟨hfits input hin, hends input hin⟩
  · exact fun hall => ⟨fun input hin => (hall input hin).2, h.inside.stringValue, fun input hin => (hall input hin).1⟩

section
variable (scanDouble : CStr → Option Float)

theorem cinGetNum_pending (st : Calc.CalcState) :
    (Calc.cinGetNum scanDouble st).2.nc.pending = st.nc.pending.dropWhile isNumberChar := by
  have hback := Calc.putback_pending st.nc (st.nc.pending.dropWhile isNumberChar)
  simp only [Calc.cinGetNum]
  split
  · split
    · exact hback
    · exact hback
  · exact hback

theorem nameToken_pending (nc : Calc.RNumCalc) (ch : Char) (input : CStr) :
    (Calc.nameToken nc ch input).pending <:+ input := by
  have hsuffix : input.dropWhile (inName ch) <:+ input := List.dropWhile_suffix _
  have heq : (Calc.nameToken nc ch input).pending =
      (if (input.dropWhile (inName ch)).head? = some (Char.ofNat 39) then none
        else (input.dropWhile (inName ch)).head?).toList ++ (input.dropWhile (inName ch)).tail := rfl
  rw [heq]
  refine List.IsSuffix.trans ?_ hsuffix
  cases input.dropWhile (inName ch) with
  | nil => simp
  | cons c cs =>
    split
    · exact List.suffix_cons c cs
    · exact List.suffix_refl _

/-- A token takes its characters from the front of the input, the first one behind the blanks with them. -/
theorem calcGetToken_suffix (st : Calc.CalcState) :
    (Calc.getToken scanDouble st).nc.pending <:+ (st.nc.pending.dropWhile Calc.isBlank).tail := by
  rw [Calc.getToken]
  cases hrest : st.nc.pending.dropWhile Calc.isBlank with
  | nil => exact List.suffix_refl _
  | cons ch rest =>
    dsimp only [List.tail_cons]
    have hback : ∀ tok, ({ st.nc.putback rest with currTok := tok } : Calc.RNumCalc).pending <:+ rest := by
      intro tok
      have hsame : ({ st.nc.putback rest with currTok := tok } : Calc.RNumCalc).pending = rest :=
        Calc.putback_pending st.nc rest
      rw [hsame]
    have htail : rest.tail <:+ rest := List.tail_suffix rest
    split
    · exact List.suffix_refl _
    split
    · split
      · exact htail
      · exact hback _
    split
    · split
      · exact htail
      · exact hback _
    split
    · split
      · exact htail
      · exact hback _
    split
    · exact List.suffix_refl _
    split
    · rename_i hnumber
      have hin := cinGetNum_pending scanDouble (seek st (some ch) rest)
      have hpending : (seek st (some ch) rest).nc.pending = ch :: rest := rfl
      rw [hpending, List.dropWhile_cons_of_pos (startsNumber_numberChar hnumber)] at hin
      have hsuffix : (Calc.cinGetNum scanDouble (seek st (some ch) rest)).2.nc.pending <:+ rest :=
        hin ▸ List.dropWhile_suffix isNumberChar
      cases hr : Calc.cinGetNum scanDouble (seek st (some ch) rest) with
      | mk ok st' =>
        rw [hr] at hsuffix
        rw [seek] at hr
        rw [hr]
        cases ok with
        | false => exact hsuffix
        | true => exact hsuffix
    · exact nameToken_pending _ _ _

/-- A token takes something of the input, or there is nothing left. -/
theorem calcGetToken_shorter (st : Calc.CalcState) :
    (Calc.getToken scanDouble st).nc.pending.length < st.nc.pending.length ∨
      ((Calc.getToken scanDouble st).nc.currTok = .rncEnd ∧ (Calc.getToken scanDouble st).nc.pending = []) := by
  have hle := (List.dropWhile_sublist Calc.isBlank (l := st.nc.pending)).length_le
  have hsuffix := (calcGetToken_suffix scanDouble st).length_le
  cases hrest : st.nc.pending.dropWhile Calc.isBlank with
  | nil =>
    right
    rw [Calc.getToken, hrest]
    exact ⟨rfl, rfl⟩
  | cons ch rest =>
    left
    rw [hrest, List.length_cons] at hle
    rw [hrest, List.tail_cons] at hsuffix
    omega

theorem getToken_within {text : CStr} {st : CalcState} (h : Within text st) : Within text (getToken scanDouble st) := by
  obtain ⟨hcalc, hscan⟩ := getToken_spec scanDouble st
  have hrest : (getToken scanDouble st).pending <:+ st.pending := by
    have hsuffix := calcGetToken_suffix scanDouble st.toCalc
    rw [← hcalc] at hsuffix
    exact hsuffix.trans ((List.tail_suffix _).trans (List.dropWhile_suffix _))
  have hinside : Inside (called st) := ⟨h.inside.index, h.inside.stringValue⟩
  have hreads : ReadsOk (called st) ↔ ReadsOk st := Iff.rfl
  have hstr : StrOk (called st) ↔ StrOk st := Iff.rfl
  have hcalls : (getToken scanDouble st).log.calls = st.log.calls ++ [st.pending] := hscan.calls
  have hbuf : (called st).nc.calcBuf = text := h.buf
  refine ⟨hscan.buf.trans h.buf, hscan.inside hinside, hrest.trans h.pending, ?_, ?_, ?_⟩
  · rw [hcalls, List.forall_mem_append, List.forall_mem_singleton]
    exact ⟨h.calls, h.pending⟩
  · rw [hscan.reads hinside, hreads, h.reads, hcalls, List.forall_mem_append, List.forall_mem_singleton, hbuf]
  · rw [hscan.str, hstr, h.str, hcalls, List.forall_mem_append, List.forall_mem_singleton, not_not]

/-- Steps of the parser that leave the input and the buffers alone. -/
theorem Within.still {text : CStr} {st st' : CalcState} (h : Within text st) (hbuf : st'.nc.calcBuf = st.nc.calcBuf)
    (hi : st'.nc.calcI = st.nc.calcI) (hoc : st'.nc.oc = st.nc.oc) (hlog : st'.log = st.log) : Within text st' := by
  have hscan := Scans.still hbuf hi hlog
  have hpending : st'.pending = st.pending := by
    simp only [CalcState.pending, RNumCalc.text, hbuf, hi, hoc]
  refine ⟨hbuf.trans h.buf, hscan.inside h.inside, hpending ▸ h.pending, hlog ▸ h.calls, ?_, ?_⟩
  · rw [hscan.reads h.inside, h.reads, hlog]
    simp
  · rw [hscan.str, h.str, hlog]
    simp

theorem getToken_rank (st : CalcState) : rank (getToken scanDouble st) ≤ rank st - 1 := by
  obtain ⟨hcalc, -⟩ := getToken_spec scanDouble st
  have hshort := calcGetToken_shorter scanDouble st.toCalc
  rw [← hcalc] at hshort
  unfold rank
  split
  · exact Nat.zero_le _
  · rename_i hdone
    have hlt := hshort.resolve_right hdone
    rw [if_neg fun h => absurd hlt (by rw [show st.toCalc.nc.pending = [] from h.2]; exact Nat.not_lt_zero _)]
    exact hlt

/-- What the parser keeps on its way from `st` to `st'`. -/
structure Runs (st st' : CalcState) : Prop where
  rank : rank st' ≤ rank st
  within : ∀ text, Within text st → Within text st'
  calls : st.log.calls <+: st'.log.calls

theorem Runs.trans {st st' st'' : CalcState} (h : Runs st st') (h' : Runs st' st'') : Runs st st'' :=
  ⟨h'.rank.trans h.rank, fun text hin => h'.within text (h.within text hin), h.calls.trans h'.calls⟩

theorem Runs.refl (st : CalcState) : Runs st st := ⟨le_rfl, fun _ => id, List.prefix_rfl⟩

theorem Runs.getToken (st : CalcState) : Runs st (getToken scanDouble st) := by
  have hcalls : (CalcScan.getToken scanDouble st).log.calls = st.log.calls ++ [st.pending] := (getToken_spec scanDouble st).2.calls
  exact ⟨(getToken_rank scanDouble st).trans (Nat.sub_le _ _), fun _ => getToken_within scanDouble,
    hcalls ▸ List.prefix_append _ _⟩

/-- The answer of `f` in `st`, from some fuel on. -/
def Answers (f : Nat → CalcState → Option (RNumCalcValue × CalcState)) (st : CalcState) : Prop :=
  ∃ v out, EndsIn f st (v, out) ∧ Runs st out

theorem prim_get (fuel : Nat) (st : CalcState) :
    prim scanDouble fuel true st = prim scanDouble fuel false (CalcScan.getToken scanDouble st) := by
  cases fuel <;> rfl

theorem term_get (fuel : Nat) (st : CalcState) :
    term scanDouble fuel true st = term scanDouble fuel false (CalcScan.getToken scanDouble st) := by
  cases fuel with
  | zero => rfl
  | succ fuel => rw [term, term, prim_get]

theorem expr_get (fuel : Nat) (st : CalcState) :
    expr scanDouble fuel true st = expr scanDouble fuel false (CalcScan.getToken scanDouble st) := by
  cases fuel with
  | zero => rfl
  | succ fuel => rw [expr, expr, term_get]

variable {scanDouble} {f g : Nat → CalcState → Option (RNumCalcValue × CalcState)}

theorem Answers.of_step {st out : CalcState} {v : RNumCalcValue} (hf : ∀ n, f (n + 1) st = some (v, out)) (hr : Runs st out) :
    Answers f st := ⟨v, out, EndsIn.of_step hf, hr⟩

theorem Answers.lead {st st' : CalcState} (hg : Answers g st') (hr : Runs st st') (hf : ∀ n, f (n + 1) st = g n st') :
    Answers f st := by
  obtain ⟨v, out, ⟨j, hj⟩, hr'⟩ := hg
  exact ⟨v, out, ⟨j + 1, fun n => by rw [← Nat.add_assoc, hf, hj]⟩, hr.trans hr'⟩

/-- What `g` gives is handed on to `h`. -/
theorem Answers.bind {h : RNumCalcValue → Nat → CalcState → Option (RNumCalcValue × CalcState)} {st st' : CalcState}
    (hg : Answers g st') (hr : Runs st st') (hh : ∀ v out, Runs st' out → Answers (h v) out)
    (hf : ∀ n, f (n + 1) st = (g n st').bind fun r => h r.1 n r.2) : Answers f st := by
  obtain ⟨v, out, hg, hr'⟩ := hg
  obtain ⟨v', out', hh, hr''⟩ := hh v out hr'
  refine ⟨v', out', ?_, (hr.trans hr').trans hr''⟩
  exact EndsIn.bind (h := fun (r : RNumCalcValue × CalcState) n => h r.1 n r.2) hg hh hf

/-- An answer without more fuel. -/
theorem Answers.pure {st out : CalcState} {v : RNumCalcValue} (hr : Runs st out) : Answers (fun _ _ => some (v, out)) st :=
  ⟨v, out, ⟨0, fun _ => rfl⟩, hr⟩

theorem Answers.congr {st : CalcState} (hg : Answers g st) (hf : ∀ n, f n st = g n st) : Answers f st := by
  obtain ⟨v, out, ⟨j, hj⟩, hr⟩ := hg
  exact ⟨v, out, ⟨j, fun n => by rw [hf, hj]⟩, hr⟩

variable (scanDouble) in
/-- The functions of the parser end in `st`. -/
structure Ends (st : CalcState) : Prop where
  prim : Answers (fun fuel => prim scanDouble fuel false) st
  termLoop : ∀ left, Answers (fun fuel => termLoop scanDouble fuel left) st
  term : Answers (fun fuel => term scanDouble fuel false) st
  exprLoop : ∀ left, Answers (fun fuel => exprLoop scanDouble fuel left) st
  expr : Answers (fun fuel => expr scanDouble fuel false) st

section Step

variable {m : Nat} (ih : ∀ st, rank st ≤ m → Ends scanDouble st) {st : CalcState} (hr : rank st ≤ m + 1)

include ih hr

theorem prim_ends : Answers (fun fuel => prim scanDouble fuel false) st := by
  have hnext : rank (CalcScan.getToken scanDouble st) ≤ m := (getToken_rank scanDouble st).trans (by omega)
  have hget := Runs.getToken scanDouble st
  have hunary : ∀ op : RNumCalcValue → RNumCalcValue,
      (∀ n, CalcScan.prim scanDouble (n + 1) false st =
        (CalcScan.prim scanDouble n true st).bind fun r => some (op r.1, r.2)) →
      Answers (fun fuel => CalcScan.prim scanDouble fuel false) st := by
    intro op hf
    refine Answers.bind (h := fun v _ out => some (op v, out)) (ih _ hnext).prim hget
      (fun v out _ => Answers.pure (Runs.refl out)) fun n => ?_
    rw [hf, prim_get]
  cases htok : st.nc.currTok with
  | rncNumber =>
    refine Answers.of_step (v := st.nc.numberValue) (fun n => ?_) hget
    rw [CalcScan.prim]
    simp only [Bool.false_eq_true, if_false, htok]
  | rncName =>
    have hresolve : Runs st (resolveName st).2 := ⟨le_rfl, fun _ h => h.still rfl rfl rfl rfl, List.prefix_rfl⟩
    have hname := hresolve.trans (Runs.getToken scanDouble _)
    have hrank := (getToken_rank scanDouble (resolveName st).2).trans (Nat.sub_le_sub_right hresolve.rank 1)
    have hstep : ∀ n, CalcScan.prim scanDouble (n + 1) false st =
        if (CalcScan.getToken scanDouble (resolveName st).2).nc.currTok = .rncAssign then
          CalcScan.expr scanDouble n true (CalcScan.getToken scanDouble (resolveName st).2)
        else some (Calc.nset (resolveName st).1, CalcScan.getToken scanDouble (resolveName st).2) := by
      intro n
      rw [CalcScan.prim]
      simp only [Bool.false_eq_true, if_false, htok]
    by_cases hassign : (CalcScan.getToken scanDouble (resolveName st).2).nc.currTok = .rncAssign
    · have hrank' := getToken_rank scanDouble (CalcScan.getToken scanDouble (resolveName st).2)
      refine Answers.lead (ih (CalcScan.getToken scanDouble (CalcScan.getToken scanDouble (resolveName st).2)) (by omega)).expr
        (hname.trans (Runs.getToken scanDouble _)) fun n => ?_
      rw [hstep, if_pos hassign, expr_get]
    · exact Answers.of_step (fun n => by rw [hstep, if_neg hassign]) hname
  | rncNeg =>
    refine Answers.of_step (v := Calc.nneg (CalcScan.getToken scanDouble st).nc.numberValue) (fun n => ?_) hget
    rw [CalcScan.prim]
    simp only [Bool.false_eq_true, if_false, htok]
  | rncInc =>
    refine hunary (fun v => Calc.naddi v 1) fun n => ?_
    rw [CalcScan.prim]
    simp only [Bool.false_eq_true, if_false, htok]
    rfl
  | rncDec =>
    refine hunary (fun v => Calc.naddi v (-1)) fun n => ?_
    rw [CalcScan.prim]
    simp only [Bool.false_eq_true, if_false, htok]
    rfl
  | rncOrr =>
    refine hunary (fun v => Calc.norr ⟨0, 0⟩ v) fun n => ?_
    rw [CalcScan.prim]
    simp only [Bool.false_eq_true, if_false, htok]
    rfl
  | rncMinus =>
    refine hunary (fun v => Calc.nsub ⟨0, 0⟩ v) fun n => ?_
    rw [CalcScan.prim]
    simp only [Bool.false_eq_true, if_false, htok]
    rfl
  | rncLeftp =>
    refine Answers.bind
      (h := fun v _ out => if out.nc.currTok = .rncRightp then some (v, CalcScan.getToken scanDouble out)
        else some (v, error out " ')' expected"))
      (ih _ hnext).expr hget (fun v out _ => ?_) fun n => ?_
    · by_cases hclose : out.nc.currTok = .rncRightp
      · exact (Answers.pure (Runs.getToken scanDouble out)).congr fun _ => if_pos hclose
      · have hkept : Runs out (error out " ')' expected") := ⟨le_rfl, fun _ h => h.still rfl rfl rfl rfl, List.prefix_rfl⟩
        exact (Answers.pure hkept).congr fun _ => if_neg hclose
    · rw [CalcScan.prim]
      simp only [Bool.false_eq_true, if_false, htok]
      rw [expr_get]
      rfl
  | _ =>
    refine Answers.of_step (v := ⟨0, 0⟩) (fun n => ?_) (Runs.refl st)
    rw [CalcScan.prim]
    simp only [Bool.false_eq_true, if_false, htok]

theorem termLoop_ends (left : RNumCalcValue) : Answers (fun fuel => termLoop scanDouble fuel left) st := by
  have hnext : rank (CalcScan.getToken scanDouble st) ≤ m := (getToken_rank scanDouble st).trans (by omega)
  have hget := Runs.getToken scanDouble st
  have hprim := (ih _ hnext).prim
  have hloop : ∀ {out}, Runs (CalcScan.getToken scanDouble st) out → ∀ left,
      Answers (fun fuel => CalcScan.termLoop scanDouble fuel left) out :=
    fun hrun => (ih _ (hrun.rank.trans hnext)).termLoop
  by_cases hmul : st.nc.currTok = .rncMul
  · refine Answers.bind (h := fun v n out => CalcScan.termLoop scanDouble n (Calc.nmul left v) out) hprim hget
      (fun v out hrun => hloop hrun _) fun n => ?_
    rw [CalcScan.termLoop, if_pos hmul, prim_get]
    rfl
  by_cases hmod : st.nc.currTok = .rncMod
  · refine Answers.bind
      (h := fun v n out => if v.dZero then some (v, out) else CalcScan.termLoop scanDouble n (Calc.nmod left v) out)
      hprim hget (fun v out hrun => ?_) fun n => ?_
    · by_cases hzero : v.dZero = true
      · exact (Answers.pure (Runs.refl out)).congr fun _ => if_pos hzero
      · exact (hloop hrun (Calc.nmod left v)).congr fun _ => if_neg hzero
    · rw [CalcScan.termLoop, if_neg hmul, if_pos hmod, prim_get]
      rfl
  by_cases hdiv : st.nc.currTok = .rncDiv
  · refine Answers.bind
      (h := fun v n out => out.num.elim (CalcScan.termLoop scanDouble n (Calc.ndiv left v) out) fun num =>
        if v.dZero ∨ v.n = 0 then some (v, { out with num := some { num with dbz := 1 } })
        else CalcScan.termLoop scanDouble n (Calc.ndiv left v) out)
      hprim hget (fun v out hrun => ?_) fun n => ?_
    · cases hnum : out.num with
      | none => exact (hloop hrun (Calc.ndiv left v)).congr fun n => by simp only [hnum, Option.elim]
      | some num =>
        by_cases hzero : v.dZero ∨ v.n = 0
        · have hkept : Runs out { out with num := some { num with dbz := 1 } } := ⟨le_rfl, fun _ h => h.still rfl rfl rfl rfl, List.prefix_rfl⟩
          exact (Answers.pure (v := v) hkept).congr fun n => by simp only [hnum, Option.elim, if_pos hzero]
        · exact (hloop hrun (Calc.ndiv left v)).congr fun n => by simp only [hnum, Option.elim, if_neg hzero]
    · rw [CalcScan.termLoop, if_neg hmul, if_neg hmod, if_pos hdiv, prim_get, Option.bind_eq_bind]
      apply Option.bind_congr
      rintro ⟨v, out⟩ -
      cases hnum : out.num <;> simp only [hnum, Option.elim]
  · exact Answers.of_step (fun n => by rw [CalcScan.termLoop, if_neg hmul, if_neg hmod, if_neg hdiv]) (Runs.refl st)

theorem term_ends : Answers (fun fuel => term scanDouble fuel false) st := by
  refine Answers.bind (h := fun v n out => CalcScan.termLoop scanDouble n v out) (prim_ends ih hr) (Runs.refl st)
    (fun v out hrun => termLoop_ends ih (hrun.rank.trans hr) v) fun n => ?_
  rw [CalcScan.term]
  rfl

theorem exprLoop_ends (left : RNumCalcValue) : Answers (fun fuel => exprLoop scanDouble fuel left) st := by
  have hnext : rank (CalcScan.getToken scanDouble st) ≤ m := (getToken_rank scanDouble st).trans (by omega)
  cases hop : Calc.exprOp st.nc.currTok with
  | none => exact Answers.of_step (fun n => by rw [CalcScan.exprLoop, hop]) (Runs.refl st)
  | some op =>
    refine Answers.bind (h := fun v n out => CalcScan.exprLoop scanDouble n (op left v) out) (ih _ hnext).term
      (Runs.getToken scanDouble st) (fun v out hrun => (ih _ (hrun.rank.trans hnext)).exprLoop _) fun n => ?_
    rw [CalcScan.exprLoop, hop]
    dsimp only
    rw [term_get]
    rfl

theorem expr_ends : Answers (fun fuel => expr scanDouble fuel false) st := by
  refine Answers.bind (h := fun v n out => CalcScan.exprLoop scanDouble n v out) (term_ends ih hr) (Runs.refl st)
    (fun v out hrun => exprLoop_ends ih (hrun.rank.trans hr) v) fun n => ?_
  rw [CalcScan.expr]
  rfl

end Step

/-- A state in which nothing is left is the answer. -/
theorem ends_of_done {st : CalcState} (h : rank st = 0) : Ends scanDouble st := by
  have htok : st.nc.currTok = .rncEnd := by
    by_contra hne
    rw [rank, if_neg fun hdone => hne hdone.1] at h
    exact Nat.succ_ne_zero _ h
  have hprim : ∀ n, CalcScan.prim scanDouble (n + 1) false st = some (⟨0, 0⟩, st) := fun n => by
    rw [CalcScan.prim]
    simp only [Bool.false_eq_true, if_false, htok]
  have htermLoop : ∀ n left, CalcScan.termLoop scanDouble (n + 1) left st = some (left, st) := fun n left => by
    rw [CalcScan.termLoop]
    simp [htok]
  have hexprLoop : ∀ n left, CalcScan.exprLoop scanDouble (n + 1) left st = some (left, st) := fun n left => by
    rw [CalcScan.exprLoop, htok]
    rfl
  have hterm : ∀ n, CalcScan.term scanDouble (n + 2) false st = some (⟨0, 0⟩, st) := fun n => by
    rw [CalcScan.term, hprim]
    exact htermLoop n _
  have hexpr : ∀ n, CalcScan.expr scanDouble (n + 3) false st = some (⟨0, 0⟩, st) := fun n => by
    rw [CalcScan.expr, hterm]
    exact hexprLoop (n + 1) _
  exact
    { prim := ⟨_, st, ⟨1, hprim⟩, Runs.refl st⟩
      termLoop := fun left => ⟨left, st, ⟨1, fun n => htermLoop n left⟩, Runs.refl st⟩
      term := ⟨_, st, ⟨2, hterm⟩, Runs.refl st⟩
      exprLoop := fun left => ⟨left, st, ⟨1, fun n => hexprLoop n left⟩, Runs.refl st⟩
      expr := ⟨_, st, ⟨3, hexpr⟩, Runs.refl st⟩ }

theorem ends (st : CalcState) : Ends scanDouble st := by
  have hall : ∀ m st, rank st ≤ m → Ends scanDouble st := by
    intro m
    induction m with
    | zero => exact fun st hr => ends_of_done (Nat.le_zero.mp hr)
    | succ m ih =>
      exact fun st hr =>
        ⟨prim_ends ih hr, termLoop_ends ih hr, term_ends ih hr, exprLoop_ends ih hr, expr_ends ih hr⟩
  exact hall (rank st) st le_rfl

variable (scanDouble) (num : Option RNum) (nc : RNumCalc)

theorem startState_within (str : CStr) : Within str (startState num nc str) := by
  refine ⟨rfl, ⟨Nat.zero_le _, List.forall_mem_nil _⟩, List.suffix_refl _, List.forall_mem_nil _, ?_, ?_⟩
  · simp [ReadsOk, startState]
  · simp [StrOk, startState]

theorem rNumCalc_ends {str : CStr} (hstr : str ≠ []) : ∃ n out,
    EndsIn (fun fuel => rNumCalc scanDouble fuel num nc) str (n, out) ∧ Within str out ∧
      str.take (2 ^ 31) ∈ out.log.calls := by
  obtain ⟨v, out, ⟨j, hj⟩, hr⟩ := (ends (getToken scanDouble (startState num nc str))).expr
  have hrun := (Runs.getToken scanDouble (startState num nc str)).trans hr
  have hwithin := hrun.within str (startState_within num nc str)
  refine ⟨v.n, { out with num := out.num.map fun num => { num with fvalue := v.d } }, ⟨j, fun n => ?_⟩,
    hwithin.still rfl rfl rfl rfl, ?_⟩
  · dsimp only
    rw [rNumCalc, if_neg hstr]
    change (expr scanDouble (n + j) false (getToken scanDouble (startState num nc str))).bind _ = _
    rw [show expr scanDouble (n + j) false (getToken scanDouble (startState num nc str)) = some (v, out) from hj n]
    rfl
  · have hcalls : (getToken scanDouble (startState num nc str)).log.calls = [str.take (2 ^ 31)] :=
      (getToken_spec scanDouble (startState num nc str)).2.calls
    exact hr.calls.subset (by rw [hcalls]; exact List.mem_singleton.mpr rfl)

/-- Every text is parsed to an end, with all its accesses in range as far as the tokens are that the parser asks for. -/
theorem accesses_iff (str : CStr) : ∃ n out, EndsIn (fun fuel => rNumCalc scanDouble fuel num nc) str (n, out) ∧
    (((∀ i ∈ out.log.reads, 0 ≤ i ∧ i ≤ str.length) ∧ (∀ i ∈ out.log.stringValue, i < 1024) ∧ ∀ i ∈ out.log.str, i < 1024) ↔
      ∀ input ∈ out.log.calls, NumberFits input ∧ (str.length < 2 ^ 31 ∨ ¬RunsOut input)) := by
  by_cases hstr : str = []
  · refine ⟨0, ⟨num, nc, ⟨[0], [], [], []⟩⟩, ⟨0, fun n => ?_⟩, ?_⟩
    · dsimp only
      rw [rNumCalc, if_pos hstr]
    · simp
  · obtain ⟨n, out, hends, hwithin, -⟩ := rNumCalc_ends scanDouble num nc hstr
    exact ⟨n, out, hends, hwithin.inRange_iff⟩

/-- The state as the parser over the remaining text has it. -/
def RNumCalc.toCalc (nc : RNumCalc) : Calc.RNumCalc := (CalcState.toCalc ⟨none, nc, ⟨[], [], [], []⟩⟩).nc

variable {scanDouble} {num} {nc}

/-- On a text that an `int` can index, both parsers end in the same. -/
theorem endsIn_toCalc {str : CStr} (hlen : str.length < 2 ^ 31) {n : Ut64} {out : CalcState}
    (h : EndsIn (fun fuel => rNumCalc scanDouble fuel num nc) str (n, out)) :
    EndsIn (fun fuel => Calc.rNumCalc scanDouble fuel num nc.toCalc) str (n, out.toCalc) :=
  EndsIn.map (g := fun r : Ut64 × CalcState => (r.1, r.2.toCalc)) h fun fuel => rNumCalc_refines num nc hlen.le fuel

theorem endsIn_of_toCalc {str : CStr} (hstr : str ≠ []) (hlen : str.length < 2 ^ 31) {n : Ut64} {st : Calc.CalcState}
    (h : EndsIn (fun fuel => Calc.rNumCalc scanDouble fuel num nc.toCalc) str (n, st)) :
    ∃ out, EndsIn (fun fuel => rNumCalc scanDouble fuel num nc) str (n, out) ∧ out.toCalc = st ∧ Within str out := by
  obtain ⟨m, out, hends, hwithin, -⟩ := rNumCalc_ends scanDouble num nc hstr
  obtain ⟨rfl, rfl⟩ := Prod.mk.inj ((endsIn_toCalc hlen hends).det h)
  exact ⟨out, hends, rfl, hwithin⟩

/-- The text of a number of 1024 digits or more is longer than its buffer. -/
theorem digits_not_fit {digits rest : CStr} (hlen : 1024 ≤ digits.length) (hdigits : ∀ c ∈ digits, startsNumber c = true) :
    ¬NumberFits (digits ++ rest) := by
  intro h
  have htake : (digits ++ rest).takeWhile isNumberChar = digits ++ rest.takeWhile isNumberChar :=
    List.takeWhile_append_of_pos fun c hc => startsNumber_numberChar (hdigits c hc)
  cases digits with
  | nil => exact absurd hlen (by decide)
  | cons c cs =>
    have hstart := hdigits c List.mem_cons_self
    have hblank : (c :: cs ++ rest).dropWhile Calc.isBlank = c :: cs ++ rest :=
      List.dropWhile_cons_of_neg (startsNumber_not_blank hstart)
    have hshort := h c (by rw [hblank]; rfl) hstart
    rw [hblank, htake, List.length_append] at hshort
    omega

/-- Wherever a number token begins in the text, it fits. -/
def ShortRuns (text : CStr) : Prop := ∀ input, input <:+ text → (input.takeWhile isNumberChar).length < 1024

theorem ShortRuns.of_length {text : CStr} (h : text.length < 1024) : ShortRuns text := fun _ hin =>
  ((List.takeWhile_prefix isNumberChar).length_le.trans hin.length_le).trans_lt h

theorem ShortRuns.append {text rest : CStr} {c : Char} (h : ShortRuns text) (hc : isNumberChar c = false) (hrest : ShortRuns rest) :
    ShortRuns (text ++ c :: rest) := by
  have hstop : (c :: rest).takeWhile isNumberChar = [] := List.takeWhile_cons_of_neg (by simp [hc])
  induction text with
  | nil =>
    intro input hin
    rcases List.suffix_cons_iff.mp hin with rfl | hin
    · rw [hstop]
      decide
    · exact hrest input hin
  | cons d text ih =>
    intro input hin
    rcases List.suffix_cons_iff.mp hin with heq | hin
    · have hwhole : input = (d :: text) ++ c :: rest := heq
      have hfirst := h (d :: text) (List.suffix_refl _)
      rw [hwhole, List.takeWhile_append, hstop, List.append_nil]
      split
      · rename_i hall
        rwa [hall] at hfirst
      · exact hfirst
    · exact ih (fun input hin => h input (hin.trans (List.suffix_cons d text))) input hin

theorem ShortRuns.fits {text input : CStr} (h : ShortRuns text) (hin : input <:+ text) : NumberFits input :=
  fun _ _ _ => h _ ((List.dropWhile_suffix _).trans hin)

variable (scanDouble) (num) (nc)

/-- The run over the text ends in `v`, with its accesses in range. -/
def Gives (str : CStr) (v : Ut64) : Prop :=
  ∃ out, EndsIn (fun fuel => rNumCalc scanDouble fuel num nc) str (v, out) ∧ InRange str out

variable {scanDouble} {num} {nc}

theorem gives_iff {str : CStr} (hstr : str ≠ []) (hlen : str.length < 2 ^ 31) (hruns : ShortRuns str) {n : Ut64} {st : Calc.CalcState}
    (h : EndsIn (fun fuel => Calc.rNumCalc scanDouble fuel num nc.toCalc) str (n, st)) (v : Ut64) :
    Gives scanDouble num nc str v ↔ v = n := by
  constructor
  · rintro ⟨out, hends, -⟩
    exact congrArg Prod.fst ((endsIn_toCalc hlen hends).det h)
  · rintro rfl
    obtain ⟨out, hends, -, hwithin⟩ := endsIn_of_toCalc hstr hlen h
    refine ⟨out, hends, hwithin.inRange_iff.mpr fun input hin => ⟨hruns.fits ?_, Or.inl hlen⟩⟩
    have hsuffix := hwithin.calls input hin
    rwa [List.take_of_length_le hlen.le] at hsuffix

/-- Behind a number of 1024 digits or more the zero is stored outside the buffer. -/
theorem not_gives_digits {digits rest : CStr} (hlen : 1024 ≤ digits.length) (hdigits : ∀ c ∈ digits, startsNumber c = true)
    (v : Ut64) : ¬Gives scanDouble num nc (digits ++ rest) v := by
  rintro ⟨out, hends, -, -, hstr⟩
  have hne : digits ++ rest ≠ [] := by
    intro h
    rw [(List.append_eq_nil_iff.mp h).1] at hlen
    exact absurd hlen (by decide)
  obtain ⟨n, out', hends', hwithin, hcall⟩ := rNumCalc_ends scanDouble num nc hne
  obtain rfl := congrArg Prod.snd (hends.det hends')
  have hfits := hwithin.str.mp hstr _ hcall
  rw [List.take_append] at hfits
  refine digits_not_fit ?_ (fun c hc => hdigits c (List.mem_of_mem_take hc)) hfits
  rw [List.length_take]
  omega

/-- A number of 1024 digits puts its zero behind the buffer. -/
theorem number_overruns : ∃ n out,
    EndsIn (fun fuel => rNumCalc (fun _ => none) fuel none
      ⟨.rncPrint, ⟨0, 0⟩, [], 0, none, none, [], 0⟩) (List.replicate 1024 '1') (n, out) ∧ ∃ i ∈ out.log.str, 1024 ≤ i := by
  have hlen : (List.replicate 1024 '1').length = 1024 := List.length_replicate
  have hstr : List.replicate 1024 '1' ≠ [] := fun h => by
    rw [h] at hlen
    cases hlen
  obtain ⟨n, out, hends, hwithin, hcall⟩ :=
    rNumCalc_ends (fun _ => none) none ⟨.rncPrint, ⟨0, 0⟩, [], 0, none, none, [], 0⟩ hstr
  rw [List.take_of_length_le (by rw [hlen]; decide)] at hcall
  refine ⟨n, out, hends, ?_⟩
  by_contra hnone
  have hinside : StrOk out := fun i hi => not_le.mp fun hge => hnone ⟨i, hi, hge⟩
  have hfits := hwithin.str.mp hinside _ hcall
  rw [← List.append_nil (List.replicate 1024 '1')] at hfits
  refine digits_not_fit hlen.ge (fun c hc => ?_) hfits
  rw [List.eq_of_mem_replicate hc]
  decide

end

end Radare.CalcScan
