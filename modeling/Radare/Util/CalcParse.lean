import Radare.Util.CalcTokens

namespace Radare.Calc

/-- The operators whose divisor is tested for a shadow of zero; a division only where there is a `num` to tell. -/
def Tested (given : Bool) (op : CalcOp) : Prop := op = .mod ∨ (op = .div ∧ given = true)

theorem Reads.trans {st st' st'' : CalcState} {a b : RNumCalcToken} {x y : CStr} (h : Reads st st' a x)
    (h' : Reads st' st'' b y) : Reads st st'' b y :=
  ⟨h'.token, h'.pending, h'.frame.trans h.frame⟩

/-- A state in front of an operand; `given` is the callback, if there is a `num`. -/
structure Before (given : Option (Option (CStr → Option Ut64))) (st : CalcState) (input : CStr) : Prop where
  num : callbackOf st.num = given
  input : st.nc.pending.dropWhile isBlank = input

/-- Behind a token that a blank or nothing separates from the operand. -/
theorem Before.next {given : Option (Option (CStr → Option Ut64))} {st st' : CalcState} {input more : CStr} {tok : RNumCalcToken}
    (h : Before given st input) (hr : Reads st st' tok more) (level : Nat) (t : CalcTree) (rest : CStr)
    (hmore : more = ' ' :: (t.textAt level ++ rest) ∨ more = t.textAt level ++ rest) :
    Before given st' (t.textAt level ++ rest) := by
  refine ⟨(callbackOf_frame hr.frame).trans h.num, ?_⟩
  rw [hr.pending]
  rcases hmore with rfl | rfl
  · exact (textAt_blank level t rest).1
  · exact (textAt_blank level t rest).2

section Parser

variable (scanDouble : CStr → Option Float)

theorem prim_get (fuel : Nat) (st : CalcState) :
    prim scanDouble fuel true st = prim scanDouble fuel false (getToken scanDouble st) := by
  cases fuel <;> rfl

theorem term_get (fuel : Nat) (st : CalcState) :
    term scanDouble fuel true st = term scanDouble fuel false (getToken scanDouble st) := by
  cases fuel with
  | zero => rfl
  | succ fuel => rw [term, term, prim_get]

theorem expr_get (fuel : Nat) (st : CalcState) :
    expr scanDouble fuel true st = expr scanDouble fuel false (getToken scanDouble st) := by
  cases fuel with
  | zero => rfl
  | succ fuel => rw [expr, expr, term_get]

/-- No operator of a term is at hand. -/
def Loose (tok : RNumCalcToken) : Prop := ∀ op : CalcOp, op.level = 1 → tok ≠ op.token

theorem termLoop_exit {st : CalcState} (h : Loose st.nc.currTok) (n : Nat) (left : RNumCalcValue) :
    termLoop scanDouble (n + 1) left st = some (left, st) := by
  have hmul : st.nc.currTok ≠ .rncMul := h .mul rfl
  have hmod : st.nc.currTok ≠ .rncMod := h .mod rfl
  have hdiv : st.nc.currTok ≠ .rncDiv := h .div rfl
  rw [termLoop, if_neg hmul, if_neg hmod, if_neg hdiv]

theorem termLoop_op {op : CalcOp} (hop : op.level = 1) {st st' : CalcState} (htok : st.nc.currTok = op.token) {n : Nat}
    (left : RNumCalcValue) {v : RNumCalcValue} (hprim : prim scanDouble n true st = some (v, st'))
    (hzero : op = .div ∨ op = .mod → v.n ≠ 0) (hfine : Tested st'.num.isSome op → v.dZero = false) :
    termLoop scanDouble (n + 1) left st = termLoop scanDouble n (op.apply left v) st' := by
  rw [termLoop, htok, hprim]
  cases op with
  | mul => rfl
  | div =>
    have hn := hzero (Or.inl rfl)
    cases hnum : st'.num with
    | none => simp [CalcOp.token, hnum, CalcOp.apply]
    | some num =>
      have hd : v.dZero = false := hfine (Or.inr ⟨rfl, by rw [hnum]; rfl⟩)
      have htest : ¬(v.dZero = true ∨ v.n = 0) := not_or.mpr ⟨by simp [hd], hn⟩
      simp only [CalcOp.token, reduceCtorEq, if_false, if_true, Option.bind_eq_bind, Option.bind_some, hnum, htest, CalcOp.apply]
  | mod =>
    have hd : v.dZero = false := hfine (Or.inl rfl)
    simp [CalcOp.token, hd, CalcOp.apply]
  | _ => cases hop

theorem exprLoop_exit {st : CalcState} (h : exprOp st.nc.currTok = none) (n : Nat) (left : RNumCalcValue) :
    exprLoop scanDouble (n + 1) left st = some (left, st) := by
  rw [exprLoop, h]

theorem exprOp_token {op : CalcOp} (hop : op.level = 0) : exprOp op.token = some op.apply := by
  cases op with
  | mul => cases hop
  | div => cases hop
  | mod => cases hop
  | _ => rfl

theorem exprLoop_op {op : CalcOp} (hop : op.level = 0) {st st' : CalcState} (htok : st.nc.currTok = op.token) {n : Nat}
    (left : RNumCalcValue) {v : RNumCalcValue} (hterm : term scanDouble n true st = some (v, st')) :
    exprLoop scanDouble (n + 1) left st = exprLoop scanDouble n (op.apply left v) st' := by
  rw [exprLoop, htok, exprOp_token hop]
  simp only [Option.bind_eq_bind, hterm, Option.bind_some]

variable (given : Option (Option (CStr → Option Ut64))) (t : CalcTree)

/-- `prim` reads the operand and the token behind it. -/
def PrimReads : Prop :=
  ∀ st rest tok more, Follow rest tok more → Before given st (t.textAt 2 ++ rest) →
    ∃ st', Reads st st' tok more ∧ ∃ k, ∀ n, prim scanDouble (n + k) true st = some (t.pair, st')

/-- `term` reads the operand and goes on with the loop. -/
def TermReads : Prop :=
  ∀ st rest tok more, Follow rest tok more → Before given st (t.textAt 1 ++ rest) →
    ∃ st', Reads st st' tok more ∧ ∃ k j, ∀ n, term scanDouble (n + k) true st = termLoop scanDouble (n + j) t.pair st'

/-- `expr` reads the operand, unless a tighter operator follows, and goes on with the loop. -/
def ExprReads : Prop :=
  ∀ st rest tok more, Follow rest tok more → Loose tok → Before given st (t.textAt 0 ++ rest) →
    ∃ st', Reads st st' tok more ∧ ∃ k j, ∀ n, expr scanDouble (n + k) true st = exprLoop scanDouble (n + j) t.pair st'

variable {scanDouble} {given} {t}

theorem PrimReads.term (h : PrimReads scanDouble given t) (htext : t.textAt 1 = t.textAt 2) : TermReads scanDouble given t := by
  intro st rest tok more hfollow hbefore
  rw [htext] at hbefore
  obtain ⟨st', hreads, k, hprim⟩ := h st rest tok more hfollow hbefore
  refine ⟨st', hreads, k + 1, k, fun n => ?_⟩
  rw [← Nat.add_assoc, Calc.term, hprim]
  rfl

/-- Behind the operand the loop of `term` is left. -/
theorem TermReads.whole (h : TermReads scanDouble given t) {st : CalcState} {rest more : CStr} {tok : RNumCalcToken}
    (hfollow : Follow rest tok more) (hloose : Loose tok) (hbefore : Before given st (t.textAt 1 ++ rest)) :
    ∃ st', Reads st st' tok more ∧ ∃ k, ∀ n, Calc.term scanDouble (n + k) true st = some (t.pair, st') := by
  obtain ⟨st', hreads, k, j, hterm⟩ := h st rest tok more hfollow hbefore
  refine ⟨st', hreads, k + 1, fun n => ?_⟩
  have hexit := termLoop_exit scanDouble (hreads.token.symm ▸ hloose) (n + j) t.pair
  rw [← hexit, Nat.add_right_comm n j 1, ← hterm, Nat.add_right_comm]
  rfl

theorem TermReads.expr (h : TermReads scanDouble given t) (htext : t.textAt 0 = t.textAt 1) : ExprReads scanDouble given t := by
  intro st rest tok more hfollow hloose hbefore
  rw [htext] at hbefore
  obtain ⟨st', hreads, k, hterm⟩ := h.whole hfollow hloose hbefore
  refine ⟨st', hreads, k + 1, k, fun n => ?_⟩
  rw [← Nat.add_assoc, Calc.expr, hterm]
  rfl

/-- Parentheses around an expression. -/
theorem ExprReads.prim (h : ExprReads scanDouble given t) {u : CalcTree} (hparen : u.textAt 2 = '(' :: (t.text ++ [')']))
    (hpair : u.pair = t.pair) : PrimReads scanDouble given u := by
  intro st rest tok more hfollow hbefore
  rw [hparen] at hbefore
  have htext : t.textAt 0 = t.text := CalcTree.textAt_of_le (Nat.zero_le _)
  have hinput : st.nc.pending.dropWhile isBlank = '(' :: (t.textAt 0 ++ (')' :: rest)) := by
    rw [hbefore.input, htext]
    simp
  have hopen := getToken_open scanDouble st hinput
  have hloose : Loose .rncRightp := by
    intro op hop htok
    cases op <;> cases htok
  obtain ⟨st', hreads, k, j, hexpr⟩ := h _ _ _ _ (.close rest) hloose (hbefore.next hopen 0 t _ (Or.inr rfl))
  refine ⟨getToken scanDouble st', (hopen.trans hreads).trans (hfollow.getToken scanDouble hreads.pending), k + 2, fun n => ?_⟩
  have hclose : exprOp st'.nc.currTok = none := by
    rw [hreads.token]
    rfl
  have hexit := exprLoop_exit scanDouble hclose (n + j) t.pair
  have hinner : Calc.expr scanDouble (n + k + 1) true (getToken scanDouble st) = some (t.pair, st') := by
    rw [← hexit, Nat.add_right_comm n j 1, ← hexpr, Nat.add_right_comm]
  show Calc.prim scanDouble (n + k + 1 + 1) true st = _
  rw [Calc.prim, hpair]
  simp only [if_true, hopen.token, hinner, Option.bind_eq_bind, Option.bind_some, hreads.token]

variable {op : CalcOp} {l r : CalcTree}

theorem loose_of_level (h : op.level = 0) : Loose op.token := by
  intro op' h' htok
  rw [CalcOp.token_injective htok, h'] at h
  exact absurd h one_ne_zero

/-- The text of a binary operator is that of its operands, whatever stands behind. -/
theorem bin_input (rest : CStr) :
    (CalcTree.bin op l r).text ++ rest =
      l.textAt op.level ++ (' ' :: op.char :: ' ' :: (r.textAt (op.level + 1) ++ rest)) := by
  rw [CalcTree.text_bin]
  simp

/-- An operator of a term takes the operand behind it and goes on. -/
theorem TermReads.bin (hop : op.level = 1) (hl : TermReads scanDouble given l) (hr : PrimReads scanDouble given r)
    (hzero : op = .div ∨ op = .mod → r.pair.n ≠ 0) (hfine : Tested given.isSome op → r.pair.dZero = false) :
    TermReads scanDouble given (.bin op l r) := by
  intro st rest tok more hfollow hbefore
  rw [CalcTree.textAt_of_le (by rw [CalcTree.level, hop]), bin_input, hop] at hbefore
  obtain ⟨st1, hreads1, k1, j1, hterm⟩ := hl st _ _ _ (.op op _) hbefore
  have hbefore1 := hbefore.next hreads1 2 r rest (Or.inl rfl)
  obtain ⟨st2, hreads2, k2, hprim⟩ := hr st1 rest tok more hfollow hbefore1
  have hgiven : st2.num.isSome = given.isSome := by
    rw [← hbefore1.num, ← callbackOf_frame hreads2.frame]
    exact (Option.isSome_map ..).symm
  refine ⟨st2, hreads1.trans hreads2, k2 + 1 + k1, j1 + k2, fun n => ?_⟩
  have hstep := termLoop_op scanDouble hop hreads1.token l.pair (hprim (n + j1)) hzero (by rwa [hgiven])
  have hfuel : n + k2 + 1 + j1 = n + j1 + k2 + 1 := by omega
  rw [← Nat.add_assoc, ← Nat.add_assoc, hterm, hfuel, hstep, Nat.add_assoc]
  rfl

/-- An operator of an expression takes the term behind it and goes on. -/
theorem ExprReads.bin (hop : op.level = 0) (hl : ExprReads scanDouble given l) (hr : TermReads scanDouble given r) :
    ExprReads scanDouble given (.bin op l r) := by
  intro st rest tok more hfollow hloose hbefore
  rw [CalcTree.textAt_of_le (Nat.zero_le _), bin_input, hop] at hbefore
  obtain ⟨st1, hreads1, k1, j1, hexpr⟩ := hl st _ _ _ (.op op _) (loose_of_level hop) hbefore
  obtain ⟨st2, hreads2, k2, hterm⟩ := hr.whole hfollow hloose (hbefore.next hreads1 1 r rest (Or.inl rfl))
  refine ⟨st2, hreads1.trans hreads2, k2 + 1 + k1, j1 + k2, fun n => ?_⟩
  have hstep := exprLoop_op scanDouble hop hreads1.token l.pair (hterm (n + j1))
  have hfuel : n + k2 + 1 + j1 = n + j1 + k2 + 1 := by omega
  rw [← Nat.add_assoc, ← Nat.add_assoc, hexpr, hfuel, hstep, Nat.add_assoc]
  rfl

end Parser

section Tree

variable (scanDouble : CStr → Option Float) (given : Option (Option (CStr → Option Ut64)))

/-- Each text of the tree is read as the tree. -/
theorem tree_reads {t : CalcTree} (hlit : t.Literals (Fits given.join)) (hzero : t.NoZeroDivisor)
    (hfine : t.ShadowsFine (Tested given.isSome)) :
    PrimReads scanDouble given t ∧ TermReads scanDouble given t ∧ ExprReads scanDouble given t := by
  induction t with
  | lit n =>
    have hprim : PrimReads scanDouble given (.lit n) := by
      intro st rest tok more hfollow hbefore
      obtain ⟨hreads, hvalue⟩ := getToken_literal scanDouble st (by rwa [hbefore.num]) hbefore.input hfollow.stop
      refine ⟨_, hreads.trans (hfollow.getToken scanDouble hreads.pending), 1, fun n => ?_⟩
      rw [Calc.prim]
      simp only [if_true, hreads.token, hvalue]
      rfl
    exact ⟨hprim, hprim.term rfl, (hprim.term rfl).expr rfl⟩
  | paren t ih =>
    have hprim : PrimReads scanDouble given (.paren t) := (ih hlit hzero hfine).2.2.prim rfl rfl
    exact ⟨hprim, hprim.term rfl, (hprim.term rfl).expr rfl⟩
  | bin op l r ihl ihr =>
    obtain ⟨hprimL, htermL, hexprL⟩ := ihl hlit.1 hzero.1 hfine.1
    obtain ⟨hprimR, htermR, hexprR⟩ := ihr hlit.2 hzero.2.1 hfine.2.1
    have hlevel : op.level = 0 ∨ op.level = 1 := by cases op <;> simp [CalcOp.level]
    have hparen : ∀ level, op.level < level → (CalcTree.bin op l r).textAt level = '(' :: ((CalcTree.bin op l r).text ++ [')']) :=
      fun level h => CalcTree.textAt_of_lt h
    rcases hlevel with hop | hop
    · have hexpr := hexprL.bin hop htermR
      have hprim := hexpr.prim (hparen 2 (by omega)) rfl
      exact ⟨hprim, hprim.term (by rw [hparen 1 (by omega), hparen 2 (by omega)]), hexpr⟩
    · have hterm := htermL.bin hop hprimR (fun h => by rw [CalcTree.pair_n hzero.2.1]; exact hzero.2.2 h) hfine.2.2
      have hexpr := hterm.expr (by
        rw [CalcTree.textAt_of_le (Nat.zero_le _), CalcTree.textAt_of_le (by rw [CalcTree.level, hop])])
      exact ⟨hexpr.prim (hparen 2 (by omega)) rfl, hterm, hexpr⟩

end Tree

end Radare.Calc
