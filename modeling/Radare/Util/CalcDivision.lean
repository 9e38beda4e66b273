import Radare.Util.CalcScanRun

namespace Radare.Calc

open Framework (EndsIn)

/-- A division by zero has been told. -/
def Marked (st : CalcState) : Prop := (st.num.map fun num => num.dbz) = some 1

theorem rNumGetWith_dbz (num : Option RNum) (str : CStr) :
    ((rNumGetWith num str).2.map fun num => num.dbz) = num.map fun num => num.dbz := by
  have hframe := congrArg (Option.map Prod.snd) (rNumGetWith_frame num str)
  simpa [Function.comp_def] using hframe

section Tokens

variable {scanDouble : CStr → Option Float} {st : CalcState}

theorem Marked.cinGetNum (h : Marked st) : Marked (cinGetNum scanDouble st).2 := by
  have hget := rNumGetWith_dbz st.num ((st.nc.pending.takeWhile isNumberChar).take 1024)
  rw [Marked] at h
  rw [h] at hget
  rw [Calc.cinGetNum]
  generalize rNumGetWith st.num ((st.nc.pending.takeWhile isNumberChar).take 1024) = got at hget ⊢
  obtain ⟨v, num⟩ := got
  dsimp only
  split_ifs
  · cases scanDouble ((st.nc.pending.takeWhile isNumberChar).take 1024) with
    | none => exact hget
    | some d => exact hget
  · exact hget

theorem Marked.getToken (h : Marked st) : Marked (getToken scanDouble st) := by
  rw [Calc.getToken]
  split
  · exact h
  · rename_i ch input _
    have hget : Marked (Calc.cinGetNum scanDouble { st with nc := { st.nc with oc := some ch, rest := input } }).2 :=
      Marked.cinGetNum h
    dsimp only
    cases charToken ch with
    | some tok => split_ifs <;> exact h
    | none =>
      dsimp only
      generalize Calc.cinGetNum scanDouble { st with nc := { st.nc with oc := some ch, rest := input } } = got at hget ⊢
      obtain ⟨fits, st'⟩ := got
      cases fits <;> split_ifs <;> first | exact h | exact hget

end Tokens

/-- Whatever comes of it, a division by zero has been told. -/
def Told (outcome : Option (RNumCalcValue × CalcState)) : Prop := ∀ v st, outcome = some (v, st) → Marked st

theorem told_none : Told none := fun _ _ h => by cases h

theorem told_some {st : CalcState} (h : Marked st) (v : RNumCalcValue) : Told (some (v, st)) := by
  intro v' st' heq
  cases heq
  exact h

theorem Told.bind {outcome : Option (RNumCalcValue × CalcState)} (h : Told outcome)
    {next : RNumCalcValue × CalcState → Option (RNumCalcValue × CalcState)}
    (hnext : ∀ v st, Marked st → Told (next (v, st))) : Told (outcome >>= next) := by
  cases outcome with
  | none => exact told_none
  | some out => exact hnext out.1 out.2 (h out.1 out.2 rfl)

section Parser

variable (scanDouble : CStr → Option Float)

/-- An operator of a term tells what its operand tells. -/
theorem Told.termLoop {fuel : Nat} (hkeep : ∀ left st, Marked st → Told (termLoop scanDouble fuel left st)) {op : CalcOp}
    (hop : op.level = 1) {st : CalcState} (htok : st.nc.currTok = op.token) (h : Told (prim scanDouble fuel true st))
    (left : RNumCalcValue) : Told (termLoop scanDouble (fuel + 1) left st) := by
  rw [Calc.termLoop, htok]
  cases op with
  | mul => exact h.bind fun v st' h' => hkeep (nmul left v) st' h'
  | div =>
    refine h.bind fun v st' h' => ?_
    dsimp only
    cases hnum : st'.num with
    | none => exact hkeep (ndiv left v) st' h'
    | some num =>
      dsimp only
      split_ifs
      · have htold : Marked { st' with num := some { num with dbz := 1 } } := rfl
        exact told_some htold v
      · exact hkeep (ndiv left v) st' h'
  | mod =>
    refine h.bind fun v st' h' => ?_
    dsimp only
    split_ifs
    · exact told_some h' v
    · exact hkeep (nmod left v) st' h'
  | _ => cases hop

theorem Told.exprLoop {fuel : Nat} (hkeep : ∀ left st, Marked st → Told (exprLoop scanDouble fuel left st)) {op : CalcOp}
    (hop : op.level = 0) {st : CalcState} (htok : st.nc.currTok = op.token) (h : Told (term scanDouble fuel true st))
    (left : RNumCalcValue) : Told (exprLoop scanDouble (fuel + 1) left st) := by
  rw [Calc.exprLoop, htok, exprOp_token hop]
  exact h.bind fun v st' h' => hkeep (op.apply left v) st' h'

/-- What has been told stays told. -/
theorem told_of_marked (fuel : Nat) :
    (∀ get st, Marked st → Told (expr scanDouble fuel get st)) ∧
    (∀ left st, Marked st → Told (exprLoop scanDouble fuel left st)) ∧
    (∀ get st, Marked st → Told (term scanDouble fuel get st)) ∧
    (∀ left st, Marked st → Told (termLoop scanDouble fuel left st)) ∧
    (∀ get st, Marked st → Told (prim scanDouble fuel get st)) := by
  induction fuel with
  | zero => exact ⟨fun _ _ _ => told_none, fun _ _ _ => told_none, fun _ _ _ => told_none, fun _ _ _ => told_none, fun _ _ _ => told_none⟩
  | succ fuel ih =>
    obtain ⟨hexpr, hexprLoop, hterm, htermLoop, hprim⟩ := ih
    refine ⟨?_, ?_, ?_, ?_, ?_⟩
    · intro get st h
      rw [expr]
      exact (hterm get st h).bind fun v st' h' => hexprLoop v st' h'
    · intro left st h
      rw [exprLoop]
      cases exprOp st.nc.currTok with
      | none => exact told_some h left
      | some op => exact (hterm true st h).bind fun v st' h' => hexprLoop (op left v) st' h'
    · intro get st h
      rw [term]
      exact (hprim get st h).bind fun v st' h' => htermLoop v st' h'
    · intro left st h
      by_cases hloose : Loose st.nc.currTok
      · rw [termLoop_exit scanDouble hloose]
        exact told_some h left
      · simp only [Loose, not_forall, not_not] at hloose
        obtain ⟨op, hop, htok⟩ := hloose
        exact (hprim true st h).termLoop scanDouble htermLoop hop htok left
    · intro get st h
      have hget : Marked (if get then getToken scanDouble st else st) := by
        cases get
        · exact h
        · exact h.getToken
      rw [prim]
      generalize (if get then getToken scanDouble st else st) = st at hget ⊢
      dsimp only
      have hinner : ∀ next : RNumCalcValue → RNumCalcValue,
          Told (prim scanDouble fuel true st >>= fun out => some (next out.1, out.2)) :=
        fun next => (hprim true st hget).bind fun v st' h' => told_some h' (next v)
      split
      · exact told_some hget.getToken _
      · have hname := rNumGetWith_dbz st.num (rStrChop st.nc.stringValue)
        rw [show (st.num.map fun num => num.dbz) = some 1 from hget] at hname
        generalize rNumGetWith st.num (rStrChop st.nc.stringValue) = got at hname ⊢
        obtain ⟨v, num⟩ := got
        have hnext : Marked (getToken scanDouble ⟨num, { st.nc with stringValue := rStrChop st.nc.stringValue }⟩) :=
          Marked.getToken hname
        dsimp only
        split_ifs
        · exact hexpr true _ hnext
        · exact told_some hnext _
      · exact told_some hget.getToken _
      · exact hinner fun v => naddi v 1
      · exact hinner fun v => naddi v (-1)
      · exact hinner fun v => norr ⟨0, 0⟩ v
      · exact hinner fun v => nsub ⟨0, 0⟩ v
      · refine (hexpr true st hget).bind fun v st' h' => ?_
        dsimp only
        split_ifs
        · exact told_some h'.getToken v
        · have htold : Marked (error st' " ')' expected") := h'
          exact told_some htold v
      · exact told_some hget _

variable (callback : Option (CStr → Option Ut64)) (t : CalcTree)

/-- `prim` tells of a division by zero in the operand. -/
def PrimTells : Prop :=
  ∀ st rest tok more, Follow rest tok more → Before (some callback) st (t.textAt 2 ++ rest) →
    ∃ k, ∀ n, Told (prim scanDouble (n + k) true st)

def TermTells : Prop :=
  ∀ st rest tok more, Follow rest tok more → Before (some callback) st (t.textAt 1 ++ rest) →
    ∃ k, ∀ n, Told (term scanDouble (n + k) true st)

def ExprTells : Prop :=
  ∀ st rest tok more, Follow rest tok more → Before (some callback) st (t.textAt 0 ++ rest) →
    ∃ k, ∀ n, Told (expr scanDouble (n + k) true st)

variable {scanDouble} {callback} {t}

theorem PrimTells.term (h : PrimTells scanDouble callback t) (htext : t.textAt 1 = t.textAt 2) : TermTells scanDouble callback t := by
  intro st rest tok more hfollow hbefore
  rw [htext] at hbefore
  obtain ⟨k, hprim⟩ := h st rest tok more hfollow hbefore
  refine ⟨k + 1, fun n => ?_⟩
  rw [← Nat.add_assoc, Calc.term]
  exact (hprim n).bind fun v st' h' => (told_of_marked scanDouble (n + k)).2.2.2.1 v st' h'

theorem TermTells.expr (h : TermTells scanDouble callback t) (htext : t.textAt 0 = t.textAt 1) : ExprTells scanDouble callback t := by
  intro st rest tok more hfollow hbefore
  rw [htext] at hbefore
  obtain ⟨k, hterm⟩ := h st rest tok more hfollow hbefore
  refine ⟨k + 1, fun n => ?_⟩
  rw [← Nat.add_assoc, Calc.expr]
  exact (hterm n).bind fun v st' h' => (told_of_marked scanDouble (n + k)).2.1 v st' h'

/-- Parentheses around an expression. -/
theorem ExprTells.prim (h : ExprTells scanDouble callback t) {u : CalcTree} (hparen : u.textAt 2 = '(' :: (t.text ++ [')'])) :
    PrimTells scanDouble callback u := by
  intro st rest tok more hfollow hbefore
  rw [hparen] at hbefore
  have htext : t.textAt 0 = t.text := CalcTree.textAt_of_le (Nat.zero_le _)
  have hinput : st.nc.pending.dropWhile isBlank = '(' :: (t.textAt 0 ++ (')' :: rest)) := by
    rw [hbefore.input, htext]
    simp
  have hopen := getToken_open scanDouble st hinput
  obtain ⟨k, hexpr⟩ := h _ _ _ _ (.close rest) (hbefore.next hopen 0 t _ (Or.inr rfl))
  refine ⟨k + 1, fun n => ?_⟩
  rw [← Nat.add_assoc, Calc.prim]
  simp only [if_true, hopen.token]
  refine (hexpr n).bind fun v st' h' => ?_
  dsimp only
  split_ifs
  · exact told_some h'.getToken v
  · have htold : Marked (error st' " ')' expected") := h'
    exact told_some htold v

variable {op : CalcOp} {l r : CalcTree}

theorem ExprTells.left (hop : op.level = 0) (h : ExprTells scanDouble callback l) : ExprTells scanDouble callback (.bin op l r) := by
  intro st rest tok more hfollow hbefore
  rw [CalcTree.textAt_of_le (Nat.zero_le _), bin_input, hop] at hbefore
  exact h st _ _ _ (.op op _) hbefore

theorem TermTells.left (hop : op.level = 1) (h : TermTells scanDouble callback l) : TermTells scanDouble callback (.bin op l r) := by
  intro st rest tok more hfollow hbefore
  rw [CalcTree.textAt_of_le (by rw [CalcTree.level, hop]), bin_input, hop] at hbefore
  exact h st _ _ _ (.op op _) hbefore

theorem ExprTells.right (hop : op.level = 0) (hl : ExprReads scanDouble (some callback) l) (hr : TermTells scanDouble callback r) :
    ExprTells scanDouble callback (.bin op l r) := by
  intro st rest tok more hfollow hbefore
  rw [CalcTree.textAt_of_le (Nat.zero_le _), bin_input, hop] at hbefore
  obtain ⟨st1, hreads1, k1, j1, hexpr⟩ := hl st _ _ _ (.op op _) (loose_of_level hop) hbefore
  obtain ⟨k2, hterm⟩ := hr st1 rest tok more hfollow (hbefore.next hreads1 1 r rest (Or.inl rfl))
  refine ⟨k2 + 1 + k1, fun n => ?_⟩
  have hfuel : n + (k2 + 1) + j1 = n + j1 + k2 + 1 := by omega
  rw [← Nat.add_assoc, hexpr, hfuel]
  exact (hterm (n + j1)).exprLoop scanDouble (told_of_marked scanDouble _).2.1 hop hreads1.token l.pair

theorem TermTells.right (hop : op.level = 1) (hl : TermReads scanDouble (some callback) l) (hr : PrimTells scanDouble callback r) :
    TermTells scanDouble callback (.bin op l r) := by
  intro st rest tok more hfollow hbefore
  rw [CalcTree.textAt_of_le (by rw [CalcTree.level, hop]), bin_input, hop] at hbefore
  obtain ⟨st1, hreads1, k1, j1, hterm⟩ := hl st _ _ _ (.op op _) hbefore
  obtain ⟨k2, hprim⟩ := hr st1 rest tok more hfollow (hbefore.next hreads1 2 r rest (Or.inl rfl))
  refine ⟨k2 + 1 + k1, fun n => ?_⟩
  have hfuel : n + (k2 + 1) + j1 = n + j1 + k2 + 1 := by omega
  rw [← Nat.add_assoc, hterm, hfuel]
  exact (hprim (n + j1)).termLoop scanDouble (told_of_marked scanDouble _).2.2.2.1 hop hreads1.token l.pair

/-- A divisor with a shadow of zero. -/
theorem TermTells.div (hl : TermReads scanDouble (some callback) l) (hr : PrimReads scanDouble (some callback) r) (hzero : r.pair.dZero = true) :
    TermTells scanDouble callback (.bin .div l r) := by
  intro st rest tok more hfollow hbefore
  rw [CalcTree.textAt_of_le (Nat.le_refl 1), bin_input] at hbefore
  obtain ⟨st1, hreads1, k1, j1, hterm⟩ := hl st _ _ _ (.op .div _) hbefore
  have hbefore1 := hbefore.next hreads1 2 r rest (Or.inl rfl)
  obtain ⟨st2, hreads2, k2, hprim⟩ := hr st1 rest tok more hfollow hbefore1
  obtain ⟨num, hnum, -⟩ := Option.map_eq_some_iff.mp ((callbackOf_frame hreads2.frame).trans hbefore1.num)
  refine ⟨k2 + 1 + k1, fun n => ?_⟩
  have hfuel : n + (k2 + 1) + j1 = n + j1 + k2 + 1 := by omega
  have htold : Marked { st2 with num := some { num with dbz := 1 } } := rfl
  rw [← Nat.add_assoc, hterm, hfuel, termLoop, hreads1.token, hprim (n + j1)]
  simp only [CalcOp.token, reduceCtorEq, if_false, if_true, Option.bind_eq_bind, Option.bind_some, hnum, hzero, true_or]
  exact told_some htold r.pair

end Parser

section Tree

variable {scanDouble : CStr → Option Float} {callback : Option (CStr → Option Ut64)} {op : CalcOp} {l r : CalcTree}

/-- An operator of an expression divides by nothing itself. -/
theorem exprTells_bin (hop : op.level = 0) (hbad : ¬(CalcTree.bin op l r).ShadowsFine (Tested true))
    (hl : ¬l.ShadowsFine (Tested true) → ExprTells scanDouble callback l) (hr : ¬r.ShadowsFine (Tested true) → TermTells scanDouble callback r)
    (hreads : l.ShadowsFine (Tested true) → ExprReads scanDouble (some callback) l) : ExprTells scanDouble callback (.bin op l r) := by
  by_cases hfineL : l.ShadowsFine (Tested true)
  · have hnot : ¬Tested true op := by
      rintro (rfl | ⟨rfl, -⟩)
      · cases hop
      · cases hop
    exact ExprTells.right hop (hreads hfineL) (hr fun hfineR => hbad ⟨hfineL, hfineR, fun h => absurd h hnot⟩)
  · exact (hl hfineL).left hop

theorem termTells_bin (hop : op.level = 1) (hbad : ¬(CalcTree.bin op l r).ShadowsFine (Tested true))
    (hmod : op = .mod → r.pair.dZero = false) (hl : ¬l.ShadowsFine (Tested true) → TermTells scanDouble callback l)
    (hr : ¬r.ShadowsFine (Tested true) → PrimTells scanDouble callback r)
    (hreadsL : l.ShadowsFine (Tested true) → TermReads scanDouble (some callback) l)
    (hreadsR : r.ShadowsFine (Tested true) → PrimReads scanDouble (some callback) r) : TermTells scanDouble callback (.bin op l r) := by
  by_cases hfineL : l.ShadowsFine (Tested true)
  · by_cases hfineR : r.ShadowsFine (Tested true)
    · have hdivisor : ¬(Tested true op → r.pair.dZero = false) := fun h => hbad ⟨hfineL, hfineR, h⟩
      rw [Classical.not_imp] at hdivisor
      obtain ⟨rfl | ⟨rfl, -⟩, hzero⟩ := hdivisor
      · exact absurd (hmod rfl) hzero
      · exact TermTells.div (hreadsL hfineL) (hreadsR hfineR) (Bool.eq_true_of_not_eq_false hzero)
    · exact TermTells.right hop (hreadsL hfineL) (hr hfineR)
  · exact (hl hfineL).left hop

/-- A division by a divisor with a shadow of zero is told as a division by zero. -/
theorem tree_tells {t : CalcTree} (hlit : t.Literals (Fits callback)) (hzero : t.NoZeroDivisor) (hmod : t.ShadowsFine (fun op => op = .mod))
    (hbad : ¬t.ShadowsFine (Tested true)) :
    PrimTells scanDouble callback t ∧ TermTells scanDouble callback t ∧ ExprTells scanDouble callback t := by
  induction t with
  | lit n => exact absurd trivial hbad
  | paren t ih =>
    have hprim : PrimTells scanDouble callback (.paren t) := (ih hlit hzero hmod hbad).2.2.prim rfl
    exact ⟨hprim, hprim.term rfl, (hprim.term rfl).expr rfl⟩
  | bin op l r ihl ihr =>
    have hl := ihl hlit.1 hzero.1 hmod.1
    have hr := ihr hlit.2 hzero.2.1 hmod.2.1
    have hreadsL := fun hfine => tree_reads scanDouble (some callback) hlit.1 hzero.1 hfine
    have hreadsR := fun hfine => tree_reads scanDouble (some callback) hlit.2 hzero.2.1 hfine
    have hparen : ∀ level, op.level < level → (CalcTree.bin op l r).textAt level = '(' :: ((CalcTree.bin op l r).text ++ [')']) :=
      fun level h => CalcTree.textAt_of_lt h
    have hlevel : op.level = 0 ∨ op.level = 1 := by cases op <;> simp [CalcOp.level]
    rcases hlevel with hop | hop
    · have hexpr := exprTells_bin hop hbad (fun h => (hl h).2.2) (fun h => (hr h).2.1) fun h => (hreadsL h).2.2
      have hprim := hexpr.prim (hparen 2 (by omega))
      exact ⟨hprim, hprim.term (by rw [hparen 1 (by omega), hparen 2 (by omega)]), hexpr⟩
    · have hterm := termTells_bin hop hbad hmod.2.2 (fun h => (hl h).2.1) (fun h => (hr h).1) (fun h => (hreadsL h).2.1)
        fun h => (hreadsR h).1
      have hexpr := hterm.expr (by rw [CalcTree.textAt_of_le (Nat.zero_le _), CalcTree.textAt_of_le (by rw [CalcTree.level, hop])])
      exact ⟨hexpr.prim (hparen 2 (by omega)), hterm, hexpr⟩

end Tree

section Calc

variable (scanDouble : CStr → Option Float) (num : Option RNum) (nc : RNumCalc)

/-- The state that `r_num_calc` begins in. -/
def calcStart (str : CStr) : CalcState :=
  ⟨num.map fun num => { num with dbz := 0 },
    { nc with currTok := .rncPrint, numberValue := ⟨0, 0⟩, errors := 0, oc := none, calcErr := none, rest := str }⟩

theorem calcStart_before (t : CalcTree) : Before (callbackOf num) (calcStart num nc t.text) (t.textAt 0 ++ []) := by
  have htext : t.textAt 0 = t.text := CalcTree.textAt_of_le (Nat.zero_le _)
  refine ⟨by cases num <;> rfl, ?_⟩
  have hblank := (textAt_blank 0 t []).2
  rw [htext, List.append_nil] at hblank ⊢
  exact hblank

/-- Taken from the remaining text, the tree is worked out to its value, without an error and without a division by zero
being told. -/
def TextRight (t : CalcTree) : Prop :=
  ∃ st, EndsIn (fun fuel => rNumCalc scanDouble fuel num nc) t.text (t.value, st) ∧
    st.nc.calcErr = none ∧ (st.num.map fun num => num.dbz) = num.map fun _ => 0

variable {scanDouble} {num} {nc} {t : CalcTree}

theorem rNumCalc_start {str : CStr} (hne : str ≠ []) (fuel : Nat) :
    rNumCalc scanDouble fuel num nc str = (expr scanDouble fuel true (calcStart num nc str)).map fun out =>
      (out.1.n, { out.2 with num := out.2.num.map fun num => { num with fvalue := out.1.d } }) := by
  rw [rNumCalc, if_neg hne, expr_get]
  dsimp only [calcStart]
  generalize expr scanDouble fuel false (getToken scanDouble _) = outcome
  cases outcome <;> rfl

theorem text_ne_nil : t.text ≠ [] := by
  have htext : t.textAt 0 = t.text := CalcTree.textAt_of_le (Nat.zero_le _)
  obtain ⟨c, cs, hc, -⟩ := textAt_head 0 t
  rw [← htext, hc]
  exact List.cons_ne_nil c cs

theorem textRight_of_fine (hlit : t.Literals (Fits (callbackOf num).join)) (hzero : t.NoZeroDivisor)
    (hfine : t.ShadowsFine (Tested num.isSome)) : TextRight scanDouble num nc t := by
  have hgiven : (callbackOf num).isSome = num.isSome := Option.isSome_map ..
  have hloose : Loose .rncEnd := by
    intro op hop htok
    cases op <;> cases htok
  obtain ⟨st, hreads, k, j, hexpr⟩ := (tree_reads scanDouble (callbackOf num) hlit hzero (by rwa [hgiven])).2.2
    _ _ _ _ .done hloose (calcStart_before num nc t)
  have hend : exprOp st.nc.currTok = none := by
    rw [hreads.token]
    rfl
  have hframe := hreads.frame
  refine ⟨{ st with num := st.num.map fun num => { num with fvalue := t.pair.d } }, ⟨k + 1, fun n => ?_⟩, ?_, ?_⟩
  · have hexit := exprLoop_exit scanDouble hend (n + j) t.pair
    have hfuel : n + j + 1 = n + 1 + j := by omega
    dsimp only
    rw [rNumCalc_start text_ne_nil, ← CalcTree.pair_n hzero, ← Nat.add_assoc, Nat.add_right_comm, hexpr, ← hfuel, hexit]
    rfl
  · exact congrArg (fun f => f.2.1) hframe
  · have hdbz := congrArg (fun f => f.2.2.map Prod.snd) hframe
    simpa [CalcState.frame, calcStart, Function.comp_def] using hdbz

theorem fine_of_textRight {num : RNum} (hlit : t.Literals (Fits num.callback)) (hzero : t.NoZeroDivisor)
    (hmod : t.ShadowsFine (fun op => op = .mod)) (hright : TextRight scanDouble (some num) nc t) :
    t.ShadowsFine (Tested true) := by
  by_contra hbad
  obtain ⟨st, ⟨j, hend⟩, -, hdbz⟩ := hright
  obtain ⟨k, hexpr⟩ := (tree_tells hlit hzero hmod hbad).2.2 _ _ _ _ .done (calcStart_before (some num) nc t)
  have hrun := hend k
  dsimp only at hrun
  rw [rNumCalc_start text_ne_nil, Nat.add_comm] at hrun
  obtain ⟨out, hout, heq⟩ := Option.map_eq_some_iff.mp hrun
  have hmarked : Marked out.2 := hexpr j out.1 out.2 hout
  rw [← (Prod.mk.inj heq).2] at hdbz
  rw [Marked] at hmarked
  simp [Function.comp_def, hmarked] at hdbz

/-- The tree is worked out to its value, without an error and without a division by zero being told. -/
def CalcRight (scanDouble : CStr → Option Float) (num : Option RNum) (nc : CalcScan.RNumCalc) (t : CalcTree) : Prop :=
  ∃ st, EndsIn (fun fuel => CalcScan.rNumCalc scanDouble fuel num nc) t.text (t.value, st) ∧
    st.nc.calcErr = none ∧ (st.num.map fun num => num.dbz) = num.map fun _ => 0

/-- On a text that `calc_i` can index, it makes no difference that the characters are read by their index. -/
theorem calcRight_iff {nc : CalcScan.RNumCalc} (hlen : t.text.length < 2 ^ 31) :
    CalcRight scanDouble num nc t ↔ TextRight scanDouble num nc.toCalc t := by
  constructor
  · rintro ⟨st, hends, herr, hdbz⟩
    exact ⟨st.toCalc, CalcScan.endsIn_toCalc hlen hends, herr, hdbz⟩
  · rintro ⟨st, hends, herr, hdbz⟩
    obtain ⟨out, hends', rfl, -⟩ := CalcScan.endsIn_of_toCalc text_ne_nil hlen hends
    exact ⟨out, hends', herr, hdbz⟩

/-- Where no tested divisor has a shadow of zero, `r_num_calc` is right. Where it is right, and no divisor of `%` has a
shadow of zero, no tested divisor has. -/
theorem calc_right_iff (scanDouble : CStr → Option Float) (num : Option RNum) (nc : CalcScan.RNumCalc) (t : CalcTree)
    (hlen : t.text.length < 2 ^ 31) (hlit : t.Literals (Fits (callbackOf num).join)) (hzero : t.NoZeroDivisor) :
    (t.ShadowsFine (Tested num.isSome) → CalcRight scanDouble num nc t) ∧
      (t.ShadowsFine (fun op => op = .mod) → CalcRight scanDouble num nc t → t.ShadowsFine (Tested num.isSome)) := by
  rw [calcRight_iff hlen]
  refine ⟨textRight_of_fine hlit hzero, fun hmod hright => ?_⟩
  cases num with
  | none =>
    apply hmod.mono
    rintro op (hop | ⟨-, hgiven⟩)
    · exact hop
    · cases hgiven
  | some num => exact fine_of_textRight hlit hzero hmod hright

def plainNum : RNum := { callback := none, value := 0, fvalue := 0, dbz := 0 }

def blankCalc : CalcScan.RNumCalc :=
  { currTok := .rncPrint, numberValue := ⟨0, 0⟩, stringValue := [], errors := 0, oc := none, calcErr := none, calcBuf := [],
    calcI := 0 }

theorem fits_of_lt {n : Nat} (h : n < 2 ^ 64) : Fits none n := ⟨h, fun _ hv => by cases hv⟩

/-- `1 + 10 / 2`. -/
theorem calc_right_iff_half :
    CalcRight (fun _ => none) (some plainNum) blankCalc (.bin .add (.lit 1) (.bin .div (.lit 10) (.lit 2))) :=
  (calc_right_iff (fun _ => none) (some plainNum) blankCalc (.bin .add (.lit 1) (.bin .div (.lit 10) (.lit 2)))
    (by decide) ⟨fits_of_lt (by decide), fits_of_lt (by decide), fits_of_lt (by decide)⟩
    ⟨trivial, ⟨trivial, trivial, fun _ => by decide⟩, fun h => by cases h <;> contradiction⟩).1
    ⟨trivial, ⟨trivial, trivial, fun _ => by decide⟩, fun h => by rcases h with h | ⟨h, -⟩ <;> cases h⟩

/-- `10 / (5 | 0)`: the disjunction takes over the shadow of its second operand. -/
def tenByFive : CalcTree := .bin .div (.lit 10) (.bin .orr (.lit 5) (.lit 0))

theorem calc_shadow_divides :
    tenByFive.Literals (Fits none) ∧ tenByFive.NoZeroDivisor ∧ tenByFive.value = 2 ∧
      ¬CalcRight (fun _ => none) (some plainNum) blankCalc tenByFive := by
  refine ⟨⟨fits_of_lt (by decide), fits_of_lt (by decide), fits_of_lt (by decide)⟩,
    ⟨trivial, ⟨trivial, trivial, fun h => by cases h <;> contradiction⟩, fun _ => by decide⟩, by decide, ?_⟩
  rw [calcRight_iff (by decide)]
  rintro ⟨st, ⟨j, hend⟩, -, -⟩
  -- the divisor comes out
  have hrun : (rNumCalc (fun _ => none) (j + 20) (some plainNum) blankCalc.toCalc tenByFive.text).map Prod.fst = some 5 := rfl
  have hright := hend 20
  dsimp only at hright
  rw [Nat.add_comm, hright] at hrun
  have hvalue : tenByFive.value = 5 := Option.some.inj hrun
  exact absurd hvalue (by decide)

end Calc

end Radare.Calc
