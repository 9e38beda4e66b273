import Radare.Esil.EmptyWords
import Radare.Esil.ParseSafe

namespace Radare

open Framework (Leads EndsIn)

/-- A word of a program behind its commas. -/
structure SpacedWord where
  commas : Nat
  word : CStr

def SpacedWord.text (x : SpacedWord) : CStr := List.replicate x.commas ',' ++ x.word

/-- The text of a program with `trail` commas at its end. -/
def spacedText (xs : List SpacedWord) (trail : Nat) : CStr :=
  xs.flatMap SpacedWord.text ++ List.replicate trail ','

/-- What the parser takes for words in a number of commas and the word behind them. -/
def commaWords : Nat → CStr → List CStr
  | 0, v => [v]
  | 1, v => [v]
  | 2, v => [',' :: v]
  | g + 3, v => [','] :: commaWords (g + 1) v

def spacedWords (xs : List SpacedWord) : List CStr := xs.flatMap (fun x => commaWords x.commas x.word)

@[simp]
theorem spacedText_nil (trail : Nat) : spacedText [] trail = List.replicate trail ',' := rfl

@[simp]
theorem spacedText_cons (g : Nat) (v : CStr) (xs : List SpacedWord) (trail : Nat) :
    spacedText (⟨g, v⟩ :: xs) trail = List.replicate g ',' ++ (v ++ spacedText xs trail) := by
  simp [spacedText, SpacedWord.text]

@[simp]
theorem spacedWords_cons (x : SpacedWord) (xs : List SpacedWord) :
    spacedWords (x :: xs) = commaWords x.commas x.word ++ spacedWords xs := rfl

section Scan

variable {R : Type} {env : EsilEnv R} {ostr : CStr}

/-- Out of budget the scan ends without an effect. -/
theorem scan_spent {e : Esil R} (he : e.Quiet) (hlow : e.parseGotoCount < 2) (str w : CStr) :
    ∃ a, EndsIn (scanFrom env ostr) (e, str, w) a ∧ a.2.effect = e.effect := by
  have hrun : ∀ t, budgetWord env e t = (0, { e with parseGotoCount := e.parseGotoCount - 1, trap := 1, parseStop := 1 }) :=
    fun t => if_pos (by omega)
  induction hlen : str.length using Nat.strongRecOn generalizing str w with
  | ind len ih =>
    cases str with
    | nil =>
      by_cases hw : w = []
      · refine ⟨(1, e), .of_step fun n => ?_, rfl⟩
        rw [scanFrom, parseFrom, if_pos hw]
      · refine ⟨budgetWord env e w, .of_step fun n => ?_, ?_⟩
        · rw [scanFrom, parseFrom, if_neg hw, runword_quiet env _ e w he, hrun]
          rfl
        · rw [hrun]
          rfl
    | cons c rest =>
      rw [List.length_cons] at hlen
      by_cases hlong : 62 < w.length
      · refine ⟨(-1, e), .of_step fun n => ?_, rfl⟩
        rw [scanFrom, parseFrom, if_pos hlong]
      by_cases hc : c = ';' ∨ c = ','
      · by_cases hw : w = []
        · have hnext : Leads (scanFrom env ostr) (e, c :: rest, w) (e, rest.tail, rest.head?.toList) := by
            apply Leads.of_step
            intro n
            rw [scanFrom, parseFrom, if_neg hlong, if_pos hc, if_pos hw]
            rfl
          have htail : rest.tail.length = rest.length - 1 := List.length_tail
          obtain ⟨a, ha, heffect⟩ := ih rest.tail.length (by omega) rest.tail rest.head?.toList rfl
          exact ⟨a, hnext.ends ha, heffect⟩
        · refine ⟨budgetWord env e w, .of_step fun n => ?_, ?_⟩
          · rw [scanFrom, parseFrom, if_neg hlong, if_pos hc, if_neg hw, runword_quiet env _ e w he, hrun]
            rfl
          · rw [hrun]
            rfl
      · have hnext : Leads (scanFrom env ostr) (e, c :: rest, w) (e, rest, w ++ [c]) := by
          apply Leads.of_step
          intro n
          rw [scanFrom, parseFrom, if_neg hlong, if_neg hc]
          rfl
        obtain ⟨a, ha, heffect⟩ := ih rest.length (by omega) rest (w ++ [c]) rfl
        exact ⟨a, hnext.ends ha, heffect⟩

/-- The end of the string behind a word. -/
theorem scan_last {e : Esil R} {t : CStr} (he : e.Calm) (ht : t ≠ []) (hcalm : (budgetWord env e t).2.Calm) :
    ∃ a, EndsIn (scanFrom env ostr) (e, [], t) a ∧ a.2.effect = (budgetWord env e t).2.effect := by
  have hword : ∀ n, scanFrom env ostr (n + 1) (e, [], t) =
      if (budgetWord env e t).1 = 0 then some (0, (budgetWord env e t).2)
      else if (budgetWord env e t).2.parseStop ≠ 0 then some (0, (budgetWord env e t).2)
      else some (1, (budgetWord env e t).2) := by
    intro n
    obtain ⟨⟨-, hrepeat⟩, hgoto⟩ := hcalm
    rw [scanFrom, parseFrom, if_neg ht, runword_quiet env _ e t he.quiet]
    dsimp only
    by_cases hret : (budgetWord env e t).1 = 0
    · rw [if_pos hret, if_pos hret]
    rw [if_neg hret, if_neg hret, evalWord, if_neg (show ¬([] : CStr)[1]? = some ',' by simp),
      if_neg (show ¬(budgetWord env e t).2.repeatFlag = true by simp [hrepeat]),
      if_neg (show ¬(budgetWord env e t).2.parseGoto ≠ -1 by simp [hgoto])]
    by_cases hstop : (budgetWord env e t).2.parseStop ≠ 0
    · rw [if_pos hstop, if_pos hstop]
    · rw [if_neg hstop, if_neg hstop]
  by_cases hret : (budgetWord env e t).1 = 0
  · exact ⟨_, .of_step fun n => (hword n).trans (if_pos hret), rfl⟩
  by_cases hstop : (budgetWord env e t).2.parseStop ≠ 0
  · exact ⟨_, .of_step fun n => (hword n).trans ((if_neg hret).trans (if_pos hstop)), rfl⟩
  · exact ⟨_, .of_step fun n => (hword n).trans ((if_neg hret).trans (if_neg hstop)), rfl⟩

variable (ostr) (hcomma : iscommand env [','] = none)

include hcomma

theorem bufferedWord_comma : BufferedWord env [','] :=
  ⟨by simp, by simp, lineWord_comma hcomma, fun _ => hcomma⟩

/-- The commas behind the last word have no effect. -/
theorem scan_trail {e : Esil R} {t : CStr} (he : e.Calm) (trail : Nat) (ht : 2 ≤ e.parseGotoCount → BufferedWord env t) :
    ∃ a, EndsIn (scanFrom env ostr) (e, List.replicate trail ',', t) a ∧ a.2.effect = (runLine env [t] e).effect := by
  by_cases hlow : e.parseGotoCount < 2
  · rw [runLine_spent hlow]
    exact scan_spent he.quiet hlow _ t
  induction trail using Nat.strongRecOn generalizing e t with
  | ind trail ih =>
    have hbuf := ht (by omega)
    have hcalm := hbuf.line.budgetWord_calm he
    rw [runLine_singleton]
    by_cases hzero : trail = 0
    · rw [hzero]
      exact scan_last he hbuf.ne hcalm
    obtain ⟨g, rfl⟩ := Nat.exists_eq_add_one_of_ne_zero hzero
    rw [List.replicate_succ]
    by_cases hret : (budgetWord env e t).1 = 0
    · exact ⟨_, scan_fail he.quiet ⟨hbuf.ne, hbuf.short⟩ hcalm hret, rfl⟩
    by_cases hone : g = 0
    · have hstr : (List.replicate g ',').head? ≠ some ',' := by simp [hone]
      by_cases hstop : (budgetWord env e t).2.parseStop = 0
      · have hend : EndsIn (scanFrom env ostr)
            ((budgetWord env e t).2, (List.replicate g ',').tail, (List.replicate g ',').head?.toList) (1, (budgetWord env e t).2) := by
          apply EndsIn.of_step
          intro n
          rw [hone, scanFrom, List.replicate_zero, List.tail_nil, parseFrom, if_pos (by simp)]
        exact ⟨_, (scan_next he.quiet ⟨hbuf.ne, hbuf.short⟩ hcalm hret hstr hstop).ends hend, rfl⟩
      · exact ⟨_, scan_stop he.quiet ⟨hbuf.ne, hbuf.short⟩ hcalm hstr hstop, rfl⟩
    · obtain ⟨m, rfl⟩ := Nat.exists_eq_add_one_of_ne_zero hone
      rw [List.replicate_succ]
      have hend : ∃ a, EndsIn (scanFrom env ostr) ((budgetWord env e t).2, List.replicate m ',', [',']) a ∧
          a.2.effect = (budgetWord env e t).2.effect := by
        by_cases hroom : (budgetWord env e t).2.parseGotoCount < 2
        · exact scan_spent hcalm.quiet hroom _ _
        · obtain ⟨a, ha, heffect⟩ := ih m (by omega) hcalm (fun _ => bufferedWord_comma hcomma) hroom
          rw [runLine_singleton, budgetWord_comma_effect hcomma] at heffect
          exact ⟨a, ha, heffect⟩
      obtain ⟨a, ha, heffect⟩ := hend
      exact ⟨a, (scan_again he.quiet ⟨hbuf.ne, hbuf.short⟩ hcalm hret).ends ha, heffect⟩

/-- The scan from a word in the buffer on has the effect of the words that it takes for words. -/
theorem scan_words {e : Esil R} {t : CStr} (he : e.Calm) (xs : List SpacedWord) (trail : Nat)
    (hpos : ∀ x ∈ xs, 0 < x.commas) (hw : ∀ x ∈ xs, EsilWord x.word)
    (ht : BufferedWords env e.parseGotoCount (t :: spacedWords xs)) :
    ∃ a, EndsIn (scanFrom env ostr) (e, spacedText xs trail, t) a ∧
      a.2.effect = (runLine env (t :: spacedWords xs) e).effect := by
  induction xs generalizing e t with
  | nil => exact scan_trail ostr hcomma he trail fun hroom => (ht hroom).1
  | cons x xs ih =>
    obtain ⟨g, v⟩ := x
    have hv : EsilWord v := hw _ List.mem_cons_self
    have hgap := hpos _ List.mem_cons_self
    have ih' := fun {e : Esil R} {t : CStr} he => ih (e := e) (t := t) he (fun y hy => hpos y (List.mem_cons_of_mem _ hy))
      (fun y hy => hw y (List.mem_cons_of_mem _ hy))
    clear hpos hw ih
    rw [spacedText_cons]
    -- the commas are taken two at a time, as `commaWords` does
    induction g using Nat.strongRecOn generalizing e t with
    | ind g ihg =>
      by_cases hlow : e.parseGotoCount < 2
      · rw [runLine_spent hlow]
        exact scan_spent he.quiet hlow _ t
      obtain ⟨hbuf, hrest⟩ := ht (by omega)
      have hfits : t ≠ [] ∧ t.length ≤ 62 := ⟨hbuf.ne, hbuf.short⟩
      have hcalm := hbuf.line.budgetWord_calm he
      have hcount := hbuf.line.budgetWord_count (e := e) (by omega)
      rw [← hcount] at hrest
      obtain ⟨m, rfl⟩ : ∃ m, g = m + 1 := ⟨g - 1, by dsimp only at hgap; omega⟩
      rw [runLine, List.replicate_succ]
      by_cases hret : (budgetWord env e t).1 = 0
      · rw [if_pos (Or.inl hret)]
        exact ⟨_, scan_fail he.quiet hfits hcalm hret, rfl⟩
      rcases m with _ | _ | m
      · have hhead : (v ++ spacedText xs trail).head? ≠ some ',' := hv.head_ne _
        by_cases hstop : (budgetWord env e t).2.parseStop = 0
        · rw [if_neg (not_or.mpr ⟨hret, not_not.mpr hstop⟩)]
          obtain ⟨a, ha, heffect⟩ := ih' hcalm hrest
          exact ⟨a, ((scan_next he.quiet hfits hcalm hret hhead hstop).trans hv.scan_tail).ends ha, heffect⟩
        · rw [if_pos (Or.inr hstop)]
          exact ⟨_, scan_stop he.quiet hfits hcalm hhead hstop, rfl⟩
      · have hlen : [','].length + v.length ≤ 62 := by
          have hshort := hv.short
          rw [List.length_singleton]
          omega
        obtain ⟨a, ha, heffect⟩ := ih' hcalm hrest
        have hend := (scan_chars hv.chars hlen).ends ha
        exact ⟨a, (scan_again he.quiet hfits hcalm hret).ends hend, heffect.trans (runLine_passed hret hrest).symm⟩
      · obtain ⟨a, ha, heffect⟩ := ihg (m + 1) (by omega) hcalm hrest (Nat.succ_pos m)
        exact ⟨a, (scan_again he.quiet hfits hcalm hret).ends ha, heffect.trans (runLine_passed hret hrest).symm⟩

/-- From the start of the string, where the first word may have any number of commas in front. -/
theorem scan_start {e : Esil R} (he : e.Calm) (xs : List SpacedWord) (trail : Nat)
    (hpos : ∀ x ∈ xs.tail, 0 < x.commas) (hw : ∀ x ∈ xs, EsilWord x.word)
    (ht : BufferedWords env e.parseGotoCount (spacedWords xs)) :
    ∃ a, EndsIn (scanFrom env ostr) (e, spacedText xs trail, []) a ∧
      a.2.effect = (runLine env (spacedWords xs) e).effect := by
  cases xs with
  | nil =>
    have hdone : EndsIn (scanFrom env ostr) (e, [], []) (1, e) := by
      apply EndsIn.of_step
      intro n
      rw [scanFrom, parseFrom, if_pos rfl]
    rcases trail with _ | _ | trail
    · exact ⟨_, hdone, rfl⟩
    · exact ⟨_, (scan_skip e).ends hdone, rfl⟩
    · obtain ⟨a, ha, heffect⟩ := scan_trail ostr hcomma he trail fun _ => bufferedWord_comma hcomma
      refine ⟨a, (scan_skip e).ends ha, ?_⟩
      rw [heffect, runLine_singleton, budgetWord_comma_effect hcomma]
      rfl
  | cons x xs =>
    obtain ⟨g, v⟩ := x
    have hv : EsilWord v := hw _ List.mem_cons_self
    have hw' : ∀ x ∈ xs, EsilWord x.word := fun x hx => hw x (List.mem_cons_of_mem _ hx)
    rw [spacedText_cons]
    rcases g with _ | _ | _ | g
    · have hlen : ([] : CStr).length + v.length ≤ 62 := (Nat.zero_add _).le.trans hv.fits.2
      obtain ⟨a, ha, heffect⟩ := scan_words ostr hcomma he xs trail hpos hw' ht
      exact ⟨a, (scan_chars hv.chars hlen).ends ha, heffect⟩
    · obtain ⟨a, ha, heffect⟩ := scan_words ostr hcomma he xs trail hpos hw' ht
      exact ⟨a, ((scan_skip e).trans hv.scan_tail).ends ha, heffect⟩
    · have hlen : [','].length + v.length ≤ 62 := by
        have hshort := hv.short
        rw [List.length_singleton]
        omega
      obtain ⟨a, ha, heffect⟩ := scan_words ostr hcomma he xs trail hpos hw' ht
      exact ⟨a, ((scan_skip e).trans (scan_chars hv.chars hlen)).ends ha, heffect⟩
    · have hpos' : ∀ x ∈ (⟨g + 1, v⟩ : SpacedWord) :: xs, 0 < x.commas := by
        intro x hx
        rcases List.mem_cons.mp hx with rfl | hx
        · exact Nat.succ_pos g
        · exact hpos x hx
      have hw'' : ∀ x ∈ (⟨g + 1, v⟩ : SpacedWord) :: xs, EsilWord x.word := by
        intro x hx
        rcases List.mem_cons.mp hx with rfl | hx
        · exact hv
        · exact hw' x hx
      obtain ⟨a, ha, heffect⟩ := scan_words ostr hcomma he (⟨g + 1, v⟩ :: xs) trail hpos' hw'' ht
      rw [spacedText_cons] at ha
      exact ⟨a, (scan_skip e).ends ha, heffect⟩

end Scan

/-- The empty words in front of a word. -/
def SpacedWord.empties (x : SpacedWord) : Nat := (x.commas - 1) / 2

/-- No comma is left over that would become the first character of the word. -/
abbrev SpacedWord.Kept (x : SpacedWord) : Prop := x.commas = 0 ∨ x.commas % 2 = 1

theorem commaWords_eq (x : SpacedWord) :
    commaWords x.commas x.word =
      List.replicate x.empties [','] ++ [if x.Kept then x.word else ',' :: x.word] := by
  obtain ⟨g, v⟩ := x
  dsimp only [SpacedWord.empties, SpacedWord.Kept]
  fun_induction commaWords g v with
  | case1 v => rfl
  | case2 v => rfl
  | case3 v => simp
  | case4 g v ih =>
    have hhalf : (g + 3 - 1) / 2 = (g + 1 - 1) / 2 + 1 := by omega
    have hkept : (g + 3 = 0 ∨ (g + 3) % 2 = 1) ↔ (g + 1 = 0 ∨ (g + 1) % 2 = 1) := by omega
    rw [ih, hhalf, List.replicate_succ, List.cons_append]
    simp only [Nat.succ_eq_add_one, hkept]

/-- With `b` units of the budget left to the program and `spent` units less to the one with more commas: each
word that the first one can run is not swallowed by a comma, and the second one has the budget for it. -/
def CommasFine : Int → Nat → List SpacedWord → Prop
  | _, _, [] => True
  | b, spent, x :: xs =>
    2 ≤ b → x.Kept ∧ ((spent + x.empties : Nat) : Int) + 2 ≤ b ∧ CommasFine (b - 1) (spent + x.empties) xs

section Budget

variable {R : Type} {env : EsilEnv R} (hcomma : iscommand env [','] = none)

include hcomma

theorem runLine_commas {e : Esil R} (hstop : e.parseStop = 0) {k : Nat} (hroom : (k : Int) < e.parseGotoCount)
    (ts : List CStr) :
    runLine env (List.replicate k [','] ++ ts) e = runLine env ts (e.withCount (e.parseGotoCount - k)) := by
  induction k generalizing e with
  | zero => rw [Int.natCast_zero, Int.sub_zero, e.withCount_self, List.replicate_zero, List.nil_append]
  | succ k ih =>
    have hrun := budgetWord_comma hcomma (e := e) (by omega)
    have hcount : e.parseGotoCount - 1 - (k : Int) = e.parseGotoCount - ((k + 1 : Nat) : Int) := by omega
    have hrest := ih (e := e.withCount (e.parseGotoCount - 1)) hstop (by rw [Esil.withCount_count]; omega)
    rw [Esil.withCount_count, Esil.withCount_withCount, hcount] at hrest
    rw [List.replicate_succ, List.cons_append, runLine, hrun, ← hrest]
    exact if_neg (by simp [hstop])

theorem bufferedWords_commas {b : Int} {ts : List CStr} (k : Nat) (h : BufferedWords env (b - k) ts) :
    BufferedWords env b (List.replicate k [','] ++ ts) := by
  induction k generalizing b with
  | zero => simpa using h
  | succ k ih =>
    have hb : b - ((k + 1 : Nat) : Int) = b - 1 - (k : Int) := by omega
    rw [hb] at h
    exact fun _ => ⟨bufferedWord_comma hcomma, ih h⟩

theorem bufferedWords_fine {b : Int} {spent : Nat} {xs : List SpacedWord} (h : CommasFine b spent xs)
    (hw : ∀ x ∈ xs, EsilWord x.word) (hline : ∀ x ∈ xs, LineWord env x.word) :
    BufferedWords env (b - spent) (spacedWords xs) := by
  induction xs generalizing b spent with
  | nil => trivial
  | cons x xs ih =>
    rw [spacedWords_cons, commaWords_eq, List.append_assoc]
    apply bufferedWords_commas hcomma
    intro hroom
    obtain ⟨hkept, hspent, hrest⟩ := h (by omega)
    have hword := hw x List.mem_cons_self
    rw [if_pos hkept]
    refine ⟨⟨hword.ne, hword.fits.2, hline x List.mem_cons_self, fun hhead => ?_⟩, ?_⟩
    · have hne := hword.head_ne []
      rw [List.append_nil] at hne
      exact absurd hhead hne
    · have hb : b - (spent : Int) - (x.empties : Int) - 1 = b - 1 - ((spent + x.empties : Nat) : Int) := by omega
      rw [hb]
      exact ih hrest (fun y hy => hw y (List.mem_cons_of_mem _ hy)) fun y hy => hline y (List.mem_cons_of_mem _ hy)

/-- Where no word is swallowed and the budget holds out, the empty words change nothing. -/
theorem runLine_fine {b : Int} {spent : Nat} {xs : List SpacedWord} (h : CommasFine b spent xs)
    (hline : ∀ x ∈ xs, LineWord env x.word) {e : Esil R} (he : e.Calm) (hstop : e.parseStop = 0)
    (hcount : e.parseGotoCount = b) :
    (runLine env (spacedWords xs) (e.withCount (b - spent))).effect =
      (runLine env (xs.map SpacedWord.word) e).effect := by
  induction xs generalizing b spent e with
  | nil => rfl
  | cons x xs ih =>
    by_cases hlow : b < 2
    · rw [runLine_spent (e := e) (by omega), runLine_spent (by rw [Esil.withCount_count]; omega), Esil.withCount_effect]
    obtain ⟨hkept, hspent, hrest⟩ := h (by omega)
    have hline' := hline x List.mem_cons_self
    have hsum : b - (spent : Int) - (x.empties : Int) = b - ((spent + x.empties : Nat) : Int) := by omega
    rw [spacedWords_cons, commaWords_eq, if_pos hkept, List.append_assoc,
      runLine_commas hcomma (e := e.withCount (b - spent)) hstop (by rw [Esil.withCount_count]; omega),
      Esil.withCount_count, Esil.withCount_withCount, hsum, List.singleton_append, List.map_cons, runLine, runLine]
    have hsame : budgetWord env (e.withCount (b - ((spent + x.empties : Nat) : Int))) x.word =
        ((budgetWord env e x.word).1,
          (budgetWord env e x.word).2.withCount (b - 1 - ((spent + x.empties : Nat) : Int))) := by
      rw [budgetWord_of_room (by rw [Esil.withCount_count]; omega), budgetWord_of_room (by omega), Esil.withCount_withCount,
        Esil.withCount_count, hline'.run_withCount, hline'.run_withCount, Esil.withCount_withCount]
      congr 2
      omega
    rw [hsame]
    dsimp only
    rw [Esil.withCount_stop]
    by_cases hend : (budgetWord env e x.word).1 = 0 ∨ (budgetWord env e x.word).2.parseStop ≠ 0
    · rw [if_pos hend, if_pos hend, Esil.withCount_effect]
    · rw [if_neg hend, if_neg hend]
      have hcount' := hline'.budgetWord_count (e := e) (by omega)
      exact ih hrest (fun y hy => hline y (List.mem_cons_of_mem _ hy)) (hline'.budgetWord_calm he)
        (not_not.mp (not_or.mp hend).2) (by omega)

end Budget

section Parse

variable {R : Type}

/-- `r_anal_esil_parse` on a state and a string. -/
def parseRun (env : EsilEnv R) (fuel : Nat) (s : Esil R × CStr) : Option (Int × Esil R) := rAnalEsilParse env fuel s.1 s.2

/-- The words without extra commas. -/
def singleCommas : List CStr → List SpacedWord
  | [] => []
  | w :: ws => ⟨0, w⟩ :: ws.map (fun v => ⟨1, v⟩)

theorem spacedText_single (ws : List CStr) : spacedText (singleCommas ws) 0 = joinWords ws := by
  cases ws with
  | nil => rfl
  | cons w ws =>
    rw [singleCommas, spacedText_cons, List.replicate_zero, List.nil_append]
    induction ws generalizing w with
    | nil => simp [joinWords]
    | cons v ws ih =>
      rw [joinWords_cons_ne w _ (List.cons_ne_nil v ws), ← ih v, List.map_cons, spacedText_cons]
      rfl

theorem spacedWords_single (ws : List CStr) : spacedWords (singleCommas ws) = ws := by
  cases ws with
  | nil => rfl
  | cons w ws =>
    have hrest : spacedWords (ws.map (fun v => ⟨1, v⟩)) = ws := by
      induction ws with
      | nil => rfl
      | cons v ws ih =>
        rw [List.map_cons, spacedWords_cons, ih]
        rfl
    rw [singleCommas, spacedWords_cons, hrest]
    rfl

/-- The state that the first word of a call is run in. -/
theorem parseReset_calm {e : Esil R} (hreil : e.reil = none) : (parseReset { e with trap := 0 }).Calm := ⟨⟨hreil, rfl⟩, rfl⟩

variable {env : EsilEnv R} (hcomma : iscommand env [','] = none)

include hcomma

theorem parse_spaced {e : Esil R} (hreil : e.reil = none) (xs : List SpacedWord) (trail : Nat)
    (hpos : ∀ x ∈ xs.tail, 0 < x.commas) (hw : ∀ x ∈ xs, EsilWord x.word)
    (ht : BufferedWords env e.gotoLimit (spacedWords xs)) :
    ∃ a, EndsIn (parseRun env) (e, spacedText xs trail) a ∧
      a.2.effect = (runLine env (spacedWords xs) (parseReset { e with trap := 0 })).effect := by
  by_cases hnil : spacedText xs trail = []
  · cases xs with
    | nil =>
      refine ⟨(0, e), ⟨0, fun n => ?_⟩, rfl⟩
      exact if_pos hnil
    | cons x xs =>
      obtain ⟨g, v⟩ := x
      have hne := (hw _ List.mem_cons_self).ne
      rw [spacedText_cons] at hnil
      exact absurd (List.append_eq_nil_iff.mp (List.append_eq_nil_iff.mp hnil).2).1 hne
  · obtain ⟨a, ⟨j, hj⟩, heffect⟩ := scan_start (spacedText xs trail) hcomma (parseReset_calm hreil) xs trail hpos hw ht
    refine ⟨a, ⟨j, fun n => ?_⟩, heffect⟩
    rw [← hj n]
    exact if_neg hnil

end Parse

section Bare

theorem budgetWord_bare {e : Esil Unit} {t : CStr} (ht : EsilWord t) (hbranch : t ≠ ['}'] ∧ t ≠ ['}', '{'])
    (hskip : e.skip = false) (hroom : 2 ≤ e.parseGotoCount) (hstack : (e.stack.length : Int) < e.stacksize) :
    budgetWord bareEnv e t = (1, { e.withCount (e.parseGotoCount - 1) with stack := t :: e.stack }) := by
  have hhead : t.head? ≠ some ',' := by
    have hne := ht.head_ne []
    rwa [List.append_nil] at hne
  have hskip' : (e.withCount (e.parseGotoCount - 1)).skip = false := hskip
  have hfull : ¬(t = [] ∨ ((e.withCount (e.parseGotoCount - 1)).stack.length : Int) >
      (e.withCount (e.parseGotoCount - 1)).stacksize - 1) := by
    rintro (h | h)
    · exact ht.ne h
    · have h' : (e.stack.length : Int) > e.stacksize - 1 := h
      omega
  rw [budgetWord_of_room hroom, runPlainWord, if_neg hbranch.2, if_neg hbranch.1, hskip', if_neg Bool.false_ne_true, runCommand]
  dsimp only [iscommand, bareEnv]
  rw [if_neg (not_or.mpr ⟨ht.ne, hhead⟩), rAnalEsilPush, if_neg hfull]
  rfl

theorem lineWord_bare (w : CStr) : LineWord bareEnv w := by
  have hrun : ∀ e : Esil Unit, runCommand bareEnv e w =
      if w = [] ∨ w.head? = some ',' then (1, e)
      else if (e.stack.length : Int) > e.stacksize - 1 then (1, { e with trap := 1, trapCode := 1 })
      else (1, { e with stack := w :: e.stack }) := by
    intro e
    dsimp only [runCommand, iscommand, bareEnv]
    by_cases hw : w = [] ∨ w.head? = some ','
    · rw [if_pos hw, if_pos hw]
    have hne : w ≠ [] := (not_or.mp hw).1
    rw [if_neg hw, if_neg hw, rAnalEsilPush]
    by_cases hfull : (e.stack.length : Int) > e.stacksize - 1
    · rw [if_pos (Or.inr hfull), if_pos hfull]
      rfl
    · rw [if_neg (not_or.mpr ⟨hne, hfull⟩), if_neg hfull]
      rfl
  refine ⟨fun e c => ?_, fun e he => ?_⟩
  · have hstack : (e.withCount c).stack = e.stack := rfl
    have hsize : (e.withCount c).stacksize = e.stacksize := rfl
    rw [hrun, hrun, hstack, hsize]
    split_ifs <;> rfl
  · rw [hrun]
    split_ifs
    · exact he
    · exact ⟨he.quiet, he.goto⟩
    · exact ⟨he.quiet, he.goto⟩

theorem spacedWords_mem {xs : List SpacedWord} {t : CStr} (ht : t ∈ spacedWords xs) :
    t = [','] ∨ ∃ x ∈ xs, t = x.word ∨ t = ',' :: x.word := by
  obtain ⟨x, hx, ht⟩ := List.mem_flatMap.mp ht
  rw [commaWords_eq] at ht
  rcases List.mem_append.mp ht with ht | ht
  · exact Or.inl (List.eq_of_mem_replicate ht)
  · rw [List.mem_singleton] at ht
    refine Or.inr ⟨x, hx, ?_⟩
    split_ifs at ht
    · exact Or.inl ht
    · exact Or.inr ht

theorem bufferedWords_bare {xs : List SpacedWord} (hw : ∀ x ∈ xs, EsilWord x.word) (b : Int) :
    BufferedWords bareEnv b (spacedWords xs) := by
  have hfits : ∀ t ∈ spacedWords xs, t ≠ [] ∧ t.length ≤ 62 := by
    intro t ht
    rcases spacedWords_mem ht with rfl | ⟨x, hx, rfl | rfl⟩
    · exact ⟨by simp, by simp⟩
    · exact (hw x hx).fits
    · have hshort := (hw x hx).short
      exact ⟨List.cons_ne_nil _ _, by rw [List.length_cons]; omega⟩
  generalize spacedWords xs = ts at hfits
  induction ts generalizing b with
  | nil => trivial
  | cons t ts ih =>
    intro _
    obtain ⟨hne, hshort⟩ := hfits t List.mem_cons_self
    exact ⟨⟨hne, hshort, lineWord_bare t, fun _ => rfl⟩, ih _ fun s hs => hfits s (List.mem_cons_of_mem _ hs)⟩

/-- Without commands the words that the budget lets run are pushed, those with a comma in front are not. -/
theorem runLine_bare {e : Esil Unit} {ts : List CStr}
    (ht : ∀ t ∈ ts, (∃ v, t = ',' :: v) ∨ (EsilWord t ∧ t ≠ ['}'] ∧ t ≠ ['}', '{'])) (hskip : e.skip = false)
    (hstop : e.parseStop = 0) (hstack : ((e.stack.length + ts.length : Nat) : Int) ≤ e.stacksize) :
    (runLine bareEnv ts e).stack.length =
      e.stack.length + (ts.take (e.parseGotoCount - 1).toNat).countP (fun t => t.head? ≠ some ',') := by
  induction ts generalizing e with
  | nil => simp
  | cons t ts ih =>
    by_cases hlow : e.parseGotoCount < 2
    · have hzero : (e.parseGotoCount - 1).toNat = 0 := by omega
      have hstack' : (runLine bareEnv (t :: ts) e).stack = e.stack := congrArg EsilEffect.stack (runLine_spent hlow)
      rw [hstack', hzero, List.take_zero, List.countP_nil, Nat.add_zero]
    have hnext : (e.parseGotoCount - 1).toNat = (e.parseGotoCount - 1 - 1).toNat + 1 := by omega
    have ht' : ∀ s ∈ ts, (∃ v, s = ',' :: v) ∨ (EsilWord s ∧ s ≠ ['}'] ∧ s ≠ ['}', '{']) :=
      fun s hs => ht s (List.mem_cons_of_mem _ hs)
    rw [List.length_cons] at hstack
    rw [hnext, List.take_succ_cons, runLine]
    rcases ht t List.mem_cons_self with ⟨v, rfl⟩ | ⟨hword, hbranch⟩
    · have hrun : budgetWord bareEnv e (',' :: v) = (1, e.withCount (e.parseGotoCount - 1)) := budgetWord_comma rfl (by omega)
      have hrest := ih (e := e.withCount (e.parseGotoCount - 1)) ht' hskip hstop (by
        show ((e.stack.length + ts.length : Nat) : Int) ≤ e.stacksize
        omega)
      rw [hrun, if_neg (by simp [hstop]), hrest, List.countP_cons_of_neg (by simp), Esil.withCount_count]
      rfl
    · have hrun := budgetWord_bare hword hbranch hskip (by omega) (by omega)
      have hrest := ih (e := { e.withCount (e.parseGotoCount - 1) with stack := t :: e.stack }) ht' hskip hstop (by
        show (((t :: e.stack).length + ts.length : Nat) : Int) ≤ e.stacksize
        rw [List.length_cons]
        omega)
      have hhead : t.head? ≠ some ',' := by
        have hne := hword.head_ne []
        rwa [List.append_nil] at hne
      rw [hrun, if_neg (by simp [hstop]), hrest, List.countP_cons_of_pos (by simpa using hhead)]
      show (t :: e.stack).length + _ = _
      rw [List.length_cons, Esil.withCount_count]
      omega

/-- With at most `m - spent` words run, as many words as without extra commas are kept only where the commas are fine. -/
theorem kept_le {xs : List SpacedWord} (hw : ∀ x ∈ xs, EsilWord x.word) (m spent : Nat) :
    ((spacedWords xs).take (m - spent)).countP (fun t => t.head? ≠ some ',') ≤ min m xs.length ∧
      (((spacedWords xs).take (m - spent)).countP (fun t => t.head? ≠ some ',') = min m xs.length →
        CommasFine (m + 1) spent xs) := by
  induction xs generalizing m spent with
  | nil => exact ⟨by simp [spacedWords], fun _ => trivial⟩
  | cons x xs ih =>
    rcases m with _ | m
    · exact ⟨by simp, fun _ h => absurd h (by omega)⟩
    obtain ⟨hle, hfine⟩ := ih (fun y hy => hw y (List.mem_cons_of_mem _ hy)) m (spent + x.empties)
    have hempty : ∀ k, ((List.replicate x.empties [',']).take k).countP (fun t : CStr => t.head? ≠ some ',') = 0 := by
      intro k
      rw [List.countP_eq_zero]
      intro t ht
      rw [List.eq_of_mem_replicate (List.mem_of_mem_take ht)]
      simp
    have hmin : min (m + 1) (x :: xs).length = min m xs.length + 1 := Nat.succ_min_succ m xs.length
    rw [spacedWords_cons, commaWords_eq, List.append_assoc, List.take_append, List.countP_append, hempty, Nat.zero_add,
      List.length_replicate, hmin]
    -- out of budget among the empty words
    by_cases hspent : m + 1 - spent ≤ x.empties
    · rw [Nat.sub_eq_zero_of_le hspent, List.take_zero, List.countP_nil]
      exact ⟨Nat.zero_le _, fun h => absurd h (Nat.succ_ne_zero _).symm⟩
    have hone : m + 1 - spent - x.empties = m - (spent + x.empties) + 1 := by omega
    rw [hone, List.singleton_append, List.take_succ_cons]
    by_cases hkept : x.Kept
    · have hhead : x.word.head? ≠ some ',' := by
        have hne := (hw x List.mem_cons_self).head_ne []
        rwa [List.append_nil] at hne
      rw [if_pos hkept, List.countP_cons_of_pos (by simpa using hhead)]
      refine ⟨Nat.succ_le_succ hle, fun h _ => ⟨hkept, by omega, ?_⟩⟩
      have hrest := hfine (Nat.succ_injective h)
      rwa [Nat.cast_succ, Int.add_sub_cancel]
    · rw [if_neg hkept, List.countP_cons_of_neg (by simp)]
      exact ⟨hle.trans (Nat.le_succ _), fun h => absurd h (by omega)⟩

end Bare

theorem commasFine_of_lt {b : Int} {spent : Nat} {xs : List SpacedWord} (h : b < 2) : CommasFine b spent xs := by
  cases xs with
  | nil => trivial
  | cons x xs => exact fun hb => absurd hb (by omega)

theorem commasFine_cons_single {b : Int} {x : SpacedWord} {xs : List SpacedWord} (hone : x.commas ≤ 1)
    (h : CommasFine (b - 1) 0 xs) : CommasFine b 0 (x :: xs) := by
  have hzero : x.empties = 0 := Nat.div_eq_of_lt (by omega)
  intro hb
  rw [hzero]
  exact ⟨by omega, by simpa using hb, h⟩

theorem commasFine_single (b : Int) (ws : List CStr) : CommasFine b 0 (singleCommas ws) := by
  have hrest : ∀ (b : Int) (ws : List CStr), CommasFine b 0 (ws.map (fun v => ⟨1, v⟩)) := by
    intro b ws
    induction ws generalizing b with
    | nil => trivial
    | cons w ws ih => exact commasFine_cons_single (Nat.le_refl 1) (ih _)
  cases ws with
  | nil => trivial
  | cons w ws => exact commasFine_cons_single (Nat.zero_le 1) (hrest _ ws)

/-- The words joined by single commas. -/
theorem parse_words {R : Type} {env : EsilEnv R} (hcomma : iscommand env [','] = none) {e : Esil R} (hreil : e.reil = none)
    {ws : List CStr} (hw : ∀ w ∈ ws, EsilWord w) (hline : ∀ w ∈ ws, LineWord env w) :
    ∃ a, EndsIn (parseRun env) (e, joinWords ws) a ∧
      a.2.effect = (runLine env ws (parseReset { e with trap := 0 })).effect := by
  have hmem : ∀ x ∈ singleCommas ws, x.word ∈ ws := by
    cases ws with
    | nil => simp [singleCommas]
    | cons w ws =>
      intro x hx
      rcases List.mem_cons.mp hx with rfl | hx
      · exact List.mem_cons_self
      · obtain ⟨v, hv, rfl⟩ := List.mem_map.mp hx
        exact List.mem_cons_of_mem w hv
  have hpos : ∀ x ∈ (singleCommas ws).tail, 0 < x.commas := by
    cases ws with
    | nil => simp [singleCommas]
    | cons w ws => simp [singleCommas]
  have hbuffered := bufferedWords_fine hcomma (commasFine_single e.gotoLimit ws) (fun x hx => hw _ (hmem x hx))
    fun x hx => hline _ (hmem x hx)
  rw [Nat.cast_zero, Int.sub_zero] at hbuffered
  have hparse := parse_spaced hcomma hreil (singleCommas ws) 0 hpos (fun x hx => hw _ (hmem x hx)) hbuffered
  rwa [spacedText_single, spacedWords_single] at hparse

/-- The string with the commas has the effect of the words joined by single commas, whatever the commands of the
words do, as long as they neither jump nor touch the budget. -/
def IgnoresCommas (limit : Int) (xs : List SpacedWord) (trail : Nat) : Prop :=
  ∀ (R : Type) (env : EsilEnv R) (e : Esil R), iscommand env [','] = none → (∀ x ∈ xs, LineWord env x.word) →
    e.reil = none → e.gotoLimit = limit →
    ∃ a b, EndsIn (parseRun env) (e, joinWords (xs.map SpacedWord.word)) a ∧
      EndsIn (parseRun env) (e, spacedText xs trail) b ∧ a.2.effect = b.2.effect

/-- An emulator without commands pushes every word that it runs; where the commas are ignored, the words of both
strings are as many. -/
theorem pushes_of_ignores {limit : Int} {xs : List SpacedWord} {trail : Nat} (hw : ∀ x ∈ xs, EsilWord x.word)
    (hpos : ∀ x ∈ xs.tail, 0 < x.commas) (hbranch : ∀ x ∈ xs, x.word ≠ ['}'] ∧ x.word ≠ ['}', '{'])
    (h : IgnoresCommas limit xs trail) :
    ((spacedWords xs).take (limit - 1).toNat).countP (fun t => t.head? ≠ some ',') = min (limit - 1).toNat xs.length := by
  obtain ⟨e, he⟩ : ∃ e : Esil Unit, e = { bareEsil limit with stacksize := (xs.length + (spacedWords xs).length : Nat) } := ⟨_, rfl⟩
  have hreil : e.reil = none := by rw [he]; rfl
  have hlimit : e.gotoLimit = limit := by rw [he]; rfl
  have hline : ∀ x ∈ xs, LineWord bareEnv x.word := fun x _ => lineWord_bare x.word
  have hmap : ∀ w ∈ xs.map SpacedWord.word, EsilWord w ∧ w ≠ ['}'] ∧ w ≠ ['}', '{'] := by
    intro w hmem
    obtain ⟨x, hx, rfl⟩ := List.mem_map.mp hmem
    exact ⟨hw x hx, hbranch x hx⟩
  obtain ⟨a, b, ha, hb, hab⟩ := h Unit bareEnv e rfl hline hreil hlimit
  obtain ⟨a', ha', hjoined⟩ := parse_words rfl hreil (fun w hmem => (hmap w hmem).1) fun w _ => lineWord_bare w
  obtain ⟨b', hb', hspaced⟩ := parse_spaced rfl hreil xs trail hpos hw (bufferedWords_bare hw _)
  rw [ha.det ha', hb.det hb', hjoined, hspaced] at hab
  have hstacks := congrArg (fun s => s.stack.length) hab
  dsimp only [Esil.effect] at hstacks
  have hstart : (parseReset { e with trap := 0 }).stack.length = 0 ∧ (parseReset { e with trap := 0 }).parseGotoCount = limit ∧
      (parseReset { e with trap := 0 }).stacksize = (xs.length + (spacedWords xs).length : Nat) := by
    rw [he]
    exact ⟨rfl, rfl, rfl⟩
  rw [runLine_bare (fun t ht => Or.inr (hmap t ht)) rfl rfl (by rw [hstart.1, hstart.2.2, List.length_map]; omega),
    runLine_bare (fun t ht => ?_) rfl rfl (by rw [hstart.1, hstart.2.2]; omega), hstart.1, hstart.2.1, Nat.zero_add,
    Nat.zero_add] at hstacks
  · have hall : ((xs.map SpacedWord.word).take (limit - 1).toNat).countP (fun t => t.head? ≠ some ',') =
        min (limit - 1).toNat xs.length := by
      rw [List.countP_eq_length.mpr, List.length_take, List.length_map]
      intro t ht
      have hhead := (hmap t (List.mem_of_mem_take ht)).1.head_ne []
      rw [List.append_nil] at hhead
      simpa using hhead
    exact hstacks.symm.trans hall
  · rcases spacedWords_mem ht with rfl | ⟨x, hx, rfl | rfl⟩
    · exact Or.inl ⟨[], rfl⟩
    · exact Or.inr ⟨hw x hx, hbranch x hx⟩
    · exact Or.inl ⟨x.word, rfl⟩

end Radare
