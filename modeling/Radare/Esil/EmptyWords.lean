import Radare.Esil.WordMachine
import Radare.Framework.Loop

namespace Radare

open Framework (Leads EndsIn)

section Scan

variable {R : Type} (env : EsilEnv R)

/-- The scan by the emulator, the rest of the string and the characters of the word so far. -/
def scanFrom (ostr : CStr) (n : Nat) (s : Esil R × CStr × CStr) : Option (Int × Esil R) :=
  parseFrom env n ostr s.1 s.2.1 s.2.2

end Scan

section Words

variable {R : Type}

def Esil.withCount (e : Esil R) (c : Int) : Esil R := { e with parseGotoCount := c }

@[simp]
theorem Esil.withCount_count (e : Esil R) (c : Int) : (e.withCount c).parseGotoCount = c := rfl

@[simp]
theorem Esil.withCount_withCount (e : Esil R) (c d : Int) : (e.withCount c).withCount d = e.withCount d := rfl

@[simp]
theorem Esil.withCount_self (e : Esil R) : e.withCount e.parseGotoCount = e := rfl

@[simp]
theorem Esil.withCount_stop (e : Esil R) (c : Int) : (e.withCount c).parseStop = e.parseStop := rfl

/-- What a program does: registers, memory, the stack, and the values that the flags are computed from. -/
structure EsilEffect (R : Type) where
  reg : R
  mem : Ut64 → Ut8
  stack : List CStr
  old : Ut64
  cur : Ut64
  lastsz : Ut8

def Esil.effect (e : Esil R) : EsilEffect R := ⟨e.reg, e.mem, e.stack, e.old, e.cur, e.lastsz⟩

@[simp]
theorem Esil.withCount_effect (e : Esil R) (c : Int) : (e.withCount c).effect = e.effect := rfl

/-- No recorder, no repetition and no jump is under way. -/
structure Esil.Calm (e : Esil R) : Prop where
  quiet : e.Quiet
  goto : e.parseGoto = -1

theorem Esil.Calm.withCount {e : Esil R} (h : e.Calm) (c : Int) : (e.withCount c).Calm := ⟨h.quiet, h.goto⟩

variable (env : EsilEnv R)

/-- A word that does not jump and takes no notice of the budget. -/
structure LineWord (w : CStr) : Prop where
  budget : ∀ (e : Esil R) (c : Int),
    runCommand env (e.withCount c) w = ((runCommand env e w).1, (runCommand env e w).2.withCount c)
  calm : ∀ e : Esil R, e.Calm → (runCommand env e w).2.Calm

variable {env} {w : CStr} {e : Esil R}

theorem LineWord.run_withCount (h : LineWord env w) (e : Esil R) (c : Int) :
    runPlainWord env (e.withCount c) w = ((runPlainWord env e w).1, (runPlainWord env e w).2.withCount c) := by
  have hskip : (e.withCount c).skip = e.skip := rfl
  unfold runPlainWord
  rw [hskip]
  split_ifs
  · rfl
  · rfl
  · rfl
  · exact h.budget e c

theorem LineWord.run_calm (h : LineWord env w) (he : e.Calm) : (runPlainWord env e w).2.Calm := by
  unfold runPlainWord
  split_ifs
  · exact ⟨he.quiet, he.goto⟩
  · exact ⟨he.quiet, he.goto⟩
  · exact he
  · exact h.calm e he

theorem budgetWord_of_room (h : 2 ≤ e.parseGotoCount) :
    budgetWord env e w = runPlainWord env (e.withCount (e.parseGotoCount - 1)) w := by
  rw [budgetWord, if_neg (by omega)]
  rfl

theorem LineWord.budgetWord_calm (h : LineWord env w) (he : e.Calm) : (budgetWord env e w).2.Calm := by
  rw [budgetWord]
  by_cases hlow : e.parseGotoCount - 1 < 1
  · rw [if_pos hlow]
    exact ⟨he.quiet, he.goto⟩
  · rw [if_neg hlow]
    exact h.run_calm (he.withCount _)

/-- A word with a comma in front is run as an empty word, unless it is a command. -/
theorem runPlainWord_comma {v : CStr} (h : iscommand env (',' :: v) = none) (e : Esil R) :
    runPlainWord env e (',' :: v) = (1, e) := by
  simp [runPlainWord, runCommand, h]

theorem budgetWord_comma {v : CStr} (h : iscommand env (',' :: v) = none) (hroom : 2 ≤ e.parseGotoCount) :
    budgetWord env e (',' :: v) = (1, e.withCount (e.parseGotoCount - 1)) := by
  rw [budgetWord_of_room hroom, runPlainWord_comma h]

theorem lineWord_comma {v : CStr} (h : iscommand env (',' :: v) = none) : LineWord env (',' :: v) := by
  have hrun : ∀ e : Esil R, runCommand env e (',' :: v) = (1, e) := fun e => by simp [runCommand, h]
  refine ⟨fun e c => ?_, fun e he => ?_⟩
  · rw [hrun, hrun]
  · rw [hrun]
    exact he

/-- With and without the budget for it, an empty word has no effect. -/
theorem budgetWord_comma_effect {v : CStr} (h : iscommand env (',' :: v) = none) (e : Esil R) :
    (budgetWord env e (',' :: v)).2.effect = e.effect := by
  rw [budgetWord]
  by_cases hlow : e.parseGotoCount - 1 < 1
  · rw [if_pos hlow]
    rfl
  · rw [if_neg hlow, runPlainWord_comma h]
    rfl

end Words

section Separators

variable {R : Type} {env : EsilEnv R} {ostr str w : CStr} {e : Esil R}

/-- A word that a comma follows. -/
theorem parseFrom_comma (he : e.Quiet) (hword : w ≠ [] ∧ w.length ≤ 62) (hcalm : (budgetWord env e w).2.Calm) (n : Nat) :
    parseFrom env (n + 1) ostr e (',' :: str) w =
      if (budgetWord env e w).1 = 0 then some (0, (budgetWord env e w).2)
      else if str.head? = some ',' then parseFrom env n ostr (budgetWord env e w).2 (',' :: str) []
      else if (budgetWord env e w).2.parseStop ≠ 0 then some (0, (budgetWord env e w).2)
      else parseFrom env n ostr (budgetWord env e w).2 str.tail str.head?.toList := by
  obtain ⟨⟨-, hrepeat⟩, hgoto⟩ := hcalm
  have hsecond : (',' :: str)[1]? = str.head? := by simp [List.head?_eq_getElem?]
  rw [parseFrom, if_neg (by omega), if_pos (by simp), if_neg hword.1, runword_quiet env _ e w he]
  dsimp only
  by_cases hret : (budgetWord env e w).1 = 0
  · rw [if_pos hret, if_pos hret]
  rw [if_neg hret, if_neg hret, evalWord, hsecond, if_neg (show ¬(budgetWord env e w).2.repeatFlag = true by simp [hrepeat]),
    if_neg (show ¬(budgetWord env e w).2.parseGoto ≠ -1 by simp [hgoto])]
  by_cases hcomma : str.head? = some ','
  · rw [if_pos hcomma, if_pos hcomma]
  rw [if_neg hcomma, if_neg hcomma]
  by_cases hstop : (budgetWord env e w).2.parseStop ≠ 0
  · rw [if_pos hstop, if_pos hstop]
  · rw [if_neg hstop, if_neg hstop]
    rfl

theorem scan_fail (he : e.Quiet) (hword : w ≠ [] ∧ w.length ≤ 62) (hcalm : (budgetWord env e w).2.Calm)
    (hret : (budgetWord env e w).1 = 0) :
    EndsIn (scanFrom env ostr) (e, ',' :: str, w) (0, (budgetWord env e w).2) := by
  apply EndsIn.of_step
  intro n
  rw [scanFrom, parseFrom_comma he hword hcalm, if_pos hret]

theorem scan_stop (he : e.Quiet) (hword : w ≠ [] ∧ w.length ≤ 62) (hcalm : (budgetWord env e w).2.Calm)
    (hstr : str.head? ≠ some ',') (hstop : (budgetWord env e w).2.parseStop ≠ 0) :
    EndsIn (scanFrom env ostr) (e, ',' :: str, w) (0, (budgetWord env e w).2) := by
  apply EndsIn.of_step
  intro n
  rw [scanFrom, parseFrom_comma he hword hcalm, if_neg hstr, if_pos hstop, ite_self]

theorem scan_next (he : e.Quiet) (hword : w ≠ [] ∧ w.length ≤ 62) (hcalm : (budgetWord env e w).2.Calm)
    (hret : (budgetWord env e w).1 ≠ 0) (hstr : str.head? ≠ some ',') (hstop : (budgetWord env e w).2.parseStop = 0) :
    Leads (scanFrom env ostr) (e, ',' :: str, w) ((budgetWord env e w).2, str.tail, str.head?.toList) := by
  apply Leads.of_step
  intro n
  rw [scanFrom, parseFrom_comma he hword hcalm, if_neg hret, if_neg hstr, if_neg (not_not.mpr hstop)]
  rfl

/-- A comma without a word in front of it: the next character begins the word, whatever it is. -/
theorem scan_skip (e : Esil R) : Leads (scanFrom env ostr) (e, ',' :: str, []) (e, str.tail, str.head?.toList) := by
  apply Leads.of_step
  intro n
  rw [scanFrom, parseFrom, if_neg (by simp), if_pos (by simp), if_pos rfl]
  rfl

/-- Two commas behind a word: the second is the first character of the next word. -/
theorem scan_again (he : e.Quiet) (hword : w ≠ [] ∧ w.length ≤ 62) (hcalm : (budgetWord env e w).2.Calm)
    (hret : (budgetWord env e w).1 ≠ 0) :
    Leads (scanFrom env ostr) (e, ',' :: ',' :: str, w) ((budgetWord env e w).2, str, [',']) := by
  have hlook : Leads (scanFrom env ostr) (e, ',' :: ',' :: str, w) ((budgetWord env e w).2, ',' :: ',' :: str, []) := by
    apply Leads.of_step
    intro n
    rw [scanFrom, parseFrom_comma he hword hcalm, if_neg hret, List.head?_cons, if_pos rfl]
    rfl
  exact hlook.trans (scan_skip _)

/-- The characters of a word. -/
theorem scan_chars {v pre tail : CStr} (hv : ∀ c ∈ v, c ≠ ',' ∧ c ≠ ';') (hlen : pre.length + v.length ≤ 62) :
    Leads (scanFrom env ostr) (e, v ++ tail, pre) (e, tail, pre ++ v) :=
  ⟨v.length, fun n => parseFrom_scan env n ostr e v tail pre hv hlen⟩

end Separators

/-- A word of a program. -/
structure EsilWord (w : CStr) : Prop where
  ne : w ≠ []
  short : w.length ≤ 60
  chars : ∀ c ∈ w, c ≠ ',' ∧ c ≠ ';'

section Gaps

variable {R : Type} {env : EsilEnv R} {ostr str w v tail : CStr} {e : Esil R}

theorem EsilWord.fits (h : EsilWord w) : w ≠ [] ∧ w.length ≤ 62 := ⟨h.ne, h.short.trans (by decide)⟩

theorem EsilWord.head_ne (h : EsilWord v) (tail : CStr) : (v ++ tail).head? ≠ some ',' := by
  cases v with
  | nil => exact absurd rfl h.ne
  | cons c cs => simpa using (h.chars c (by simp)).1

/-- A word whose first character is in the buffer already. -/
theorem EsilWord.scan_tail (h : EsilWord v) :
    Leads (scanFrom env ostr) (e, (v ++ tail).tail, (v ++ tail).head?.toList) (e, tail, v) := by
  cases v with
  | nil => exact absurd rfl h.ne
  | cons c cs =>
    have hlen := h.short
    rw [List.length_cons] at hlen
    have hpre : [c].length + cs.length ≤ 62 := by
      rw [List.length_singleton]
      omega
    exact scan_chars (fun d hd => h.chars d (List.mem_cons_of_mem c hd)) hpre

end Gaps

section Line

variable {R : Type} (env : EsilEnv R)

/-- The words one after another, until one of them fails or stops. -/
def runLine : List CStr → Esil R → Esil R
  | [], e => e
  | w :: ws, e =>
    let r := budgetWord env e w
    if r.1 = 0 ∨ r.2.parseStop ≠ 0 then r.2 else runLine ws r.2

/-- The buffer holds a word that does not jump; with a comma in front it is no command. -/
structure BufferedWord (t : CStr) : Prop where
  ne : t ≠ []
  short : t.length ≤ 62
  line : LineWord env t
  comma : t.head? = some ',' → iscommand env t = none

/-- The words that the budget lets run are of this kind. -/
def BufferedWords : Int → List CStr → Prop
  | _, [] => True
  | b, t :: ts => 2 ≤ b → BufferedWord env t ∧ BufferedWords (b - 1) ts

variable {env} {e : Esil R} {t : CStr} {ts : List CStr}

@[simp]
theorem runLine_nil (e : Esil R) : runLine env [] e = e := rfl

theorem runLine_singleton (e : Esil R) (t : CStr) : runLine env [t] e = (budgetWord env e t).2 := by
  rw [runLine, runLine_nil]
  exact ite_self _

theorem LineWord.budgetWord_count (h : LineWord env t) (hroom : 2 ≤ e.parseGotoCount) :
    (budgetWord env e t).2.parseGotoCount = e.parseGotoCount - 1 := by
  rw [budgetWord_of_room hroom, h.run_withCount, Esil.withCount_count]

/-- Out of budget the next word ends the run. -/
theorem runLine_spent (hlow : e.parseGotoCount < 2) : (runLine env ts e).effect = e.effect := by
  cases ts with
  | nil => rfl
  | cons t ts =>
    have hrun : budgetWord env e t = (0, _) := if_pos (by omega)
    rw [runLine, hrun]
    rfl

/-- Where the run has been stopped, an empty word in front of the rest changes nothing. -/
theorem runLine_stopped (h : BufferedWords env e.parseGotoCount ((',' :: t) :: ts)) (hstop : e.parseStop ≠ 0) :
    (runLine env ((',' :: t) :: ts) e).effect = e.effect := by
  by_cases hlow : e.parseGotoCount < 2
  · exact runLine_spent hlow
  · have hrun := budgetWord_comma ((h (by omega)).1.comma rfl) (e := e) (by omega)
    simp only [runLine, hrun, Esil.withCount_stop, hstop, ne_eq, not_false_eq_true, or_true, if_true,
      Esil.withCount_effect]

theorem runLine_passed {r : Int} (hret : r ≠ 0) (h : BufferedWords env e.parseGotoCount ((',' :: t) :: ts)) :
    (if r = 0 ∨ e.parseStop ≠ 0 then e else runLine env ((',' :: t) :: ts) e).effect =
      (runLine env ((',' :: t) :: ts) e).effect := by
  split_ifs with hend
  · exact (runLine_stopped h (hend.resolve_left hret)).symm
  · rfl

end Line

end Radare
