import Radare.Esil.Parse

namespace Radare

/-- Words joined by single commas. -/
def joinWords : List CStr → CStr
  | [] => []
  | [w] => w
  | w :: v :: ws => w ++ ',' :: joinWords (v :: ws)

/-- One or more non-empty words of at most 62 characters without separators. -/
structure WordList (ws : List CStr) : Prop where
  ne : ws ≠ []
  word : ∀ w ∈ ws, w ≠ [] ∧ w.length ≤ 62 ∧ ∀ c ∈ w, c ≠ ',' ∧ c ≠ ';'

theorem joinWords_cons_ne (w : CStr) (ws : List CStr) (h : ws ≠ []) :
    joinWords (w :: ws) = w ++ ',' :: joinWords ws := by
  cases ws with
  | nil => exact absurd rfl h
  | cons v ws => rfl

namespace WordList

theorem tail {w : CStr} {ws : List CStr} (h : WordList (w :: ws)) (hn : ws ≠ []) : WordList ws :=
  ⟨hn, fun v hv => h.word v (List.mem_cons_of_mem w hv)⟩

theorem drop {ws : List CStr} (h : WordList ws) {n : Nat} (hn : n < ws.length) :
    WordList (ws.drop n) :=
  ⟨by simp only [ne_eq, List.drop_eq_nil_iff, not_le]; exact hn,
    fun w hw => h.word w (List.mem_of_mem_drop hw)⟩

/-- A joined list starts with a character of its first word. -/
theorem join_head {ws : List CStr} (h : WordList ws) :
    ∃ c rest, joinWords ws = c :: rest ∧ c ≠ ',' ∧ c ≠ ';' := by
  cases ws with
  | nil => exact absurd rfl h.ne
  | cons w ws =>
    obtain ⟨hw, _, hc⟩ := h.word w (by simp)
    obtain ⟨c, cs, rfl⟩ := List.exists_cons_of_ne_nil hw
    have hcc := hc c (by simp)
    cases ws with
    | nil => exact ⟨c, cs, rfl, hcc⟩
    | cons v ws => exact ⟨c, cs ++ ',' :: joinWords (v :: ws), rfl, hcc⟩

end WordList

/-- Inside a word the scan of `gotoWord` only advances. -/
theorem gotoWordFrom_word (n : Int) (w rest ostr : CStr) (count : Int) (hw : w ≠ [])
    (hc : ∀ c ∈ w, c ≠ ',') (hn : count ≠ n) :
    gotoWordFrom n (w ++ rest) ostr count =
      if rest.head? = some ',' then gotoWordFrom n rest rest.tail (count + 1)
      else gotoWordFrom n rest ostr count := by
  induction w with
  | nil => exact absurd rfl hw
  | cons c cs ih =>
    rw [List.cons_append, gotoWordFrom, if_neg hn]
    cases cs with
    | nil => rfl
    | cons d ds =>
      have hd : (d :: ds ++ rest).head? ≠ some ',' := by simpa using hc d (by simp)
      rw [if_neg hd]
      exact ih (by simp) (fun x hx => hc x (List.mem_cons_of_mem c hx))

/-- From the comma in front of a list the scan goes on at the list itself. -/
theorem gotoWordFrom_comma (n : Int) (ws : List CStr) (h : WordList ws) (count : Int) :
    gotoWordFrom n (',' :: joinWords ws) (joinWords ws) count =
      gotoWordFrom n (joinWords ws) (joinWords ws) count := by
  obtain ⟨d, after, hd, hdc, _⟩ := h.join_head
  have hh : (joinWords ws).head? ≠ some ',' := by simpa [hd] using hdc
  rw [gotoWordFrom]
  by_cases hn : count = n
  · rw [if_pos hn, hd, gotoWordFrom, if_pos hn]
  · rw [if_neg hn, if_neg hh]

theorem gotoWordFrom_join (n : Int) (ws : List CStr) (h : WordList ws) (count : Int) :
    gotoWordFrom n (joinWords ws) (joinWords ws) count =
      if count ≤ n ∧ n < count + ws.length then some (joinWords (ws.drop (n - count).toNat))
      else none := by
  induction ws generalizing count with
  | nil => exact absurd rfl h.ne
  | cons w ws ih =>
    obtain ⟨hw, _, hc⟩ := h.word w (by simp)
    have hcomma : ∀ c ∈ w, c ≠ ',' := fun c hm => (hc c hm).1
    by_cases hn : count = n
    · obtain ⟨c, rest, hj, _⟩ := h.join_head
      have hif : count ≤ n ∧ n < count + ((w :: ws).length : Int) := by
        simp only [List.length_cons]
        omega
      have hz : (n - count).toNat = 0 := by omega
      rw [if_pos hif, hz, List.drop_zero, hj, gotoWordFrom, if_pos hn]
    · by_cases hws : ws = []
      · subst hws
        have he := gotoWordFrom_word n w [] (joinWords [w]) count hw hcomma hn
        rw [List.append_nil] at he
        rw [if_neg (by simp only [List.length_cons, List.length_nil]; omega)]
        exact he
      · have ht := h.tail hws
        rw [joinWords_cons_ne w ws hws, gotoWordFrom_word n w _ _ count hw hcomma hn,
          if_pos (List.head?_cons ..)]
        change gotoWordFrom n (',' :: joinWords ws) (joinWords ws) (count + 1) = _
        rw [gotoWordFrom_comma n ws ht, ih ht (count + 1)]
        by_cases hle : count + 1 ≤ n
        · have hdrop : (n - count).toNat = (n - (count + 1)).toNat + 1 := by omega
          rw [hdrop, List.drop_succ_cons]
          congr 1
          simp only [List.length_cons, eq_iff_iff]
          omega
        · rw [if_neg (by omega), if_neg (by omega)]

/-- `gotoWord` finds exactly the words of the list. -/
theorem gotoWord_join (ws : List CStr) (h : WordList ws) (n : Int) :
    gotoWord (joinWords ws) n =
      if 0 ≤ n ∧ n < ws.length then some (joinWords (ws.drop n.toNat)) else none := by
  have he := gotoWordFrom_join n ws h 0
  simpa [gotoWord] using he

section
variable {R : Type} (env : EsilEnv R)

/-- No recorder is installed and no repetition is requested. -/
def Esil.Quiet (e : Esil R) : Prop := e.reil = none ∧ e.repeatFlag = false

/-- No operation and no command hook installs a recorder or requests a repetition. -/
structure EsilEnv.Quiet : Prop where
  op : ∀ h op e, env.ops h = some op → e.Quiet → (op e).2.Quiet
  hook : ∀ hook e w, env.hookCommand = some hook → e.Quiet → (hook e w).2.Quiet

/-- Every word costs one unit of the goto budget; the word that exhausts it traps. -/
def budgetWord (e : Esil R) (word : CStr) : Int × Esil R :=
  if e.parseGotoCount - 1 < 1 then
    (0, { e with parseGotoCount := e.parseGotoCount - 1, trap := 1, parseStop := 1 })
  else runPlainWord env { e with parseGotoCount := e.parseGotoCount - 1 } word

/-- The machine over a list of words. `run` executes one word; the program counter `pc` moves to
the next word, or to the word a jump names, until a word fails, stops or is missing. -/
def wordMachine (run : Esil R → CStr → Int × Esil R) (ws : List CStr) :
    Nat → Esil R → Nat → Option (Int × Esil R)
  | 0, _, _ => none
  | n + 1, e, pc =>
    match ws[pc]? with
    | none => some (1, e)
    | some w =>
      let (ret, e) := run e w
      if ret = 0 then some (0, e)
      else if e.parseGoto ≠ -1 then
        if 0 ≤ e.parseGoto ∧ e.parseGoto < ws.length then
          wordMachine run ws n e.clearGoto e.parseGoto.toNat
        else some (0, e)
      else if e.parseStop ≠ 0 then some (0, e)
      else wordMachine run ws n e (pc + 1)

/-- What every operation and the hook preserve, and a push does not touch, a word preserves. -/
theorem runCommand_preserves (P : Esil R → Prop)
    (hop : ∀ h op e, env.ops h = some op → P e → P (op e).2)
    (hhook : ∀ hook e w, env.hookCommand = some hook → P e → P (hook e w).2)
    (hpush : ∀ e s, P e → P { e with stack := s })
    (htrap : ∀ e, P e → P { e with trap := 1, trapCode := 1 })
    (e : Esil R) (word : CStr) (he : P e) : P (runCommand env e word).2 := by
  unfold runCommand
  cases hc : iscommand env word with
  | some op =>
    cases hh : env.hookCommand with
    | none => exact hop _ op e hc he
    | some hook =>
      have hq := hhook hook e word hh he
      dsimp only
      split_ifs
      · exact hq
      · exact hop _ op _ hc hq
  | none =>
    dsimp only
    by_cases hw : word = [] ∨ word.head? = some ','
    · rw [if_pos hw]
      exact he
    · rw [if_neg hw]
      unfold rAnalEsilPush
      by_cases hf : word = [] ∨ (e.stack.length : Int) > e.stacksize - 1
      · rw [if_pos hf]
        exact htrap e he
      · rw [if_neg hf]
        exact hpush e _ he

theorem runCommand_quiet (henv : env.Quiet) (e : Esil R) (word : CStr) (he : e.Quiet) :
    (runCommand env e word).2.Quiet :=
  runCommand_preserves env Esil.Quiet henv.op henv.hook (fun _ _ h => h) (fun _ h => h) e word he

theorem budgetWord_quiet (henv : env.Quiet) (e : Esil R) (word : CStr) (he : e.Quiet) :
    (budgetWord env e word).2.Quiet := by
  unfold budgetWord runPlainWord
  split_ifs
  · exact he
  · exact he
  · exact he
  · exact he
  · exact runCommand_quiet env henv _ word he

/-- Without a recorder `runword` is one step of the machine. -/
theorem runword_quiet (parse : Esil R → CStr → Option (Int × Esil R)) (e : Esil R) (word : CStr)
    (he : e.Quiet) : runword env parse e word = some (budgetWord env e word) := by
  unfold runword budgetWord
  simp only [he.1, Option.map_none]
  split_ifs <;> rfl

theorem parseFrom_scan (n : Nat) (ostr : CStr) (e : Esil R) (w rest word : CStr)
    (hw : ∀ c ∈ w, c ≠ ',' ∧ c ≠ ';') (hl : word.length + w.length ≤ 62) :
    parseFrom env (n + w.length) ostr e (w ++ rest) word =
      parseFrom env n ostr e rest (word ++ w) := by
  induction w generalizing word with
  | nil => simp
  | cons c cs ih =>
    have hc := hw c (by simp)
    simp only [List.length_cons] at hl
    rw [List.length_cons, ← Nat.add_assoc, List.cons_append, parseFrom,
      if_neg (by omega), if_neg (by simp [hc.1, hc.2]),
      ih (word ++ [c]) (fun d hd => hw d (by simp [hd])) (by simp; omega)]
    simp

theorem evalWord_quiet (e : Esil R) (ws : List CStr) (hws : WordList ws) (str : CStr)
    (he : e.Quiet) (hs : str[1]? ≠ some ',') :
    evalWord e (joinWords ws) str =
      if e.parseGoto ≠ -1 then
        if 0 ≤ e.parseGoto ∧ e.parseGoto < ws.length then
          (.again, e.clearGoto, joinWords (ws.drop e.parseGoto.toNat))
        else (.stop, e, str)
      else if e.parseStop ≠ 0 then (.stop, e, str)
      else (.next, e, str) := by
  have hr : ¬(e.repeatFlag = true) := by simp [he.2]
  unfold evalWord
  rw [if_neg hs, if_neg hr, gotoWord_join ws hws]
  split_ifs <;> rfl

/-- One word of the joined string, from its first character to the first character of the next
word, is one step of the machine. -/
theorem parseFrom_word (henv : env.Quiet) (n : Nat) (ws : List CStr) (hws : WordList ws)
    (e : Esil R) (he : e.Quiet) (pc : Nat) (w : CStr) (hpc : ws[pc]? = some w) :
    parseFrom env (n + 1 + w.length) (joinWords ws) e (joinWords (ws.drop pc)) [] =
      let e' := (budgetWord env e w).2
      if (budgetWord env e w).1 = 0 then some (0, e')
      else if e'.parseGoto ≠ -1 then
        if 0 ≤ e'.parseGoto ∧ e'.parseGoto < ws.length then
          parseFrom env n (joinWords ws) e'.clearGoto
            (joinWords (ws.drop e'.parseGoto.toNat)) []
        else some (0, e')
      else if e'.parseStop ≠ 0 then some (0, e')
      else if ws.drop (pc + 1) = [] then some (1, e')
      else parseFrom env n (joinWords ws) e' (joinWords (ws.drop (pc + 1))).tail
        (joinWords (ws.drop (pc + 1))).head?.toList := by
  obtain ⟨hlt, hget⟩ := List.getElem?_eq_some_iff.mp hpc
  have hdrop : ws.drop pc = w :: ws.drop (pc + 1) := by
    rw [List.drop_eq_getElem_cons hlt, hget]
  obtain ⟨hw, hlen, hchars⟩ := hws.word w (List.mem_of_getElem? hpc)
  have hq := budgetWord_quiet env henv e w he
  by_cases hlast : ws.drop (pc + 1) = []
  · have hjoin : joinWords (ws.drop pc) = w ++ [] := by rw [hdrop, hlast]; simp [joinWords]
    rw [hjoin, parseFrom_scan env (n + 1) _ e w [] [] hchars (by simpa using hlen),
      List.nil_append, parseFrom, if_neg hw, runword_quiet env _ e w he]
    simp only [hlast, if_true]
    rw [evalWord_quiet _ ws hws [] hq (by simp)]
    split_ifs <;> rfl
  · have hrest := hws.drop (n := pc + 1) (by
      by_contra h
      exact hlast (List.drop_eq_nil_of_le (by omega)))
    obtain ⟨d, after, hd, hdc, _⟩ := hrest.join_head
    have hjoin : joinWords (ws.drop pc) = w ++ ',' :: joinWords (ws.drop (pc + 1)) := by
      rw [hdrop, joinWords_cons_ne _ _ hlast]
    rw [hjoin, parseFrom_scan env (n + 1) _ e w _ [] hchars (by simpa using hlen),
      List.nil_append, parseFrom, if_neg (by omega), if_pos (by simp), if_neg hw,
      runword_quiet env _ e w he]
    simp only [hlast, if_false]
    rw [evalWord_quiet _ ws hws _ hq (by simpa [hd] using hdc)]
    split_ifs <;> simp_all

theorem parseFrom_first_char (n : Nat) (ostr : CStr) (e : Esil R) (ws : List CStr)
    (hws : WordList ws) :
    parseFrom env (n + 1) ostr e (joinWords ws) [] =
      parseFrom env n ostr e (joinWords ws).tail (joinWords ws).head?.toList := by
  obtain ⟨c, rest, hj, hc, hs⟩ := hws.join_head
  rw [hj, parseFrom, if_neg (by simp), if_neg (by simp [hc, hs])]
  rfl

/-- Fuel that does not reach the end of a word yields nothing. -/
theorem parseFrom_short (n : Nat) (ostr : CStr) (e : Esil R) (w rest : CStr)
    (hw : ∀ c ∈ w, c ≠ ',' ∧ c ≠ ';') (hl : w.length ≤ 62) (hn : n ≤ w.length) :
    parseFrom env n ostr e (w ++ rest) [] = none := by
  have hlen : (w.take n).length = n := List.length_take_of_le hn
  have h := parseFrom_scan env 0 ostr e (w.take n) (w.drop n ++ rest) []
    (fun c hc => hw c (List.mem_of_mem_take hc)) (by simp only [List.length_nil, hlen]; omega)
  rw [hlen, Nat.zero_add, ← List.append_assoc, List.take_append_drop] at h
  rw [h, parseFrom]

theorem joinWords_drop_word (ws : List CStr) (pc : Nat) (w : CStr) (hpc : ws[pc]? = some w) :
    ∃ rest, joinWords (ws.drop pc) = w ++ rest := by
  obtain ⟨hlt, hget⟩ := List.getElem?_eq_some_iff.mp hpc
  rw [List.drop_eq_getElem_cons hlt, hget]
  cases ws.drop (pc + 1) with
  | nil => exact ⟨[], by simp [joinWords]⟩
  | cons v vs => exact ⟨',' :: joinWords (v :: vs), rfl⟩

/-- Whatever the scanner returns, the machine returns. -/
theorem machine_of_parseFrom (henv : env.Quiet) (ws : List CStr) (hws : WordList ws) (n : Nat)
    (e : Esil R) (he : e.Quiet) (pc : Nat) (hpc : pc < ws.length) (r : Int × Esil R)
    (h : parseFrom env n (joinWords ws) e (joinWords (ws.drop pc)) [] = some r) :
    ∃ m, wordMachine (budgetWord env) ws m e pc = some r := by
  induction n using Nat.strongRecOn generalizing e pc with
  | ind n ih =>
    have hget : ws[pc]? = some ws[pc] := List.getElem?_eq_getElem hpc
    obtain ⟨hw, hlen, hchars⟩ := hws.word ws[pc] (List.getElem_mem hpc)
    have hfuel : ws[pc].length < n := by
      by_contra hc
      obtain ⟨rest, hrest⟩ := joinWords_drop_word ws pc ws[pc] hget
      rw [hrest, parseFrom_short env n _ e _ rest hchars hlen (by omega)] at h
      cases h
    obtain ⟨k, rfl⟩ : ∃ k, n = k + 1 + ws[pc].length := ⟨n - 1 - ws[pc].length, by omega⟩
    rw [parseFrom_word env henv k ws hws e he pc ws[pc] hget] at h
    have hq := budgetWord_quiet env henv e ws[pc] he
    have hpos : 0 < ws[pc].length := List.length_pos_of_ne_nil hw
    simp only at h
    split_ifs at h with hret hgoto hrange hstop hlast
    · exact ⟨1, by simpa [wordMachine, hget, hret] using h⟩
    · obtain ⟨m, hm⟩ := ih k (by omega) _ (show (Esil.clearGoto _).Quiet from hq) _ (by omega) h
      exact ⟨m + 1, by simpa [wordMachine, hget, hret, hgoto, hrange] using hm⟩
    · exact ⟨1, by simpa [wordMachine, hget, hret, hgoto, hrange] using h⟩
    · exact ⟨1, by simpa [wordMachine, hget, hret, hgoto, hstop] using h⟩
    · have hnone : ws[pc + 1]? = none := by simpa using hlast
      exact ⟨2, by simpa [wordMachine, hget, hnone, hret, hgoto, hstop] using h⟩
    · have hnext : pc + 1 < ws.length := by simpa using hlast
      rw [← parseFrom_first_char env k _ _ _ (hws.drop hnext)] at h
      obtain ⟨m, hm⟩ := ih (k + 1) (by omega) _ hq _ hnext h
      exact ⟨m + 1, by simpa [wordMachine, hget, hret, hgoto, hstop] using hm⟩

/-- Whatever the machine returns, the scanner returns. -/
theorem parseFrom_of_machine (henv : env.Quiet) (ws : List CStr) (hws : WordList ws) (m : Nat)
    (e : Esil R) (he : e.Quiet) (pc : Nat) (hpc : pc < ws.length) (r : Int × Esil R)
    (h : wordMachine (budgetWord env) ws m e pc = some r) :
    ∃ n, parseFrom env n (joinWords ws) e (joinWords (ws.drop pc)) [] = some r := by
  induction m generalizing e pc with
  | zero => cases h
  | succ m ih =>
    have hget : ws[pc]? = some ws[pc] := List.getElem?_eq_getElem hpc
    have hq := budgetWord_quiet env henv e ws[pc] he
    have hword := fun k => parseFrom_word env henv k ws hws e he pc ws[pc] hget
    simp only [wordMachine, hget] at h
    split_ifs at h with hret hgoto hrange hstop
    · exact ⟨_, (hword 0).trans (by simpa [hret] using h)⟩
    · obtain ⟨n, hn⟩ := ih _ (show (Esil.clearGoto _).Quiet from hq) _ (by omega) h
      exact ⟨_, (hword n).trans (by simpa [hret, hgoto, hrange] using hn)⟩
    · exact ⟨_, (hword 0).trans (by simpa [hret, hgoto, hrange] using h)⟩
    · exact ⟨_, (hword 0).trans (by simpa [hret, hgoto, hstop] using h)⟩
    · by_cases hnext : pc + 1 < ws.length
      · obtain ⟨n, hn⟩ := ih _ hq _ hnext h
        have hlast : ws.drop (pc + 1) ≠ [] := by simpa using hnext
        cases n with
        | zero => cases hn
        | succ n =>
          rw [parseFrom_first_char env n _ _ _ (hws.drop hnext)] at hn
          exact ⟨_, (hword n).trans (by simpa [hret, hgoto, hstop, hlast] using hn)⟩
      · have hnone : ws[pc + 1]? = none := by simpa using hnext
        have hlast : ws.drop (pc + 1) = [] := by simpa using hnext
        cases m with
        | zero => cases h
        | succ m =>
          simp only [wordMachine, hnone] at h
          exact ⟨_, (hword 0).trans (by simpa [hret, hgoto, hstop, hlast] using h)⟩

/-- No operation and no command hook gives the goto budget back. -/
structure EsilEnv.KeepsBudget : Prop where
  op : ∀ h op e, env.ops h = some op → (op e).2.parseGotoCount ≤ e.parseGotoCount
  hook : ∀ hook e w, env.hookCommand = some hook →
    (hook e w).2.parseGotoCount ≤ e.parseGotoCount

theorem runPlainWord_budget (hb : env.KeepsBudget) (e : Esil R) (word : CStr) :
    (runPlainWord env e word).2.parseGotoCount ≤ e.parseGotoCount := by
  unfold runPlainWord
  split_ifs
  · exact le_refl _
  · exact le_refl _
  · exact le_refl _
  · exact runCommand_preserves env (fun e' => e'.parseGotoCount ≤ e.parseGotoCount)
      (fun h op e' hop he => (hb.op h op e' hop).trans he)
      (fun hook e' w hh he => (hb.hook hook e' w hh).trans he)
      (fun _ _ h => h) (fun _ h => h) e word (le_refl _)

/-- The budget bounds the number of words that are run. -/
theorem wordMachine_terminates (hb : env.KeepsBudget) (ws : List CStr) (m : Nat) (e : Esil R)
    (pc : Nat) (hm : e.parseGotoCount.toNat < m) :
    ∃ r, wordMachine (budgetWord env) ws m e pc = some r := by
  induction m generalizing e pc with
  | zero => omega
  | succ m ih =>
    rw [wordMachine]
    cases ws[pc]? with
    | none => exact ⟨_, rfl⟩
    | some w =>
      dsimp only
      by_cases hc : e.parseGotoCount - 1 < 1
      · exact ⟨_, by rw [budgetWord, if_pos hc, if_pos rfl]⟩
      · have hrun := runPlainWord_budget env hb
          { e with parseGotoCount := e.parseGotoCount - 1 } w
        have hword : budgetWord env e w =
            runPlainWord env { e with parseGotoCount := e.parseGotoCount - 1 } w := if_neg hc
        rw [hword]
        dsimp only at hrun ⊢
        split_ifs
        · exact ⟨_, rfl⟩
        · exact ih _ _ (by simp only [Esil.clearGoto]; omega)
        · exact ⟨_, rfl⟩
        · exact ⟨_, rfl⟩
        · exact ih _ _ (by omega)

/-- The state in which the first word is run. -/
def parseStart (anal : RAnal) (e : Esil R) : Esil R :=
  { e with
    trap := 0
    repeatFlag := false
    skip := false
    parseGoto := -1
    parseStop := 0
    parseGotoCount := anal.esilGotoLimit }

/-- Scanning the joined words character by character is the word machine, in which every word
costs one unit of `esil_goto_limit`; while no operation gives budget back the run ends. -/
theorem rAnalEsilParse_word_machine (henv : env.Quiet) (e : Esil R) (anal : RAnal)
    (ha : e.anal = some anal) (hr : e.reil = none) (ws : List CStr) (hws : WordList ws) :
    (∀ r, (∃ n, rAnalEsilParse env n e (joinWords ws) = some r) ↔
      ∃ n, wordMachine (budgetWord env) ws n (parseStart anal e) 0 = some r) ∧
    (env.KeepsBudget → ∃ n r, rAnalEsilParse env n e (joinWords ws) = some r) := by
  have hlen : 0 < ws.length := List.length_pos_of_ne_nil hws.ne
  have hne : joinWords ws ≠ [] := by
    obtain ⟨c, rest, hj, _⟩ := hws.join_head
    simp [hj]
  have hstart : parseReset { e with trap := 0 } = parseStart anal e := by
    simp [parseReset, parseStart, ha]
  have hq : (parseStart anal e).Quiet := ⟨hr, rfl⟩
  have hparse (n : Nat) : rAnalEsilParse env n e (joinWords ws) =
      parseFrom env n (joinWords ws) (parseStart anal e) (joinWords (ws.drop 0)) [] := by
    rw [rAnalEsilParse, if_neg hne, hstart, List.drop_zero]
  have hiff (r : Int × Esil R) : (∃ n, rAnalEsilParse env n e (joinWords ws) = some r) ↔
      ∃ n, wordMachine (budgetWord env) ws n (parseStart anal e) 0 = some r := by
    simp only [hparse]
    constructor
    · rintro ⟨n, hn⟩
      exact machine_of_parseFrom env henv ws hws n _ hq 0 hlen r hn
    · rintro ⟨m, hm⟩
      exact parseFrom_of_machine env henv ws hws m _ hq 0 hlen r hm
  refine ⟨hiff, fun hb => ?_⟩
  obtain ⟨r, hm⟩ := wordMachine_terminates env hb ws _ (parseStart anal e) 0 (Nat.lt_succ_self _)
  obtain ⟨n, hn⟩ := (hiff r).mpr ⟨_, hm⟩
  exact ⟨n, r, hn⟩

end

theorem bareEnv_quiet : bareEnv.Quiet :=
  ⟨fun _ _ _ h => by simp [bareEnv] at h, fun _ _ _ h => by simp [bareEnv] at h⟩

theorem wordList_one_two : WordList [['1'], ['2']] := ⟨by simp, by simp⟩

theorem rAnalEsilParse_word_machine_one_two :
    bareEnv.Quiet ∧ WordList [['1'], ['2']] ∧
    ∀ r, (∃ n, rAnalEsilParse bareEnv n (bareEsil 4096) (joinWords [['1'], ['2']]) = some r) ↔
      ∃ n, wordMachine (budgetWord bareEnv) [['1'], ['2']] n
        (parseStart ⟨64, false, 4096⟩ (bareEsil 4096)) 0 = some r :=
  ⟨bareEnv_quiet, wordList_one_two,
    (rAnalEsilParse_word_machine bareEnv bareEnv_quiet (bareEsil 4096) ⟨64, false, 4096⟩ rfl rfl
      [['1'], ['2']] wordList_one_two).1⟩

/-- With a budget of two the second of two words is not run, so the machine without a budget
is not what the parser implements. -/
theorem rAnalEsilParse_drops_word :
    ¬ ∀ r, (∃ n, rAnalEsilParse bareEnv n (bareEsil 2) (joinWords [['1'], ['2']]) = some r) ↔
      ∃ n, wordMachine (runPlainWord bareEnv) [['1'], ['2']] n
        (parseStart ⟨64, false, 2⟩ (bareEsil 2)) 0 = some r := by
  intro h
  have hp : (rAnalEsilParse bareEnv 10 (bareEsil 2) (joinWords [['1'], ['2']])).map Prod.fst =
      some 0 := rfl
  obtain ⟨r, hr, h0⟩ := Option.map_eq_some_iff.mp hp
  obtain ⟨n, hn⟩ := (h r).mp ⟨10, hr⟩
  have h1 : r.1 = 1 := by
    rcases n with _ | _ | _ | n
    · exact nomatch hn
    · exact nomatch hn
    · exact nomatch hn
    · exact (congrArg Prod.fst (Option.some.inj hn)).symm
  rw [h0] at h1
  exact absurd h1 (by decide)

end Radare
