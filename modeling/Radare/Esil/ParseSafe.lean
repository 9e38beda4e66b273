import Radare.Esil.WordMachine
import Radare.Framework.Loop
import Radare.Esil.MemOps

namespace Radare

open Framework (loop loop_next loop_done loop_of_done loop_ends)

/-- A byte of a string in memory; `none` is the NUL. -/
abbrev StrByte := Option Char

/-- A load from a string, which its NUL ends; `none` for an index behind the NUL. -/
def strByteAt (ostr : CStr) (i : Nat) : Option StrByte :=
  if i < ostr.length then some ostr[i]? else if i = ostr.length then some none else none

/-- The buffer `word[64]`. -/
structure WordBuf where
  bytes : List StrByte
  size : bytes.length = 64

/-- A store into the buffer; `none` for an index outside of it. -/
def WordBuf.set (buf : WordBuf) (i : Nat) (c : StrByte) : Option WordBuf :=
  if i < 64 then some ⟨buf.bytes.set i c, by rw [List.length_set, buf.size]⟩ else none

/-- The characters in front of the first NUL; `none` when the bytes hold no NUL. -/
def textOf : List StrByte → Option CStr
  | [] => none
  | none :: _ => some []
  | some c :: bytes => (textOf bytes).map (c :: ·)

/-- The local variables of `r_anal_esil_parse`. `str` is the index at which the pointer stands, and `calls`
counts the calls of `runword`. -/
structure ParseLocals where
  str : Nat
  wordi : Nat
  word : WordBuf
  calls : Nat

/-- How a call of `r_anal_esil_parse` ends. The message about `parse_stop == 2` prints the string from an
index on. -/
structure ParseEnd (R : Type) where
  ret : Int
  esil : Esil R
  calls : Nat
  message : Option Nat

namespace ParseLocals

def called (l : ParseLocals) : ParseLocals := { l with calls := l.calls + 1 }

/-- At the labels `loop` and `repeat` a word begins. -/
def begin (l : ParseLocals) (str : Nat) : ParseLocals := { l with str := str, wordi := 0 }

/-- `word[wordi] = c` -/
def put (l : ParseLocals) (c : StrByte) : Option ParseLocals :=
  (l.word.set l.wordi c).map (fun word => { l with word := word })

/-- `word[wordi++] = *str`, and the pointer moves unless it is at the NUL. -/
def take (l : ParseLocals) (ostr : CStr) : Option ParseLocals :=
  (strByteAt ostr l.str).bind (fun c =>
    (l.put c).map (fun l => { l with wordi := l.wordi + 1, str := if c = none then l.str else l.str + 1 }))

end ParseLocals

/-- `gotoWord` by index. The first argument bounds the rounds. -/
def gotoWordAt (ostr : CStr) (n : Int) : Nat → Nat → Nat → Int → Option (Option Nat)
  | 0, _, _, _ => none
  | k + 1, str, start, count =>
    (strByteAt ostr str).bind (fun c =>
      if c = none then some none
      else if count = n then some (some start)
      else (strByteAt ostr (str + 1)).bind (fun d =>
        if d = some ',' then gotoWordAt ostr n k (str + 1) (str + 2) (count + 1)
        else gotoWordAt ostr n k (str + 1) start count))

section

variable {R : Type} (env : EsilEnv R)

/-- The answer of `evalWord`, the pointer behind it, and where the text of its message begins. -/
structure Evaluated (R : Type) where
  action : EvalAction
  esil : Esil R
  str : Nat
  message : Option Nat

/-- `evalWord` by index. -/
def evalWordAt (e : Esil R) (ostr : CStr) (str : Nat) : Option (Evaluated R) :=
  (strByteAt ostr str).bind (fun c =>
    (if c = none then some none else strByteAt ostr (str + 1)).bind (fun d =>
      if d = some ',' then some ⟨.again, e, str, none⟩
      else if e.repeatFlag then some ⟨.restart, e, str, none⟩
      else if e.parseGoto ≠ -1 then
        (gotoWordAt ostr e.parseGoto (ostr.length + 1) 0 0 0).map (fun target =>
          match target with
          | some target => ⟨.again, e.clearGoto, target, none⟩
          | none => ⟨.stop, e, str, none⟩)
      else if e.parseStop ≠ 0 then some ⟨.stop, e, str, if e.parseStop = 2 then some (str + 1) else none⟩
      else some ⟨.next, e, str, none⟩))

variable (parse : Esil R → CStr → Option (Int × Esil R)) (ostr : CStr)

/-- The call of `runword` on the buffer, and the test of its result; `next` follows a word that went well. -/
def parseCall (e : Esil R) (l : ParseLocals)
    (next : Esil R → ParseLocals → Option (Framework.Round (Esil R × ParseLocals) (ParseEnd R))) :
    Option (Framework.Round (Esil R × ParseLocals) (ParseEnd R)) :=
  (textOf l.word.bytes).bind (fun word =>
    (runword env parse e word).bind (fun r =>
      if r.1 = 0 then some (.done ⟨0, r.2, l.calls + 1, none⟩) else next r.2 l.called))

/-- The switch over the answer of `evalWord`; `next` is where its last case goes. -/
def parseSwitch (e : Esil R) (l : ParseLocals)
    (next : Esil R → Option (Framework.Round (Esil R × ParseLocals) (ParseEnd R))) :
    Option (Framework.Round (Esil R × ParseLocals) (ParseEnd R)) :=
  (evalWordAt e ostr l.str).bind (fun v =>
    match v.action with
    | .restart => some (.next (parseReset v.esil, l.begin 0))
    | .stop => some (.done ⟨0, v.esil, l.calls, v.message⟩)
    | .again => some (.next (v.esil, l.begin v.str))
    | .next => next v.esil)

/-- One round of the loop over the characters, or what follows it at the end of the string. -/
def parseRound (s : Esil R × ParseLocals) : Option (Framework.Round (Esil R × ParseLocals) (ParseEnd R)) :=
  let (e, l) := s
  (strByteAt ostr l.str).bind (fun c =>
    match c with
    | none =>
      (l.put none).bind (fun l =>
        if l.word.bytes[0]? = some none then some (.done ⟨1, e, l.calls, none⟩)
        else parseCall env parse e l (fun e l => parseSwitch ostr e l (fun e => some (.done ⟨1, e, l.calls, none⟩))))
    | some c =>
      if 62 < l.wordi then some (.done ⟨-1, e, l.calls, none⟩)
      else if c = ';' ∨ c = ',' then
        (l.put none).bind (fun l =>
          if l.word.bytes[0]? = some none then
            (ParseLocals.take { l with str := l.str + 1 } ostr).map (fun l => .next (e, l))
          else
            parseCall env parse e l (fun e l =>
              (l.put (some ',')).bind (fun l =>
                let l := l.begin l.str
                parseSwitch ostr e l (fun e =>
                  if c = ';' then some (.done ⟨0, e, l.calls, none⟩)
                  else (ParseLocals.take { l with str := l.str + 1 } ostr).map (fun l => .next (e, l))))))
      else (l.take ostr).map (fun l => .next (e, l)))

/-- `r_anal_esil_parse` with the loads from its string and the stores into its buffer. `word` is what the
uninitialised buffer holds, `parse` the call from `runword` for a recorder, and `none` stands for an access
outside of the string or the buffer. -/
def rAnalEsilParseMem (word : WordBuf) (n : Nat) (e : Esil R) : Option (Framework.Round (Esil R × ParseLocals) (ParseEnd R)) :=
  if ostr = [] then some (.done ⟨0, e, 0, none⟩)
  else loop (parseRound env parse ostr) n (parseReset { e with trap := 0 }, ⟨0, 0, word, 0⟩)

end

end Radare

namespace Radare

open Framework (loop loop_next loop_done loop_of_done loop_done_unique loop_ends)

section Reads

variable {ostr : CStr}

theorem strByteAt_of_le {i : Nat} (hi : i ≤ ostr.length) : strByteAt ostr i = some (ostr.drop i).head? := by
  rw [strByteAt, List.head?_drop]
  by_cases hlt : i < ostr.length
  · rw [if_pos hlt]
  · rw [if_neg hlt, if_pos (by omega), List.getElem?_eq_none (by omega)]

/-- The scan of `gotoWord` stays in the string, and it finds the word that it finds in the list. -/
theorem gotoWordAt_spec (n : Int) (k str start : Nat) (count : Int) (hstr : str ≤ ostr.length)
    (hstart : start ≤ ostr.length) (hk : ostr.length - str < k) :
    ∃ t, gotoWordAt ostr n k str start count = some t ∧
      gotoWordFrom n (ostr.drop str) (ostr.drop start) count = t.map ostr.drop ∧ ∀ i ∈ t, i ≤ ostr.length := by
  induction k generalizing str start count with
  | zero => omega
  | succ k ih =>
    rw [gotoWordAt, strByteAt_of_le hstr, Option.bind_some]
    cases hdrop : ostr.drop str with
    | nil => exact ⟨none, by simp [gotoWordFrom]⟩
    | cons c rest =>
      have hlt : str < ostr.length := by
        by_contra hge
        rw [List.drop_eq_nil_of_le (by omega)] at hdrop
        exact absurd hdrop (by simp)
      have hrest : rest = ostr.drop (str + 1) := by
        rw [List.drop_eq_getElem_cons hlt] at hdrop
        exact (List.cons.inj hdrop).2.symm
      rw [List.head?_cons, if_neg (by simp), gotoWordFrom]
      by_cases hn : count = n
      · rw [if_pos hn, if_pos hn]
        exact ⟨some start, rfl, rfl, by simpa using hstart⟩
      · rw [if_neg hn, if_neg hn, strByteAt_of_le (by omega), Option.bind_some, hrest]
        by_cases hcomma : (ostr.drop (str + 1)).head? = some ','
        · have hlt' : str + 1 < ostr.length := by
            by_contra hge
            rw [List.drop_eq_nil_of_le (by omega)] at hcomma
            exact absurd hcomma (by simp)
          rw [if_pos hcomma, if_pos hcomma, List.tail_drop]
          exact ih (str + 1) (str + 2) (count + 1) (by omega) (by omega) (by omega)
        · rw [if_neg hcomma, if_neg hcomma]
          exact ih (str + 1) start count (by omega) hstart (by omega)

/-- A text in memory has no characters exactly when it begins with the NUL. -/
theorem textOf_nil_iff {bytes : List StrByte} {w : CStr} (h : textOf bytes = some w) :
    bytes[0]? = some none ↔ w = [] := by
  cases bytes with
  | nil => exact absurd h (by simp [textOf])
  | cons b bytes =>
    cases b with
    | none =>
      rw [textOf, Option.some.injEq] at h
      simp [← h]
    | some c =>
      rw [textOf, Option.map_eq_some_iff] at h
      obtain ⟨v, -, rfl⟩ := h
      simp

theorem textOf_append (w : CStr) (bytes : List StrByte) : textOf (w.map some ++ none :: bytes) = some w := by
  induction w with
  | nil => rfl
  | cons c w ih => rw [List.map_cons, List.cons_append, textOf, ih, Option.map_some]

end Reads

/-- The characters `w` of a word stand in the buffer. Behind a separator that ends the string stands its NUL. -/
structure WordScanned (ostr : CStr) (l : ParseLocals) (w : CStr) : Prop where
  str : l.str ≤ ostr.length
  room : l.wordi ≤ 63
  text : (l.wordi = w.length ∧ l.word.bytes.take l.wordi = w.map some) ∨
    (w = [] ∧ l.wordi = 1 ∧ l.str = ostr.length ∧ l.word.bytes[0]? = some none)

section Stores

variable {ostr : CStr} {l : ParseLocals} {w : CStr}

theorem ParseLocals.put_of_lt (l : ParseLocals) (c : StrByte) (h : l.wordi < 64) :
    ∃ word : WordBuf, l.put c = some { l with word := word } ∧
      word.bytes = l.word.bytes.take l.wordi ++ c :: l.word.bytes.drop (l.wordi + 1) := by
  have hsize := l.word.size
  refine ⟨⟨l.word.bytes.set l.wordi c, by rw [List.length_set, hsize]⟩, ?_, ?_⟩
  · rw [ParseLocals.put, WordBuf.set, if_pos h, Option.map_some]
  · change l.word.bytes.set l.wordi c = _
    rw [List.set_eq_take_append_cons_drop, if_pos (by omega)]

theorem WordScanned.begin (l : ParseLocals) {str : Nat} (h : str ≤ ostr.length) : WordScanned ostr (l.begin str) [] where
  str := h
  room := by simp [ParseLocals.begin]
  text := Or.inl ⟨rfl, rfl⟩

/-- The NUL behind the characters makes them the text of the buffer. -/
theorem WordScanned.put_nul (h : WordScanned ostr l w) :
    ∃ word : WordBuf, l.put none = some { l with word := word } ∧ textOf word.bytes = some w := by
  have hroom := h.room
  obtain ⟨word, hput, hbytes⟩ := l.put_of_lt none (by omega)
  refine ⟨word, hput, ?_⟩
  rw [hbytes]
  rcases h.text with ⟨-, htake⟩ | ⟨rfl, hone, -, hnul⟩
  · rw [htake]
    exact textOf_append w _
  · cases hb : l.word.bytes with
    | nil => exact absurd hnul (by simp [hb])
    | cons b bytes =>
      have hb0 : b = none := by simpa [hb] using hnul
      rw [hone, hb0]
      rfl

/-- A character of the string moves into the buffer. -/
theorem ParseLocals.take_char (htext : l.wordi = w.length ∧ l.word.bytes.take l.wordi = w.map some)
    (hroom : l.wordi ≤ 62) {c : Char} {rest : CStr} (hdrop : ostr.drop l.str = c :: rest) :
    ∃ l', l.take ostr = some l' ∧ l'.calls = l.calls ∧ l'.str = l.str + 1 ∧ WordScanned ostr l' (w ++ [c]) := by
  obtain ⟨word, hput, hbytes⟩ := l.put_of_lt (some c) (by omega)
  have hlt : l.str < ostr.length := by
    by_contra hge
    rw [List.drop_eq_nil_of_le (by omega)] at hdrop
    exact absurd hdrop (by simp)
  have hlen : (l.word.bytes.take l.wordi).length = l.wordi := by
    rw [htext.2, List.length_map, htext.1]
  refine ⟨{ l with word := word, wordi := l.wordi + 1, str := l.str + 1 }, ?_, rfl, rfl, ?_⟩
  · rw [ParseLocals.take, strByteAt_of_le (by omega), hdrop, List.head?_cons, Option.bind_some, hput]
    simp
  · refine ⟨by simp; omega, by simp; omega, Or.inl ⟨by simp [htext.1], ?_⟩⟩
    change word.bytes.take (l.wordi + 1) = _
    rw [hbytes, List.take_append, hlen, List.take_of_length_le (by omega), htext.2, Nat.add_sub_cancel_left]
    simp

/-- Behind a separator the next character begins the word, or the NUL is stored. -/
theorem ParseLocals.take_first (hstr : l.str ≤ ostr.length) (hwordi : l.wordi = 0) :
    ∃ l', l.take ostr = some l' ∧ l'.calls = l.calls ∧ l.str ≤ l'.str ∧ ostr.drop l'.str = (ostr.drop l.str).tail ∧
      WordScanned ostr l' (ostr.drop l.str).head?.toList := by
  cases hdrop : ostr.drop l.str with
  | nil =>
    have hend : l.str = ostr.length := by
      have := List.drop_eq_nil_iff.mp hdrop
      omega
    obtain ⟨word, hput, hbytes⟩ := l.put_of_lt none (by omega)
    refine ⟨{ l with word := word, wordi := l.wordi + 1 }, ?_, rfl, le_refl _, ?_, ?_⟩
    · rw [ParseLocals.take, strByteAt_of_le hstr, hdrop, List.head?_nil, Option.bind_some, hput]
      simp
    · exact hdrop
    · refine ⟨hstr, by simp [hwordi], Or.inr ⟨rfl, by simp [hwordi], hend, ?_⟩⟩
      change word.bytes[0]? = some none
      rw [hbytes, hwordi]
      rfl
  | cons c rest =>
    obtain ⟨l', htake, hcalls, hl', hscan⟩ := ParseLocals.take_char (w := []) ⟨hwordi, by rw [hwordi]; rfl⟩
      (by omega) hdrop
    refine ⟨l', htake, hcalls, by omega, ?_, hscan⟩
    rw [hl', List.tail_cons, ← List.tail_drop, hdrop, List.tail_cons]

end Stores

section Rounds

variable {R : Type} {env : EsilEnv R} {ostr : CStr} {e : Esil R} {l : ParseLocals} {w : CStr}

/-- What `evalWord` answers by index and what it answers on the rest of the string are the same. -/
structure EvaluatesTo (e : Esil R) (ostr : CStr) (i : Nat) (v : Evaluated R) : Prop where
  index : evalWordAt e ostr i = some v
  list : evalWord e ostr (ostr.drop i) = (v.action, v.esil, ostr.drop v.str)
  str : v.str ≤ ostr.length
  quiet : v.esil.Quiet
  count : v.esil.parseGotoCount = e.parseGotoCount
  goes : v.action ≠ .restart

theorem evalWordAt_quiet (he : e.Quiet) {i : Nat} (hi : i ≤ ostr.length) : ∃ v, EvaluatesTo e ostr i v := by
  have hsecond : (if (ostr.drop i).head? = none then some none else strByteAt ostr (i + 1)) = some (ostr.drop i)[1]? := by
    cases hdrop : ostr.drop i with
    | nil => rfl
    | cons c rest =>
      have hlt : i < ostr.length := by
        by_contra hge
        rw [List.drop_eq_nil_of_le (by omega)] at hdrop
        exact absurd hdrop (by simp)
      have hrest : ostr.drop (i + 1) = rest := by
        rw [← List.tail_drop, hdrop, List.tail_cons]
      rw [List.head?_cons, if_neg (by simp), strByteAt_of_le (by omega), hrest]
      simp [List.head?_eq_getElem?]
  have hmem := evalWordAt.eq_def e ostr i
  rw [strByteAt_of_le hi, Option.bind_some, hsecond, Option.bind_some] at hmem
  have hrepeat : ¬(e.repeatFlag = true) := by simp [he.2]
  by_cases hcomma : (ostr.drop i)[1]? = some ','
  · rw [if_pos hcomma] at hmem
    exact ⟨_, hmem, by rw [evalWord, if_pos hcomma], hi, he, rfl, nofun⟩
  rw [if_neg hcomma, if_neg hrepeat] at hmem
  by_cases hgoto : e.parseGoto ≠ -1
  · rw [if_pos hgoto] at hmem
    obtain ⟨t, ht, hlist, hle⟩ := @gotoWordAt_spec ostr e.parseGoto (ostr.length + 1) 0 0 0 (by omega)
      (by omega) (by omega)
    rw [ht, Option.map_some] at hmem
    have hword : gotoWord ostr e.parseGoto = t.map ostr.drop := hlist
    cases t with
    | some target =>
      refine ⟨_, hmem, ?_, hle target rfl, he, rfl, nofun⟩
      rw [evalWord, if_neg hcomma, if_neg hrepeat, if_pos hgoto, hword]
      rfl
    | none =>
      refine ⟨_, hmem, ?_, hi, he, rfl, nofun⟩
      rw [evalWord, if_neg hcomma, if_neg hrepeat, if_pos hgoto, hword]
      rfl
  rw [if_neg hgoto] at hmem
  by_cases hstop : e.parseStop ≠ 0
  · rw [if_pos hstop] at hmem
    refine ⟨_, hmem, ?_, hi, he, rfl, nofun⟩
    rw [evalWord, if_neg hcomma, if_neg hrepeat, if_neg hgoto, if_pos hstop]
  · rw [if_neg hstop] at hmem
    refine ⟨_, hmem, ?_, hi, he, rfl, nofun⟩
    rw [evalWord, if_neg hcomma, if_neg hrepeat, if_neg hgoto, if_neg hstop]

/-- A word that does not return zero has taken its unit of the budget, and was not the last. -/
theorem budgetWord_count (h : (budgetWord env e w).1 ≠ 0) :
    2 ≤ e.parseGotoCount ∧
      (env.KeepsBudget → (budgetWord env e w).2.parseGotoCount ≤ e.parseGotoCount - 1) := by
  rw [budgetWord] at h ⊢
  by_cases hlow : e.parseGotoCount - 1 < 1
  · rw [if_pos hlow] at h
    exact absurd rfl h
  · rw [if_neg hlow]
    exact ⟨by omega, fun hb => runPlainWord_budget env hb _ w⟩

theorem parseCall_quiet (parse : Esil R → CStr → Option (Int × Esil R)) (he : e.Quiet)
    (htext : textOf l.word.bytes = some w)
    (next : Esil R → ParseLocals → Option (Framework.Round (Esil R × ParseLocals) (ParseEnd R))) :
    parseCall env parse e l next =
      if (budgetWord env e w).1 = 0 then some (.done ⟨0, (budgetWord env e w).2, l.calls + 1, none⟩)
      else next (budgetWord env e w).2 l.called := by
  rw [parseCall, htext, Option.bind_some, runword_quiet env parse e w he, Option.bind_some]

/-- A round that does not end costs a unit of the budget, or it moves the pointer. -/
def Advances (env : EsilEnv R) (e : Esil R) (l : ParseLocals) (e' : Esil R) (l' : ParseLocals) : Prop :=
  (l'.calls = l.calls ∧ e' = e ∧ l.str < l'.str) ∨
    (l'.calls = l.calls + 1 ∧ 2 ≤ e.parseGotoCount ∧
      (env.KeepsBudget → e'.parseGotoCount ≤ e.parseGotoCount - 1))

/-- One round does what one unit of fuel does on the list of the characters. -/
structure RoundNext (env : EsilEnv R) (parse : Esil R → CStr → Option (Int × Esil R)) (ostr : CStr) (e : Esil R)
    (l : ParseLocals) (w : CStr) (e' : Esil R) (l' : ParseLocals) (w' : CStr) : Prop where
  round : parseRound env parse ostr (e, l) = some (.next (e', l'))
  quiet : e'.Quiet
  scanned : WordScanned ostr l' w'
  advances : Advances env e l e' l'
  list : ∀ n, parseFrom env (n + 1) ostr e (ostr.drop l.str) w = parseFrom env n ostr e' (ostr.drop l'.str) w'

structure RoundDone (env : EsilEnv R) (parse : Esil R → CStr → Option (Int × Esil R)) (ostr : CStr) (e : Esil R)
    (l : ParseLocals) (w : CStr) (a : ParseEnd R) : Prop where
  round : parseRound env parse ostr (e, l) = some (.done a)
  calls : a.calls ≤ l.calls + 1
  list : ∀ n, parseFrom env (n + 1) ostr e (ostr.drop l.str) w = some (a.ret, a.esil)

/-- The scan behind a word, where `next` goes on with the string. -/
def afterWord (env : EsilEnv R) (n : Nat) (ostr : CStr) (next : Esil R → Option (Int × Esil R)) :
    EvalAction × Esil R × CStr → Option (Int × Esil R)
  | (.restart, e, _) => parseFrom env n ostr (parseReset e) ostr []
  | (.stop, e, _) => some (0, e)
  | (.again, e, str) => parseFrom env n ostr e str []
  | (.next, e, _) => next e

variable (parse : Esil R → CStr → Option (Int × Esil R))

/-- The end of the string. -/
theorem parseRound_end (henv : env.Quiet) (he : e.Quiet) (h : WordScanned ostr l w)
    (hdrop : ostr.drop l.str = []) :
    (∃ e' l' w', RoundNext env parse ostr e l w e' l' w') ∨ ∃ a, RoundDone env parse ostr e l w a := by
  obtain ⟨word, hput, htext⟩ := h.put_nul
  have hround := parseRound.eq_def env parse ostr (e, l)
  simp only [strByteAt_of_le h.str, hdrop, List.head?_nil, Option.bind_some, hput, textOf_nil_iff htext] at hround
  by_cases hw : w = []
  · rw [if_pos hw] at hround
    refine Or.inr ⟨_, hround, Nat.le_succ _, fun n => ?_⟩
    rw [hdrop, parseFrom, if_pos hw]
  rw [if_neg hw, parseCall_quiet parse he htext] at hround
  have hq := budgetWord_quiet env henv e w he
  by_cases hret : (budgetWord env e w).1 = 0
  · rw [if_pos hret] at hround
    refine Or.inr ⟨_, hround, le_refl _, fun n => ?_⟩
    rw [hdrop, parseFrom, if_neg hw, runword_quiet env _ e w he]
    exact if_pos hret
  have hcount := budgetWord_count hret
  obtain ⟨v, hv⟩ := evalWordAt_quiet hq h.str
  have hlist : ∀ n, parseFrom env (n + 1) ostr e (ostr.drop l.str) w =
      afterWord env n ostr (fun e => some (1, e)) (v.action, v.esil, ostr.drop v.str) := by
    intro n
    rw [hdrop, parseFrom, if_neg hw, runword_quiet env _ e w he, ← hv.list, hdrop]
    exact if_neg hret
  simp only [hret, if_false, parseSwitch, ParseLocals.called, hv.index, Option.bind_some] at hround
  obtain ⟨action, e', str, message⟩ := v
  cases action with
  | restart => exact absurd rfl hv.goes
  | stop => exact Or.inr ⟨_, hround, le_refl _, hlist⟩
  | again =>
    refine Or.inl ⟨_, _, [], hround, hv.quiet, .begin _ hv.str, Or.inr ⟨rfl, hcount.1, ?_⟩, hlist⟩
    exact fun hb => hv.count.le.trans (hcount.2 hb)
  | next => exact Or.inr ⟨_, hround, le_refl _, hlist⟩

/-- A separator. -/
theorem parseRound_separator (henv : env.Quiet) (he : e.Quiet) (h : WordScanned ostr l w)
    (hroom : l.wordi ≤ 62) {c : Char} {rest : CStr} (hdrop : ostr.drop l.str = c :: rest) (hc : c = ';' ∨ c = ',') :
    (∃ e' l' w', RoundNext env parse ostr e l w e' l' w') ∨ ∃ a, RoundDone env parse ostr e l w a := by
  obtain ⟨word, hput, htext⟩ := h.put_nul
  have hlt : l.str + 1 ≤ ostr.length := by
    by_contra hge
    rw [List.drop_eq_nil_of_le (by omega)] at hdrop
    exact absurd hdrop (by simp)
  have hwordi : l.wordi = w.length := by
    rcases h.text with ⟨hw, -⟩ | ⟨-, -, hend, -⟩
    · exact hw
    · omega
  have hlen : ¬62 < w.length := by omega
  have hrest : ostr.drop (l.str + 1) = rest := by
    rw [← List.tail_drop, hdrop, List.tail_cons]
  have hround := parseRound.eq_def env parse ostr (e, l)
  simp only [strByteAt_of_le h.str, hdrop, List.head?_cons, Option.bind_some, hput, textOf_nil_iff htext, if_pos hc,
    if_neg (Nat.not_lt.mpr hroom)] at hround
  by_cases hw : w = []
  · rw [if_pos hw] at hround
    obtain ⟨l', htake, hcalls, hstr, hdrop', hscan⟩ := ParseLocals.take_first
      (l := { l with str := l.str + 1, word := word }) hlt (by rw [hwordi, hw]; rfl)
    rw [htake, Option.map_some] at hround
    refine Or.inl ⟨_, _, _, hround, he, hscan, Or.inl ⟨hcalls, rfl, hstr⟩, fun n => ?_⟩
    rw [hdrop', hrest, hdrop, parseFrom, if_neg hlen, if_pos hc, if_pos hw]
  rw [if_neg hw, parseCall_quiet parse he htext] at hround
  have hq := budgetWord_quiet env henv e w he
  by_cases hret : (budgetWord env e w).1 = 0
  · rw [if_pos hret] at hround
    refine Or.inr ⟨_, hround, le_refl _, fun n => ?_⟩
    rw [hdrop, parseFrom, if_neg hlen, if_pos hc, if_neg hw, runword_quiet env _ e w he]
    exact if_pos hret
  have hcount := budgetWord_count hret
  obtain ⟨word', hput', -⟩ := ParseLocals.put_of_lt { l with word := word, calls := l.calls + 1 } (some ',')
    (Nat.lt_succ_of_le h.room)
  obtain ⟨v, hv⟩ := evalWordAt_quiet hq h.str
  have hlist : ∀ n, parseFrom env (n + 1) ostr e (ostr.drop l.str) w =
      afterWord env n ostr
        (fun e => if c = ';' then some (0, e) else parseFrom env n ostr e rest.tail rest.head?.toList)
        (v.action, v.esil, ostr.drop v.str) := by
    intro n
    rw [hdrop, parseFrom, if_neg hlen, if_pos hc, if_neg hw, runword_quiet env _ e w he, ← hv.list, hdrop]
    exact if_neg hret
  simp only [hret, if_false, ParseLocals.called, hput', Option.bind_some, parseSwitch, ParseLocals.begin, hv.index] at hround
  obtain ⟨action, e', str, message⟩ := v
  cases action with
  | restart => exact absurd rfl hv.goes
  | stop => exact Or.inr ⟨_, hround, le_refl _, hlist⟩
  | again =>
    refine Or.inl ⟨_, _, [], hround, hv.quiet, .begin { l with word := word', calls := l.calls + 1 } hv.str,
      Or.inr ⟨rfl, hcount.1, ?_⟩, hlist⟩
    exact fun hb => hv.count.le.trans (hcount.2 hb)
  | next =>
    by_cases hsemi : c = ';'
    · simp only [hsemi, if_true] at hround hlist
      exact Or.inr ⟨_, hround, le_refl _, hlist⟩
    · simp only [hsemi, if_false] at hround hlist
      obtain ⟨l', htake, hcalls, hstr, hdrop', hscan⟩ := ParseLocals.take_first
        (l := { l with str := l.str + 1, wordi := 0, word := word', calls := l.calls + 1 }) hlt rfl
      rw [htake, Option.map_some] at hround
      refine Or.inl ⟨_, _, _, hround, hv.quiet, hscan, Or.inr ⟨hcalls, hcount.1, ?_⟩, fun n => ?_⟩
      · exact fun hb => hv.count.le.trans (hcount.2 hb)
      · rw [hdrop', hrest]
        exact hlist n

theorem parseRound_spec (henv : env.Quiet) (he : e.Quiet) (h : WordScanned ostr l w) :
    (∃ e' l' w', RoundNext env parse ostr e l w e' l' w') ∨ ∃ a, RoundDone env parse ostr e l w a := by
  cases hdrop : ostr.drop l.str with
  | nil => exact parseRound_end parse henv he h hdrop
  | cons c rest =>
    have hlt : l.str < ostr.length := by
      by_contra hge
      rw [List.drop_eq_nil_of_le (by omega)] at hdrop
      exact absurd hdrop (by simp)
    have htext : l.wordi = w.length ∧ l.word.bytes.take l.wordi = w.map some := by
      rcases h.text with htext | ⟨-, -, hend, -⟩
      · exact htext
      · omega
    have hround := parseRound.eq_def env parse ostr (e, l)
    simp only [strByteAt_of_le h.str, hdrop, List.head?_cons, Option.bind_some] at hround
    by_cases hlong : 62 < l.wordi
    · rw [if_pos hlong] at hround
      refine Or.inr ⟨_, hround, Nat.le_succ _, fun n => ?_⟩
      rw [hdrop, parseFrom, if_pos (by omega)]
    by_cases hc : c = ';' ∨ c = ','
    · exact parseRound_separator parse henv he h (by omega) hdrop hc
    -- a character of a word
    obtain ⟨l', htake, hcalls, hstr, hscan⟩ := ParseLocals.take_char htext (by omega) hdrop
    rw [if_neg hlong, if_neg hc, htake, Option.map_some] at hround
    refine Or.inl ⟨_, _, _, hround, he, hscan, Or.inl ⟨hcalls, rfl, by omega⟩, fun n => ?_⟩
    have hrest : ostr.drop (l.str + 1) = rest := by
      rw [← List.tail_drop, hdrop, List.tail_cons]
    rw [hdrop, parseFrom, if_neg (by omega), if_neg hc, hstr, hrest]

/-- Where the rounds end, the scan of the list ends, with the same result and in as many rounds. -/
theorem parseFrom_of_loop (henv : env.Quiet) (he : e.Quiet) (h : WordScanned ostr l w) {n : Nat} {a : ParseEnd R}
    (hn : loop (parseRound env parse ostr) n (e, l) = some (.done a)) :
    parseFrom env n ostr e (ostr.drop l.str) w = some (a.ret, a.esil) := by
  induction n generalizing e l w with
  | zero => exact absurd hn (by simp [loop])
  | succ n ih =>
    rcases parseRound_spec parse henv he h with ⟨e', l', w', hr⟩ | ⟨b, hr⟩
    · rw [loop_next hr.round] at hn
      rw [hr.list]
      exact ih hr.quiet hr.scanned hn
    · rw [loop_done hr.round, Option.some.injEq, Framework.Round.done.injEq] at hn
      rw [hr.list, hn]

end Rounds

section Runs

variable {R : Type} (env : EsilEnv R) (parse : Esil R → CStr → Option (Int × Esil R)) (ostr : CStr) (word : WordBuf)
  (e : Esil R)

/-- The bound that the parser reads for its budget. -/
def Esil.gotoLimit : Int := (e.anal.map RAnal.esilGotoLimit).getD esilGotoLimitDefault

/-- The call ends after at most `bound` calls of `runword`, and no load or store goes outside of the string
or the buffer. -/
def ParsesWithin (bound : Int) : Prop :=
  (∃ n a, rAnalEsilParseMem env parse ostr word n e = some (.done a) ∧ a.calls ≤ bound) ∧
    ∀ n, rAnalEsilParseMem env parse ostr word n e ≠ none

/-- Between two rounds the calls that were made and the budget that is left make up no more than the limit. -/
structure ParseInv (limit : Int) (s : Esil R × ParseLocals) : Prop where
  quiet : s.1.Quiet
  scanned : ∃ w, WordScanned ostr s.2 w
  calls : s.2.calls + max 1 s.1.parseGotoCount ≤ max 1 limit

variable {env ostr e}

theorem parseRound_inv (henv : env.Quiet) (hb : env.KeepsBudget) {limit : Int} (s : Esil R × ParseLocals)
    (hs : ParseInv ostr limit s) :
    (∃ s', parseRound env parse ostr s = some (.next s') ∧ ParseInv ostr limit s' ∧
      Prod.Lex (· < ·) (· < ·) (s'.1.parseGotoCount.toNat, ostr.length - s'.2.str)
        (s.1.parseGotoCount.toNat, ostr.length - s.2.str)) ∨
      ∃ a, parseRound env parse ostr s = some (.done a) ∧ (a.calls : Int) ≤ max 1 limit := by
  obtain ⟨e, l⟩ := s
  obtain ⟨hq, ⟨w, hw⟩, hcalls⟩ := hs
  dsimp only at hq hw hcalls
  rcases parseRound_spec parse henv hq hw with ⟨e', l', w', hr⟩ | ⟨a, hr⟩
  · refine Or.inl ⟨(e', l'), hr.round, ⟨hr.quiet, ⟨w', hr.scanned⟩, ?_⟩, ?_⟩
    · rcases hr.advances with ⟨hcall, rfl, -⟩ | ⟨hcall, htwo, hcount⟩
      · exact hcall ▸ hcalls
      · have hless := hcount hb
        dsimp only
        omega
    · rcases hr.advances with ⟨-, rfl, hstr⟩ | ⟨-, htwo, hcount⟩
      · have hle := hr.scanned.str
        exact .right _ (by dsimp only; omega)
      · have hless := hcount hb
        exact .left _ _ (by dsimp only; omega)
  · refine Or.inr ⟨a, hr.round, ?_⟩
    have hlast := hr.calls
    omega

theorem rAnalEsilParseMem_loop (hostr : ostr ≠ []) (n : Nat) :
    rAnalEsilParseMem env parse ostr word n e =
      loop (parseRound env parse ostr) n (parseReset { e with trap := 0 }, ⟨0, 0, word, 0⟩) := if_neg hostr

theorem WordScanned.start (ostr : CStr) (word : WordBuf) : WordScanned ostr ⟨0, 0, word, 0⟩ [] :=
  .begin ⟨0, 0, word, 0⟩ (Nat.zero_le _)

/-- A call that ends answers what the scan of the list answers. -/
theorem rAnalEsilParse_of_mem (henv : env.Quiet) (hr : e.reil = none) {n : Nat} {a : ParseEnd R}
    (h : rAnalEsilParseMem env parse ostr word n e = some (.done a)) :
    rAnalEsilParse env n e ostr = some (a.ret, a.esil) := by
  have hq : (parseReset { e with trap := 0 }).Quiet := ⟨hr, rfl⟩
  by_cases hostr : ostr = []
  · rw [rAnalEsilParseMem, if_pos hostr, Option.some.injEq, Framework.Round.done.injEq] at h
    rw [rAnalEsilParse, if_pos hostr, ← h]
  · rw [rAnalEsilParseMem_loop parse word hostr] at h
    rw [rAnalEsilParse, if_neg hostr]
    exact parseFrom_of_loop parse henv hq (.start ostr word) h

end Runs

def emptyBuf : WordBuf := ⟨List.replicate 64 none, List.length_replicate⟩

/-- Without a recorder there is no nested call. -/
def noNested {R : Type} (_ : Esil R) (_ : CStr) : Option (Int × Esil R) := none

theorem bareEnv_keepsBudget : bareEnv.KeepsBudget :=
  ⟨fun _ _ _ h => by simp [bareEnv] at h, fun _ _ _ h => by simp [bareEnv] at h⟩

/-- An operation that jumps to the first word and gives the budget back. -/
def esilRefill : EsilOp Unit := fun e => (1, { e with parseGoto := 0, parseGotoCount := esilGotoLimitDefault })

def opEnv (word : CStr) (op : EsilOp Unit) : EsilEnv Unit :=
  { bareEnv with ops := fun h => if h = sdbHash word then some op else none }

theorem opEnv_quiet {word : CStr} {op : EsilOp Unit} (hop : ∀ e : Esil Unit, e.Quiet → (op e).2.Quiet) :
    (opEnv word op).Quiet := by
  refine ⟨fun h op' e hop' he => ?_, fun _ _ _ h => nomatch h⟩
  by_cases hh : h = sdbHash word
  · have hop'' : op = op' := by simpa [opEnv, hh] using hop'
    exact hop'' ▸ hop e he
  · exact absurd hop' (by simp [opEnv, hh])

theorem parse_refill (n : Nat) : rAnalEsilParse (opEnv ['G'] esilRefill) n (bareEsil 4096) ['G'] = none := by
  rw [rAnalEsilParse, if_neg (by simp)]
  induction n using Nat.strongRecOn with
  | ind n ih =>
    rcases n with _ | _ | n
    · rfl
    · rfl
    · exact ih n (by omega)

end Radare
