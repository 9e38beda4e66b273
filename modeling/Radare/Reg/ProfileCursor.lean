import Radare.Framework.Simulates
import Radare.Reg.ProfileLines

namespace Radare.Reg

open Framework

/-- What can go wrong: a loop that takes too many turns, a read behind the terminator, and a store outside `tmp`
or `tok`. -/
inductive Misstep where
  | turns | read | tmp | tok
  deriving DecidableEq

def nul : Char := Char.ofNat 0

/-- `*p`: the characters of the text and the terminator. -/
def readAt (str : CStr) (p : Nat) : Except Misstep Char :=
  match (str ++ [nul])[p]? with
  | some c => .ok c
  | none => .error .read

/-- `while (*q != '\n') q++`. -/
def toEol (str : CStr) : Nat → Nat → Except Misstep Nat
  | 0, _ => .error .turns
  | turns + 1, q => do
    let c ← readAt str q
    if c ≠ '\n' then toEol str turns (q + 1) else .ok q

/-- `while (*p == ' ' || *p == '\t') p++`. -/
def overBlanks (str : CStr) : Nat → Nat → Except Misstep Nat
  | 0, _ => .error .turns
  | turns + 1, p => do
    let c ← readAt str p
    if c = ' ' ∨ c = '\t' then overBlanks str turns (p + 1) else .ok p

/-- The blanks in front of a word, and the rest of the line where there is a comment. -/
def toWord (str : CStr) (inner p : Nat) : Except Misstep Nat := do
  let p ← overBlanks str inner p
  let c ← readAt str p
  if c = '#' then toEol str inner p else .ok p

/-- `tmp[i] = c`. -/
def storeTmp (tmp : CStr) (i : Nat) (c : Char) : Except Misstep CStr :=
  if i < tmp.length then .ok (tmp.set i c) else .error .tmp

/-- The loop that gathers a word; what it leaves are `p`, `i` and `tmp`. -/
def gather (str : CStr) : Nat → Nat → Nat → CStr → Except Misstep (Nat × Nat × CStr)
  | 0, _, _, _ => .error .turns
  | turns + 1, p, i, tmp => do
    let c ← readAt str p
    if isGraph c ∧ i < 127 then do
      let tmp ← storeTmp tmp i c
      gather str turns (p + 1) (i + 1) tmp
    else .ok (p, i, tmp)

/-- `tok[j++] = strdup (tmp)`, with the words saved so far; a `tmp` without terminator is read behind its end. -/
def saveTok (tok : List CStr) (tmp : CStr) : Except Misstep (List CStr) :=
  if nul ∉ tmp then .error .tmp
  else if tok.length < 8 then .ok (tok ++ [tmp.takeWhile (· ≠ nul)])
  else .error .tok

/-- `while (*p)`, for every word; what it leaves are `p`, `tmp` and the words. -/
def wordLoop (str : CStr) (inner : Nat) : Nat → Nat → CStr → List CStr → Except Misstep (Nat × CStr × List CStr)
  | 0, _, _, _ => .error .turns
  | turns + 1, p, tmp, tok => do
    let c ← readAt str p
    if c = nul then .ok (p, tmp, tok)
    else do
      let p ← toWord str inner p
      let c ← readAt str p
      if c = '\n' then .ok (p, tmp, tok)
      else do
        let (p, i, tmp) ← gather str inner p 0 tmp
        let tmp ← storeTmp tmp i nul
        if 7 < tok.length then .ok (p, tmp, tok)
        else do
          let tok ← saveTok tok tmp
          wordLoop str inner turns p tmp tok

/-- `do { .. } while (*p++)`, for every line. -/
def lineLoop (str : CStr) (inner : Nat) : Nat → Nat → CStr → RReg → Except Misstep (Except String RReg)
  | 0, _, _, _ => .error .turns
  | turns + 1, p, tmp, reg => do
    let next (p : Nat) (tmp : CStr) (reg : RReg) : Except Misstep (Except String RReg) := do
      let c ← readAt str p
      if c = nul then .ok (.ok reg) else lineLoop str inner turns (p + 1) tmp reg
    let c ← readAt str p
    if c = '#' then do
      let p ← toEol str inner p
      next p tmp reg
    else do
      let (p, tmp, tok) ← wordLoop str inner inner p tmp []
      match tok with
      | [] => next p tmp reg
      | first :: tok =>
        if first.head? = some '=' then
          match parseAlias (first :: tok) with
          | some e => .ok (.error e)
          | none => next p tmp reg
        else
          match parseDef reg (first :: tok) with
          | .error e => .ok (.error e)
          | .ok reg => next p tmp reg

/-- `r_reg_set_profile_string` with its cursor and its arrays. A loop has at most as many turns as the text has
characters, and a few more. -/
def rRegSetProfileStringAt (reg : RReg) (str tmp : CStr) : Except Misstep (RReg × Bool) :=
  if reg.regProfileStr = some str then .ok (reg, true)
  else do
    let reg := { rRegFreeInternal (rRegArenaPop reg) with regProfileStr := some str }
    match ← lineLoop str (str.length + 130) (str.length + 1) 0 tmp reg with
    | .error _ => .ok (rRegFreeInternal reg, false)
    | .ok reg => .ok (rRegArenaPush (rRegFitArena reg), true)

section Refines

variable {str s : CStr} {p turns : Nat}

/-- Where the cursor is, there is the first character left, or the terminator. -/
theorem readAt_eq (h : At str p s) : readAt str p = .ok (s.headD nul) := by
  have hfetch : (str ++ [nul])[p]? = some (s.headD nul) := h.fetch nul
  rw [readAt, hfetch]

theorem readAt_end : readAt str (str.length + 1) = .error .read := by
  have hfetch : (str ++ [nul])[str.length + 1]? = none := fetch_end nul str
  rw [readAt, hfetch]

theorem skipToEol_cons {c : Char} (hc : c ≠ '\n') : skipToEol (c :: s) = skipToEol s := by
  unfold skipToEol
  rw [List.dropWhile_cons_of_pos (p := fun x => decide (x ≠ '\n')) (decide_eq_true hc)]
  simp [hc.symm]

theorem toEol_simulates (h : At str p s) (hturns : s.length + 1 < turns) :
    Simulates Misstep.read (At str) (toEol str turns p) (skipToEol s) := by
  induction s generalizing p turns with
  | nil =>
    have hp := h.length
    obtain ⟨turns, rfl⟩ : ∃ n, turns = n + 2 := ⟨turns - 2, by simp at hturns; omega⟩
    have hfar : toEol str (turns + 2) p = .error .read := by
      rw [toEol, readAt_eq h]
      show toEol str (turns + 1) (p + 1) = _
      rw [toEol, show p + 1 = str.length + 1 by simp at hp; omega, readAt_end]
      rfl
    rw [hfar]
    exact Simulates.failed
  | cons c s ih =>
    obtain ⟨turns, rfl⟩ : ∃ n, turns = n + 1 := ⟨turns - 1, by omega⟩
    rw [toEol, readAt_eq h]
    by_cases hc : c = '\n'
    · subst hc
      exact Simulates.ok h
    · rw [skipToEol_cons hc]
      have hleft : s.length + 1 < turns := by
        rw [List.length_cons] at hturns
        omega
      show Simulates _ _ (if c ≠ '\n' then _ else _) _
      rw [if_pos hc]
      exact ih h.next hleft

theorem overBlanks_eq (h : At str p s) (hturns : s.length < turns) :
    ∃ q, overBlanks str turns p = .ok q ∧ At str q (s.dropWhile (fun c => c = ' ' ∨ c = '\t')) := by
  induction s generalizing p turns with
  | nil =>
    obtain ⟨turns, rfl⟩ : ∃ n, turns = n + 1 := ⟨turns - 1, by omega⟩
    refine ⟨p, ?_, h⟩
    rw [overBlanks, readAt_eq h]
    rfl
  | cons c s ih =>
    obtain ⟨turns, rfl⟩ : ∃ n, turns = n + 1 := ⟨turns - 1, by omega⟩
    rw [List.length_cons] at hturns
    rw [overBlanks, readAt_eq h]
    show ∃ q, (if c = ' ' ∨ c = '\t' then _ else _) = _ ∧ _
    by_cases hc : c = ' ' ∨ c = '\t'
    · rw [if_pos hc, List.dropWhile_cons_of_pos (p := fun c => decide (c = ' ' ∨ c = '\t')) (decide_eq_true hc)]
      exact ih h.next (by omega)
    · rw [if_neg hc, List.dropWhile_cons_of_neg (by simpa using hc)]
      exact ⟨p, rfl, h⟩

/-- The word goes into `tmp` from the place `i` on. -/
theorem gather_eq (h : At str p s) {i : Nat} (hi : i ≤ 127) {tmp : CStr} (htmp : tmp.length = 128)
    (hturns : 127 - i < turns) :
    ∃ tmp', gather str turns p i tmp = .ok (p + ((s.take (127 - i)).takeWhile isGraph).length,
        i + ((s.take (127 - i)).takeWhile isGraph).length, tmp') ∧ tmp'.length = 128 ∧
      tmp'.take (i + ((s.take (127 - i)).takeWhile isGraph).length) = tmp.take i ++ (s.take (127 - i)).takeWhile isGraph := by
  induction turns generalizing p s i tmp with
  | zero => omega
  | succ turns ih =>
    rw [gather, readAt_eq h]
    show ∃ tmp', (if isGraph (s.headD nul) = true ∧ i < 127 then _ else _) = _ ∧ _
    by_cases hgo : isGraph (s.headD nul) = true ∧ i < 127
    · obtain ⟨hgraph, hlt⟩ := hgo
      cases s with
      | nil => exact absurd hgraph (by decide)
      | cons c s =>
        have hstore : storeTmp tmp i c = .ok (tmp.set i c) := if_pos (by omega)
        have hset : (tmp.set i c).length = 128 := by rw [List.length_set, htmp]
        obtain ⟨tmp', hrun, hlen, htake⟩ := ih h.next (i := i + 1) (by omega) hset (by omega)
        have hword : ((c :: s).take (127 - i)).takeWhile isGraph = c :: (s.take (127 - (i + 1))).takeWhile isGraph := by
          rw [show 127 - i = 127 - (i + 1) + 1 by omega, List.take_succ_cons,
            List.takeWhile_cons_of_pos (show isGraph c = true from hgraph)]
        rw [if_pos ⟨hgraph, hlt⟩, hword, List.length_cons]
        refine ⟨tmp', ?_, hlen, ?_⟩
        · show (storeTmp tmp i c >>= fun tmp => gather str turns (p + 1) (i + 1) tmp) = _
          rw [hstore]
          show gather str turns (p + 1) (i + 1) (tmp.set i c) = _
          rw [hrun, show p + 1 + ((s.take (127 - (i + 1))).takeWhile isGraph).length =
            p + (((s.take (127 - (i + 1))).takeWhile isGraph).length + 1) by omega,
            show i + 1 + ((s.take (127 - (i + 1))).takeWhile isGraph).length =
            i + (((s.take (127 - (i + 1))).takeWhile isGraph).length + 1) by omega]
        · rw [show i + (((s.take (127 - (i + 1))).takeWhile isGraph).length + 1) =
            i + 1 + ((s.take (127 - (i + 1))).takeWhile isGraph).length by omega, htake,
            List.take_add_one, List.getElem?_set_self (by omega), List.take_set_of_le (Nat.le_refl i), List.append_assoc]
          rfl
    · have hword : (s.take (127 - i)).takeWhile isGraph = [] := by
        by_cases hlt : i < 127
        · cases s with
          | nil => rw [List.take_nil, List.takeWhile_nil]
          | cons c s =>
            rw [show 127 - i = 127 - (i + 1) + 1 by omega, List.take_succ_cons,
              List.takeWhile_cons_of_neg (show ¬isGraph c = true from fun hgraph => hgo ⟨hgraph, hlt⟩)]
        · rw [show 127 - i = 0 by omega, List.take_zero, List.takeWhile_nil]
      rw [if_neg hgo, hword]
      exact ⟨tmp, rfl, htmp, by simp⟩

/-- What is saved behind a word. -/
theorem saveTok_eq {word tmp : CStr} (hword : word.length ≤ 127) (hgraph : ∀ c ∈ word, isGraph c = true)
    (htmp : tmp.length = 128) (htake : tmp.take word.length = word) {tok : List CStr} (hroom : tok.length ≤ 7) :
    ∃ tmp', storeTmp tmp word.length nul = .ok tmp' ∧ tmp'.length = 128 ∧ saveTok tok tmp' = .ok (tok ++ [word]) := by
  refine ⟨tmp.set word.length nul, if_pos (by omega), by rw [List.length_set, htmp], ?_⟩
  have hsplit : tmp.set word.length nul = word ++ nul :: tmp.drop (word.length + 1) := by
    rw [List.set_eq_take_append_cons_drop, if_pos (by omega), htake]
  have hclean : ∀ c ∈ word, decide (c ≠ nul) = true := by
    intro c hc
    refine decide_eq_true (fun heq => ?_)
    rw [heq] at hc
    exact absurd (hgraph nul hc) (by decide)
  have hcut : (word ++ nul :: tmp.drop (word.length + 1)).takeWhile (fun c => decide (c ≠ nul)) = word := by
    rw [List.takeWhile_append_of_pos hclean, List.takeWhile_cons_of_neg (by simp), List.append_nil]
  rw [hsplit, saveTok, if_neg (fun hno => hno (List.mem_append_right _ List.mem_cons_self)), if_pos (by omega)]
  exact congrArg (fun w => Except.ok (tok ++ [w])) hcut

/-- What a loop leaves, as the functions on texts give it. -/
def Leaves (str : CStr) (x : Nat × CStr × List CStr) (y : CStr × List CStr) : Prop :=
  At str x.1 y.1 ∧ x.2.1.length = 128 ∧ x.2.2 = y.2

theorem toWord_simulates (h : At str p s) {inner : Nat} (hinner : str.length + 130 ≤ inner) :
    Simulates Misstep.read (At str) (toWord str inner p) (wordStart s) := by
  have hlen := h.length
  obtain ⟨q, hq, hat⟩ := overBlanks_eq h (show s.length < inner by omega)
  have hlen' := hat.length
  rw [toWord, hq, wordStart]
  show Simulates _ _ (readAt str q >>= fun c => _) _
  rw [readAt_eq hat]
  show Simulates _ _ (if (s.dropWhile _).headD nul = '#' then toEol str inner q else Except.ok q) _
  by_cases hsharp : (s.dropWhile (fun c => c = ' ' ∨ c = '\t')).head? = some '#'
  · rw [if_pos hsharp, if_pos ((headD_eq (by decide)).mpr hsharp)]
    exact toEol_simulates hat (by omega)
  · rw [if_neg hsharp, if_neg (fun heq => hsharp ((headD_eq (by decide)).mp heq))]
    exact Simulates.ok hat

/-- The words of a line; `m` is what is left of nine turns. -/
theorem wordLoop_simulates (hstr : nul ∉ str) {inner m : Nat} (hinner : str.length + 130 ≤ inner) (h : At str p s)
    {tmp : CStr} (htmp : tmp.length = 128) {tok : List CStr} (hm : m + tok.length = 9) (hroom : tok.length ≤ 8)
    (hturns : m ≤ turns) :
    Simulates Misstep.read (Leaves str) (wordLoop str inner turns p tmp tok) (lineWords m s tok) := by
  induction m generalizing p s tmp tok turns with
  | zero => omega
  | succ m ih =>
    obtain ⟨turns, rfl⟩ : ∃ n, turns = n + 1 := ⟨turns - 1, by omega⟩
    have hlen := h.length
    rw [wordLoop, readAt_eq h, lineWords_succ]
    show Simulates _ _ (if s.headD nul = nul then _ else _) _
    by_cases hend : s = []
    · rw [if_pos ((h.headD_iff hstr).mpr hend), if_pos hend]
      exact Simulates.ok ⟨h, htmp, rfl⟩
    · rw [if_neg (fun heq => hend ((h.headD_iff hstr).mp heq)), if_neg hend]
      refine (toWord_simulates h hinner).bind (fun q l _ hat => ?_)
      show Simulates _ _ (readAt str q >>= fun c => _) _
      rw [readAt_eq hat]
      show Simulates _ _ (if l.headD nul = '\n' then _ else _) _
      by_cases heol : l.head? = some '\n'
      · rw [if_pos heol, if_pos ((headD_eq (by decide)).mpr heol)]
        exact Simulates.ok ⟨hat, htmp, rfl⟩
      · rw [if_neg heol, if_neg (fun heq => heol ((headD_eq (by decide)).mp heq))]
        obtain ⟨tmp', hgather, htmp', htake⟩ := gather_eq hat (Nat.zero_le 127) htmp (show 127 - 0 < inner by omega)
        have hgraph : ∀ c ∈ (l.take 127).takeWhile isGraph, isGraph c = true := fun c hc => List.mem_takeWhile_imp hc
        have hshort : ((l.take 127).takeWhile isGraph).length ≤ 127 :=
          (List.takeWhile_prefix _).length_le.trans (List.length_take_le _ _)
        have hin : ((l.take 127).takeWhile isGraph).length ≤ l.length :=
          (List.takeWhile_prefix _).length_le.trans (List.length_take_le' _ _)
        rw [Nat.sub_zero] at hgather htake
        rw [Nat.zero_add] at hgather htake
        rw [List.take_zero, List.nil_append] at htake
        generalize (l.take 127).takeWhile isGraph = word at *
        have hmove := hat.move hin
        rw [hgather]
        show Simulates _ _ (storeTmp tmp' word.length nul >>= fun tmp => _) _
        by_cases hfull : 7 < tok.length
        · have hstore : storeTmp tmp' word.length nul = .ok (tmp'.set word.length nul) := if_pos (by omega)
          rw [hstore, if_pos hfull]
          show Simulates _ _ (if 7 < tok.length then _ else _) _
          rw [if_pos hfull]
          exact Simulates.ok ⟨hmove, by show (tmp'.set word.length nul).length = 128; rw [List.length_set, htmp'], rfl⟩
        · obtain ⟨tmp'', hstore, htmp'', hsave⟩ := saveTok_eq hshort hgraph htmp' htake (show tok.length ≤ 7 by omega)
          rw [hstore, if_neg hfull]
          show Simulates _ _ (if 7 < tok.length then _ else _) _
          rw [if_neg hfull, hsave]
          have hsize : (tok ++ [word]).length = tok.length + 1 := by rw [List.length_append, List.length_singleton]
          exact ih hmove htmp'' (by omega) (by omega) (by omega)

theorem skipToEol_suffix {l : CStr} (h : skipToEol s = some l) : l <:+ s := by
  unfold skipToEol at h
  split_ifs at h with hmem
  cases h
  exact List.dropWhile_suffix _

theorem wordStart_suffix {l : CStr} (h : wordStart s = some l) : l <:+ s := by
  unfold wordStart at h
  split_ifs at h with hsharp
  · exact (skipToEol_suffix h).trans (List.dropWhile_suffix _)
  · cases h
    exact List.dropWhile_suffix _

theorem lineWords_suffix {m : Nat} {tok : List CStr} {y : CStr × List CStr} (h : lineWords m s tok = some y) : y.1 <:+ s := by
  induction m generalizing s tok with
  | zero =>
    cases h
    exact List.suffix_refl s
  | succ m ih =>
    rw [lineWords_succ] at h
    by_cases hend : s = []
    · rw [if_pos hend] at h
      cases h
      exact List.suffix_refl s
    · rw [if_neg hend] at h
      obtain ⟨l, hl, h⟩ := Option.bind_eq_some_iff.mp h
      refine List.IsSuffix.trans ?_ (wordStart_suffix hl)
      split_ifs at h with heol hfull
      · cases h
        exact List.suffix_refl l
      · cases h
        exact List.drop_suffix _ l
      · exact (ih h).trans (List.drop_suffix _ l)

theorem lineLoop_simulates (hstr : nul ∉ str) {inner n : Nat} (hinner : str.length + 130 ≤ inner) (h : At str p s)
    (hn : s.length < n) {tmp : CStr} (htmp : tmp.length = 128) (reg : RReg) :
    Simulates Misstep.read Eq (lineLoop str inner n p tmp reg) (parseLines n s reg) := by
  induction n generalizing p s tmp reg with
  | zero => omega
  | succ n ih =>
    -- what is done behind a line
    have hnext : ∀ {q : Nat} {l : CStr}, At str q l → l <:+ s → ∀ {tmp : CStr}, tmp.length = 128 → ∀ reg,
        Simulates Misstep.read Eq
          (readAt str q >>= fun c => if c = nul then .ok (.ok reg) else lineLoop str inner n (q + 1) tmp reg)
          (afterLine n l reg) := by
      intro q l hat hl tmp htmp reg
      rw [readAt_eq hat]
      show Simulates _ _ (if l.headD nul = nul then _ else _) _
      cases l with
      | nil =>
        rw [if_pos ((hat.headD_iff hstr).mpr rfl)]
        exact Simulates.ok rfl
      | cons c l =>
        have hsize := hl.length_le
        rw [List.length_cons] at hsize
        rw [if_neg (fun heq => List.cons_ne_nil c l ((hat.headD_iff hstr).mp heq))]
        exact ih hat.next (by omega) htmp reg
    have hlen := h.length
    rw [lineLoop, readAt_eq h, parseLines]
    show Simulates _ _ (if s.headD nul = '#' then _ else _) _
    by_cases hsharp : s.head? = some '#'
    · rw [if_pos hsharp, if_pos ((headD_eq (by decide)).mpr hsharp)]
      exact (toEol_simulates h (by omega)).bind (fun q l hl hat => hnext hat (skipToEol_suffix hl) htmp reg)
    · rw [if_neg hsharp, if_neg (fun heq => hsharp ((headD_eq (by decide)).mp heq))]
      have hroom : ([] : List CStr).length ≤ 8 := Nat.zero_le 8
      have hwords := wordLoop_simulates hstr hinner h htmp (m := 9) rfl hroom (show 9 ≤ inner by omega)
      refine hwords.bind (fun x y hy hxy => ?_)
      obtain ⟨q, tmp', tok⟩ := x
      obtain ⟨l, tok'⟩ := y
      obtain ⟨hat, hsize, htok⟩ := hxy
      replace htok : tok = tok' := htok
      subst htok
      have hbehind := hnext hat (lineWords_suffix hy) hsize
      cases tok with
      | nil => exact hbehind reg
      | cons first tok =>
        show Simulates _ _ (if first.head? = some '=' then _ else _) (if first.head? = some '=' then _ else _)
        split_ifs with halias
        · cases parseAlias (first :: tok) with
          | none => exact hbehind reg
          | some e => exact Simulates.ok rfl
        · cases parseDef reg (first :: tok) with
          | error e => exact Simulates.ok rfl
          | ok reg' => exact hbehind reg'

/-- The cursor goes through a text as the list of its characters says, and its only false step is a read behind
the terminator. -/
theorem rRegSetProfileStringAt_simulates (reg : RReg) (hstr : nul ∉ str) {tmp : CStr} (htmp : tmp.length = 128) :
    Simulates Misstep.read Eq (rRegSetProfileStringAt reg str tmp) (rRegSetProfileString reg str) := by
  unfold rRegSetProfileStringAt rRegSetProfileString
  split_ifs with hsame
  · exact Simulates.ok rfl
  · refine (lineLoop_simulates hstr (Nat.le_refl _) (At.start str) (Nat.lt_succ_self _) htmp _).bind (fun x y _ hxy => ?_)
    rw [hxy]
    cases y with
    | error e => exact Simulates.ok rfl
    | ok reg' => exact Simulates.ok rfl

end Refines

end Radare.Reg
