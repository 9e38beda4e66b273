import Radare.Framework.TextBuffer
import Radare.Util.Hex
import Radare.Util.Str

namespace Radare

open Framework.TextBuffer

def byteOf (c : Char) : Ut8 := BitVec.ofNat 8 c.toNat

/-- The bytes of a text with escapes. -/
abbrev EscText := List Ut8

/-- What `r_str_escape_` writes for a byte other than ESC; a `char` is signed. -/
def escapeByte (dotNl : Bool) (c : Ut8) : EscText :=
  if c = byteOf '\n' then [byteOf '\\', if dotNl then byteOf 'l' else byteOf 'n']
  else if c = byteOf '\r' then [byteOf '\\', byteOf 'r']
  else if c = byteOf '\\' then [byteOf '\\', byteOf '\\']
  else if c = byteOf '\t' then [byteOf '\\', byteOf 't']
  else if c = byteOf '"' then [byteOf '\\', byteOf '"']
  else if c = 12 then [byteOf '\\', byteOf 'f']
  else if c = 8 then [byteOf '\\', byteOf 'b']
  else if isPrintable c then [c]
  else [byteOf '\\', byteOf 'x', byteOf '0' + c.sshiftRight 4, byteOf '0' + (c &&& 15)]

/-- `for (p++; *p != 'm'; p++)`; `none` inside for the jump to `out`. -/
def skipSgr (buf : EscText) : Nat → Nat → Option (Option Nat)
  | 0, _ => none
  | turns + 1, p => do
    let c ← buf[p]?
    if c = byteOf 'm' then some (some p)
    else if c = 0 then some none
    else skipSgr buf turns (p + 1)

/-- The loop of `r_str_escape_`; what it leaves are `new_buf` and `q`. -/
def escapeLoop (dotNl : Bool) (buf : EscText) : Nat → Nat → EscText → Nat → Option (EscText × Nat)
  | 0, _, _, _ => none
  | turns + 1, p, new, q => do
    let c ← buf[p]?
    if c = 0 then some (new, q)
    else if c = 0x1b then do
      let d ← buf[p + 1]?
      if d = 0 then some (new, q)
      else if d = byteOf '[' then do
        match ← skipSgr buf buf.length (p + 2) with
        | none => some (new, q)
        | some p => escapeLoop dotNl buf turns (p + 1) new q
      else escapeLoop dotNl buf turns (p + 2) new q
    else do
      let new ← storeAll new q (escapeByte dotNl c)
      escapeLoop dotNl buf turns (p + 1) new (q + (escapeByte dotNl c).length)

/-- `r_str_escape_`, the memory of `new_buf`. -/
def rStrEscape_ (buf : EscText) (dotNl : Bool) : Option EscText := do
  let len ← strlenAt 0 buf 0
  let (new, q) ← escapeLoop dotNl buf buf.length 0 (List.replicate (1 + len * 4) 0) 0
  storeAt new q 0

def rStrEscape (buf : EscText) : Option EscText := rStrEscape_ buf false

/-- `buf[i] = c`, and the text from `i + n` on moves to `i + 1`. -/
def unescapeTo (buf : EscText) (i n : Nat) (c : Ut8) : Option EscText := do
  let buf ← storeAt buf i c
  let len ← strlenAt 0 buf (i + n)
  memmove buf (i + 1) (i + n) (len + 1)

/-- The byte of two digits. -/
def hexPair (d d2 : Ut8) : Option Ut8 := do
  let ch ← rHexToByte 0 (Char.ofNat d.toNat)
  let ch2 ← rHexToByte 0 (Char.ofNat d2.toNat)
  some ((ch <<< 4) + ch2)

/-- The loop of `r_str_unescape`; what it leaves are the text and the returned number. -/
def unescapeLoop : Nat → EscText → Nat → Option (EscText × Int)
  | 0, _, _ => none
  | turns + 1, buf, i => do
    let b ← intAt buf i
    if b = 0 then some (buf, i)
    else if b ≠ byteOf '\\' then unescapeLoop turns buf (i + 1)
    else do
      let c ← intAt buf (i + 1)
      if c = byteOf 'e' then do
        let buf ← unescapeTo buf i 2 0x1b
        unescapeLoop turns buf (i + 1)
      else if c = byteOf '\\' then do
        let buf ← unescapeTo buf i 2 (byteOf '\\')
        unescapeLoop turns buf (i + 1)
      else if c = byteOf 'r' then do
        let buf ← unescapeTo buf i 2 0x0d
        unescapeLoop turns buf (i + 1)
      else if c = byteOf 'n' then do
        let buf ← unescapeTo buf i 2 0x0a
        unescapeLoop turns buf (i + 1)
      else if c = byteOf 'x' then do
        let d ← intAt buf (i + 2)
        if d = 0 then some (buf, 0)
        else do
          let d2 ← intAt buf (i + 3)
          if d2 = 0 then some (buf, 0)
          else
            match hexPair d d2 with
            | some b => do
              let buf ← unescapeTo buf i 4 b
              unescapeLoop turns buf (i + 1)
            | none => some (buf, 0)
      else some (buf, 0)

/-- `r_str_unescape`, the memory of `buf` and the returned number. -/
def rStrUnescape (buf : EscText) : Option (EscText × Int) := unescapeLoop buf.length buf 0

/-- The bytes whose escapes `r_str_unescape` knows. -/
def unescapable (c : Ut8) : Bool :=
  (isPrintable c && c != byteOf '"') || c = 10 || c = 13 || (1 ≤ c.toNat && c.toNat ≤ 7) ||
    (16 ≤ c.toNat && c.toNat ≤ 25)

/-- The second and third letters of a hex escape. -/
def hexLetters (c : Ut8) : Ut8 × Ut8 := (byteOf '0' + c.sshiftRight 4, byteOf '0' + (c &&& 15))

section Bytes

variable {c : Ut8}

theorem escapeByte_length (dotNl : Bool) (c : Ut8) : (escapeByte dotNl c).length ≤ 4 := by
  unfold escapeByte
  split_ifs <;> simp

/-- The letters around the digits that an escape can have in place of one. -/
def isPseudoDigit (d : Ut8) : Bool := d.toNat < 48 || (57 < d.toNat && d.toNat < 65)

/-- All that the other lemmas say of single bytes, decided over them together. -/
theorem escapeByte_table : ∀ c : Ut8, ((hexLetters c).1 ≠ 0 ∧ (hexLetters c).2 ≠ 0) ∧
    (unescapable c = true →
      (escapeByte false c = [c] ∧ c ≠ 0 ∧ c ≠ byteOf '\\') ∨
      (escapeByte false c = [byteOf '\\', byteOf '\\'] ∧ c = byteOf '\\') ∨
      (escapeByte false c = [byteOf '\\', byteOf 'r'] ∧ c = 0x0d) ∨
      (escapeByte false c = [byteOf '\\', byteOf 'n'] ∧ c = 0x0a) ∨
      (escapeByte false c = [byteOf '\\', byteOf 'x', (hexLetters c).1, (hexLetters c).2] ∧
        hexPair (hexLetters c).1 (hexLetters c).2 = some c)) ∧
    (c ≠ 0 ∧ c ≠ 0x1b ∧ unescapable c = false →
      c ∈ [byteOf '"', byteOf '\t', 12, 8] ∨
      (escapeByte false c = [byteOf '\\', byteOf 'x', (hexLetters c).1, (hexLetters c).2] ∧
        (isPseudoDigit (hexLetters c).1 = true ∨ isPseudoDigit (hexLetters c).2 = true))) ∧
    (isPseudoDigit c = true → rHexToByte 0 (Char.ofNat c.toNat) = none) := by
  decide

theorem escapeByte_zero (dotNl : Bool) : ∀ c : Ut8, c ≠ 0 → 0 ∉ escapeByte dotNl c := by
  intro c hc hmem
  have hhigh : byteOf '0' + c.sshiftRight 4 ≠ 0 ∧ byteOf '0' + (c &&& 15) ≠ 0 := (escapeByte_table c).1
  have hletters : (0 : Ut8) ≠ byteOf '\\' ∧ (0 : Ut8) ∉ [byteOf 'l', byteOf 'n', byteOf 'r', byteOf 't', byteOf '"',
    byteOf 'f', byteOf 'b', byteOf 'x'] := by decide
  simp only [List.mem_cons, List.not_mem_nil, or_false, not_or] at hletters
  unfold escapeByte at hmem
  split_ifs at hmem <;> simp only [List.mem_cons, List.not_mem_nil, or_false] at hmem <;> grind

theorem unescapable_cases (c : Ut8) (hc : unescapable c = true) :
    (escapeByte false c = [c] ∧ c ≠ 0 ∧ c ≠ byteOf '\\') ∨
    (escapeByte false c = [byteOf '\\', byteOf '\\'] ∧ c = byteOf '\\') ∨
    (escapeByte false c = [byteOf '\\', byteOf 'r'] ∧ c = 0x0d) ∨
    (escapeByte false c = [byteOf '\\', byteOf 'n'] ∧ c = 0x0a) ∨
    (escapeByte false c = [byteOf '\\', byteOf 'x', (hexLetters c).1, (hexLetters c).2] ∧
      (hexLetters c).1 ≠ 0 ∧ (hexLetters c).2 ≠ 0 ∧ hexPair (hexLetters c).1 (hexLetters c).2 = some c) := by
  obtain ⟨⟨hhigh, hlow⟩, hknown, -⟩ := escapeByte_table c
  rcases hknown hc with h | h | h | h | ⟨h, hpair⟩
  · exact .inl h
  · exact .inr (.inl h)
  · exact .inr (.inr (.inl h))
  · exact .inr (.inr (.inr (.inl h)))
  · exact .inr (.inr (.inr (.inr ⟨h, hhigh, hlow, hpair⟩)))

theorem rHexToByte_pseudo (d : Ut8) (h : isPseudoDigit d = true) : rHexToByte 0 (Char.ofNat d.toNat) = none :=
  (escapeByte_table d).2.2.2 h

theorem hexPair_pseudo {d d2 : Ut8} (h : isPseudoDigit d = true ∨ isPseudoDigit d2 = true) : hexPair d d2 = none := by
  rcases h with h | h
  · rw [hexPair, rHexToByte_pseudo d h]
    rfl
  · rw [hexPair, rHexToByte_pseudo d2 h]
    cases rHexToByte 0 (Char.ofNat d.toNat) <;> rfl

theorem escapeByte_letter : ∀ c : Ut8, c ∈ [byteOf '"', byteOf '\t', 12, 8] →
    ∃ e ∈ [byteOf '"', byteOf 't', byteOf 'f', byteOf 'b'], escapeByte false c = [byteOf '\\', e] := by
  simp only [List.mem_cons, List.not_mem_nil, or_false]
  rintro c (rfl | rfl | rfl | rfl)
  · exact ⟨byteOf '"', .inl rfl, rfl⟩
  · exact ⟨byteOf 't', .inr (.inl rfl), rfl⟩
  · exact ⟨byteOf 'f', .inr (.inr (.inl rfl)), rfl⟩
  · exact ⟨byteOf 'b', .inr (.inr (.inr rfl)), rfl⟩

/-- The other escapes have a letter that is not known, or no hex digits. -/
theorem not_unescapable_cases (c : Ut8) (hzero : c ≠ 0) (hesc : c ≠ 0x1b) (hc : unescapable c = false) :
    c ∈ [byteOf '"', byteOf '\t', 12, 8] ∨
    (escapeByte false c = [byteOf '\\', byteOf 'x', (hexLetters c).1, (hexLetters c).2] ∧
      (hexLetters c).1 ≠ 0 ∧ (hexLetters c).2 ≠ 0 ∧
        (isPseudoDigit (hexLetters c).1 = true ∨ isPseudoDigit (hexLetters c).2 = true)) := by
  obtain ⟨⟨hhigh, hlow⟩, -, hunknown, -⟩ := escapeByte_table c
  rcases hunknown ⟨hzero, hesc, hc⟩ with h | ⟨h, hpseudo⟩
  · exact .inl h
  · exact .inr ⟨h, hhigh, hlow, hpseudo⟩

end Bytes

section Unescape

variable {turns : Nat} {done rest after : EscText} {b c d d2 : Ut8}

theorem unescapeTo_spec (before : EscText) (b c : Ut8) (gone : EscText) {rest : EscText} (hrest : (0 : Ut8) ∉ rest)
    (after : EscText) :
    ∃ after', unescapeTo (before ++ b :: (gone ++ (rest ++ 0 :: after))) before.length (gone.length + 1) c =
      some (before ++ c :: (rest ++ 0 :: after')) := by
  have hlen := strlenAt_eq hrest (before ++ c :: gone) after
  obtain ⟨left, hmove, -⟩ := memmove_delete (before ++ [c]) gone (rest ++ [0]) after
  have hplace : before.length + (gone.length + 1) = (before ++ c :: gone).length := by simp
  have hmem : before ++ c :: (gone ++ (rest ++ 0 :: after)) = before ++ c :: gone ++ (rest ++ 0 :: after) := by simp
  refine ⟨left, ?_⟩
  rw [unescapeTo, storeAt_here]
  show (strlenAt _ _ _).bind _ = _
  rw [hplace, hmem, hlen, Option.bind_some]
  simpa [Nat.add_comm, Nat.add_left_comm, Nat.add_assoc] using hmove

theorem turn_plain (hb : b ≠ 0) (hslash : b ≠ byteOf '\\') (hi : done.length ≤ 2147483647) (after : EscText) :
    unescapeLoop (turns + 1) (done ++ b :: after) done.length =
      unescapeLoop turns (done ++ b :: after) (done.length + 1) := by
  rw [unescapeLoop, intAt_of_le _ hi, get_here]
  show (if b = 0 then _ else _) = _
  rw [if_neg hb, if_pos hslash]

/-- The turn on a backslash and one of the known letters. -/
theorem turn_letter (hletter : (c, b) ∈ [(byteOf '\\', byteOf '\\'), (byteOf 'r', 0x0d), (byteOf 'n', 0x0a)])
    (hi : done.length + 2 ≤ 2147483648) (hrest : (0 : Ut8) ∉ rest) (after : EscText) :
    ∃ after', unescapeLoop (turns + 1) (done ++ byteOf '\\' :: c :: (rest ++ 0 :: after)) done.length =
      unescapeLoop turns (done ++ b :: (rest ++ 0 :: after')) (done.length + 1) := by
  obtain ⟨after', hto⟩ := unescapeTo_spec done (byteOf '\\') b [c] hrest after
  refine ⟨after', ?_⟩
  rw [unescapeLoop, intAt_of_le _ (by omega), get_here, intAt_of_le _ (by omega), get_next]
  simp only [List.singleton_append, List.length_singleton, Nat.reduceAdd] at hto
  simp only [List.mem_cons, Prod.mk.injEq, List.not_mem_nil, or_false] at hletter
  rcases hletter with ⟨rfl, rfl⟩ | ⟨rfl, rfl⟩ | ⟨rfl, rfl⟩
  all_goals
    simp only [bind, Option.bind_some]
    rw [hto]
    rfl

theorem turn_hex (hd : d ≠ 0) (hd2 : d2 ≠ 0) (hpair : hexPair d d2 = some b)
    (hi : done.length + 4 ≤ 2147483648) (hrest : (0 : Ut8) ∉ rest) (after : EscText) :
    ∃ after', unescapeLoop (turns + 1) (done ++ byteOf '\\' :: byteOf 'x' :: d :: d2 :: (rest ++ 0 :: after))
        done.length = unescapeLoop turns (done ++ b :: (rest ++ 0 :: after')) (done.length + 1) := by
  obtain ⟨after', hto⟩ := unescapeTo_spec done (byteOf '\\') b [byteOf 'x', d, d2] hrest after
  refine ⟨after', ?_⟩
  have hfirst := get_next (done ++ [byteOf '\\']) (d2 :: (rest ++ 0 :: after)) (byteOf 'x') d
  have hsecond := get_next (done ++ [byteOf '\\', byteOf 'x']) (rest ++ 0 :: after) d d2
  simp only [List.append_assoc, List.length_append, List.length_cons, List.length_nil, List.cons_append,
    List.nil_append] at hfirst hsecond hto
  rw [unescapeLoop, intAt_of_le _ (by omega), get_here, intAt_of_le _ (by omega), get_next,
    intAt_of_le _ (by omega), hfirst, intAt_of_le _ (by omega), hsecond]
  simp only [bind, Option.bind_some]
  rw [if_neg (by decide), if_neg (by decide), if_neg (by decide), if_neg (by decide), if_neg (by decide),
    if_neg (by decide), if_pos trivial, if_neg hd, if_neg hd2, hpair]
  show (unescapeTo _ _ _ _).bind _ = _
  rw [hto]
  rfl

theorem stuck_letter (hc : 2147483648 < done.length + 2 ∨ c ∈ [byteOf '"', byteOf 't', byteOf 'f', byteOf 'b'])
    {after : EscText} {r : EscText × Int}
    (h : unescapeLoop (turns + 1) (done ++ byteOf '\\' :: c :: after) done.length = some r) : r.2 = 0 := by
  rw [unescapeLoop] at h
  obtain ⟨b, hb, h⟩ := Option.bind_eq_some_iff.mp h
  obtain ⟨hi, hb⟩ := intAt_some hb
  rw [get_here, Option.some.injEq] at hb
  subst hb
  obtain ⟨e, he, h⟩ := Option.bind_eq_some_iff.mp h
  obtain ⟨hi, he⟩ := intAt_some he
  rw [get_next, Option.some.injEq] at he
  subst he
  have hbad := hc.resolve_left (by omega)
  simp only [List.mem_cons, List.not_mem_nil, or_false] at hbad
  rcases hbad with rfl | rfl | rfl | rfl
  all_goals
    cases h
    rfl

theorem stuck_hex (hd : d ≠ 0) (hd2 : d2 ≠ 0) (hc : 2147483648 < done.length + 4 ∨ hexPair d d2 = none)
    {after : EscText} {r : EscText × Int}
    (h : unescapeLoop (turns + 1) (done ++ byteOf '\\' :: byteOf 'x' :: d :: d2 :: after) done.length = some r) :
    r.2 = 0 := by
  have hfirst := get_next (done ++ [byteOf '\\']) (d2 :: after) (byteOf 'x') d
  have hsecond := get_next (done ++ [byteOf '\\', byteOf 'x']) after d d2
  simp only [List.append_assoc, List.length_append, List.length_cons, List.length_nil, List.cons_append,
    List.nil_append] at hfirst hsecond
  rw [unescapeLoop] at h
  obtain ⟨b, hb, h⟩ := Option.bind_eq_some_iff.mp h
  obtain ⟨-, hb⟩ := intAt_some hb
  rw [get_here, Option.some.injEq] at hb
  subst hb
  obtain ⟨e, he, h⟩ := Option.bind_eq_some_iff.mp h
  obtain ⟨-, he⟩ := intAt_some he
  rw [get_next, Option.some.injEq] at he
  subst he
  obtain ⟨e, he, h⟩ := Option.bind_eq_some_iff.mp h
  obtain ⟨-, he⟩ := intAt_some he
  rw [hfirst, Option.some.injEq] at he
  subst he
  rw [if_neg hd] at h
  obtain ⟨e, he, h⟩ := Option.bind_eq_some_iff.mp h
  obtain ⟨hi, he⟩ := intAt_some he
  rw [hsecond, Option.some.injEq] at he
  subst he
  rw [if_neg hd2, hc.resolve_left (by omega)] at h
  cases h
  rfl

/-- A turn whose reads are behind the reach of an `int`, or whose letters are not known, is the last one;
if it returns, it returns 0. -/
theorem turn_stuck (hc : c ≠ 0) (hesc : c ≠ 0x1b)
    (hstuck : ¬ (unescapable c = true ∧ done.length + (escapeByte false c).length ≤ 2147483648)) {after : EscText}
    {r : EscText × Int} (h : unescapeLoop (turns + 1) (done ++ (escapeByte false c ++ after)) done.length = some r) :
    r.2 = 0 := by
  cases hgood : unescapable c with
  | false =>
    rcases not_unescapable_cases c hc hesc hgood with hletter | ⟨henc, hd, hd2, hpseudo⟩
    · obtain ⟨e, he, henc⟩ := escapeByte_letter c hletter
      rw [henc] at h
      exact stuck_letter (.inr he) h
    · rw [henc] at h
      exact stuck_hex hd hd2 (.inr (hexPair_pseudo hpseudo)) h
  | true =>
    have hfar : 2147483648 < done.length + (escapeByte false c).length := Nat.lt_of_not_le fun hle => hstuck ⟨hgood, hle⟩
    rcases unescapable_cases c hgood with ⟨henc, -, -⟩ | ⟨henc, -⟩ | ⟨henc, -⟩ | ⟨henc, -⟩ | ⟨henc, hd, hd2, -⟩
    all_goals rw [henc] at h hfar
    · rw [unescapeLoop, intAt_of_lt _ (by simp at hfar; omega)] at h
      cases h
    · exact stuck_letter (.inl hfar) h
    · exact stuck_letter (.inl hfar) h
    · exact stuck_letter (.inl hfar) h
    · exact stuck_hex hd hd2 (.inl hfar) h

/-- The turn on the escape of a byte gives the byte. -/
theorem turn_byte (turns : Nat) (hgood : unescapable c = true) (hi : done.length + (escapeByte false c).length ≤ 2147483648)
    (hrest : (0 : Ut8) ∉ rest) (after : EscText) :
    ∃ after', unescapeLoop (turns + 1) (done ++ (escapeByte false c ++ (rest ++ 0 :: after))) done.length =
      unescapeLoop turns (done ++ c :: (rest ++ 0 :: after')) (done.length + 1) := by
  rcases unescapable_cases c hgood with ⟨henc, h0, hslash⟩ | ⟨henc, rfl⟩ | ⟨henc, rfl⟩ | ⟨henc, rfl⟩ |
    ⟨henc, hd, hd2, hpair⟩
  all_goals rw [henc] at hi ⊢
  · exact ⟨after, turn_plain h0 hslash (by rw [List.length_singleton] at hi; omega) _⟩
  · exact turn_letter (by simp) hi hrest after
  · exact turn_letter (by simp) hi hrest after
  · exact turn_letter (by simp) hi hrest after
  · exact turn_hex hd hd2 hpair hi hrest after

/-- The text `s` at the place `i` has only bytes that are read back, at places that an `int` reaches. -/
def Undoes (i : Nat) (s : EscText) : Prop :=
  (∀ k c, s[k]? = some c → unescapable c = true ∧ i + k + (escapeByte false c).length ≤ 2147483648) ∧
    i + s.length ≤ 2147483647

theorem undoes_cons {i : Nat} {s : EscText} :
    Undoes i (c :: s) ↔ (unescapable c = true ∧ i + (escapeByte false c).length ≤ 2147483648) ∧ Undoes (i + 1) s := by
  constructor
  · rintro ⟨hbytes, hlen⟩
    refine ⟨by simpa using hbytes 0 c rfl, fun k d hd => ?_, by simp at hlen; omega⟩
    have hbyte := hbytes (k + 1) d hd
    exact ⟨hbyte.1, by omega⟩
  · rintro ⟨hfirst, hbytes, hlen⟩
    refine ⟨fun k d hd => ?_, by simp; omega⟩
    cases k with
    | zero =>
      cases hd
      exact hfirst
    | succ k =>
      have hbyte := hbytes k d hd
      exact ⟨hbyte.1, by omega⟩

theorem length_le_flatMap_escapeByte (dotNl : Bool) (s : EscText) :
    s.length ≤ (s.flatMap (escapeByte dotNl)).length := by
  induction s with
  | nil => simp
  | cons c s ih =>
    have hpos : 0 < (escapeByte dotNl c).length := by
      unfold escapeByte
      split_ifs <;> simp
    rw [List.flatMap_cons, List.length_append, List.length_cons]
    omega

theorem flatMap_escapeByte_zero (dotNl : Bool) {s : EscText} (hs : (0 : Ut8) ∉ s) :
    (0 : Ut8) ∉ s.flatMap (escapeByte dotNl) := by
  intro hmem
  obtain ⟨c, hc, hzero⟩ := List.mem_flatMap.mp hmem
  exact escapeByte_zero dotNl c (fun heq => hs (heq ▸ hc)) hzero

theorem unescapeLoop_spec (turns : Nat) (s done after : EscText) (hs : (0 : Ut8) ∉ s) (hesc : (0x1b : Ut8) ∉ s)
    (ht : s.length < turns) :
    (Undoes done.length s → ∃ after',
      unescapeLoop turns (done ++ (s.flatMap (escapeByte false) ++ 0 :: after)) done.length =
        some (done ++ (s ++ 0 :: after'), ((done.length + s.length : Nat) : Int))) ∧
    (¬ Undoes done.length s → ∀ r,
      unescapeLoop turns (done ++ (s.flatMap (escapeByte false) ++ 0 :: after)) done.length = some r → r.2 = 0) := by
  induction s generalizing turns done after with
  | nil =>
    obtain ⟨turns, rfl⟩ : ∃ t, turns = t + 1 := ⟨turns - 1, by simp at ht; omega⟩
    rw [List.flatMap_nil, List.nil_append, unescapeLoop]
    constructor
    · intro hundoes
      refine ⟨after, ?_⟩
      rw [intAt_of_le _ (by simpa using hundoes.2), get_here]
      rfl
    · intro hundoes r hr
      have hfar : 2147483647 < done.length :=
        Nat.lt_of_not_le fun hle => hundoes ⟨fun k c hc => absurd hc (by simp), by simpa using hle⟩
      rw [intAt_of_lt _ hfar] at hr
      cases hr
  | cons c s ih =>
    obtain ⟨turns, rfl⟩ : ∃ t, turns = t + 1 := ⟨turns - 1, by simp at ht; omega⟩
    simp only [List.mem_cons, not_or] at hs hesc
    have hzero := flatMap_escapeByte_zero false hs.2
    rw [List.flatMap_cons, List.append_assoc, undoes_cons]
    by_cases hbyte : unescapable c = true ∧ done.length + (escapeByte false c).length ≤ 2147483648
    · obtain ⟨after', hturn⟩ := turn_byte turns hbyte.1 hbyte.2 hzero after
      have hrest := ih turns (done ++ [c]) after' hs.2 hesc.2 (by simpa using ht)
      rw [List.length_append, List.length_singleton, List.append_assoc, List.singleton_append] at hrest
      rw [hturn]
      refine ⟨fun h => ?_, fun h => hrest.2 fun hundoes => h ⟨hbyte, hundoes⟩⟩
      obtain ⟨last, hlast⟩ := hrest.1 h.2
      refine ⟨last, hlast.trans ?_⟩
      simp only [List.append_assoc, List.cons_append, List.nil_append, List.length_cons]
      rw [show done.length + 1 + s.length = done.length + (s.length + 1) by omega]
    · exact ⟨fun h => absurd h.1 hbyte, fun _ r hr => turn_stuck (Ne.symm hs.1) (Ne.symm hesc.1) hbyte hr⟩

end Unescape

section Escape

theorem skipSgr_spec {turns p : Nat} {buf : EscText} (before rest : EscText) (hbuf : buf = before ++ (rest ++ [0]))
    (hp : p = before.length) (hrest : (0 : Ut8) ∉ rest) (ht : rest.length < turns) :
    skipSgr buf turns p = some none ∨
    ∃ body tail, rest = body ++ byteOf 'm' :: tail ∧ skipSgr buf turns p = some (some (p + body.length)) := by
  subst hbuf hp
  induction turns generalizing before rest with
  | zero => omega
  | succ turns ih =>
    rw [skipSgr]
    cases rest with
    | nil =>
      rw [List.nil_append, get_here]
      exact .inl rfl
    | cons c rest =>
      simp only [List.mem_cons, not_or] at hrest
      rw [List.cons_append, get_here]
      show (if c = byteOf 'm' then _ else _) = _ ∨ ∃ _ _, _ ∧ (if c = byteOf 'm' then _ else _) = _
      by_cases hm : c = byteOf 'm'
      · rw [if_pos hm]
        exact .inr ⟨[], rest, by rw [hm]; rfl, rfl⟩
      · rw [if_neg hm, if_neg (Ne.symm hrest.1)]
        have hstep := ih (before ++ [c]) rest hrest.2 (by simpa using ht)
        rw [List.append_assoc, List.length_append, List.singleton_append] at hstep
        rcases hstep with hout | ⟨body, tail, hbody, hfound⟩
        · exact .inl hout
        · refine .inr ⟨c :: body, tail, by rw [hbody]; rfl, hfound.trans ?_⟩
          rw [List.length_singleton, List.length_cons, Nat.add_assoc, Nat.add_comm 1]

theorem escapeLoop_spec (dotNl : Bool) (turns : Nat) (before rest out free : EscText) (hrest : (0 : Ut8) ∉ rest)
    (ht : rest.length < turns) (hfree : rest.length * 4 < free.length) :
    ∃ text free', escapeLoop dotNl (before ++ (rest ++ [0])) turns before.length (out ++ free) out.length =
        some (out ++ text ++ free', (out ++ text).length) ∧ 0 < free'.length ∧
      text.length + free'.length = free.length ∧ ((0x1b : Ut8) ∉ rest → text = rest.flatMap (escapeByte dotNl)) := by
  induction turns generalizing before rest out free with
  | zero => omega
  | succ turns ih =>
    have hstop : some (out ++ free, out.length) = some (out ++ [] ++ free, (out ++ []).length) := by simp
    rw [escapeLoop]
    cases rest with
    | nil =>
      rw [List.nil_append, get_here]
      exact ⟨[], free, hstop, by simpa using hfree, Nat.zero_add _, fun _ => rfl⟩
    | cons c rest =>
      simp only [List.mem_cons, not_or, List.length_cons] at hrest ht hfree
      rw [List.cons_append, get_here]
      show ∃ text free', (if c = 0 then _ else _) = _ ∧ _
      rw [if_neg (Ne.symm hrest.1)]
      by_cases hesc : c = 0x1b
      · subst hesc
        rw [if_pos rfl]
        cases rest with
        | nil =>
          rw [List.nil_append, get_next]
          exact ⟨[], free, hstop, by omega, Nat.zero_add _, fun hno => absurd List.mem_cons_self hno⟩
        | cons d rest =>
          simp only [List.mem_cons, not_or, List.length_cons] at hrest ht hfree
          rw [List.cons_append, get_next]
          show ∃ text free', (if d = 0 then _ else _) = _ ∧ _
          rw [if_neg (Ne.symm hrest.2.1)]
          by_cases hbracket : d = byteOf '['
          · rw [if_pos hbracket]
            have hbuf : before ++ 0x1b :: d :: (rest ++ [0]) = before ++ [0x1b, d] ++ (rest ++ [0]) := by simp
            have hlong : rest.length < (before ++ 0x1b :: d :: (rest ++ [0])).length := by simp; omega
            have hplace : before.length + 2 = (before ++ [(0x1b : Ut8), d]).length := by simp
            have hskip := skipSgr_spec _ rest hbuf hplace hrest.2.2 hlong
            rcases hskip with hend | ⟨body, tail, rfl, hfound⟩
            · rw [hend]
              exact ⟨[], free, hstop, by omega, Nat.zero_add _, fun hno => absurd List.mem_cons_self hno⟩
            · rw [hfound]
              simp only [List.mem_append, List.mem_cons, not_or, List.length_append, List.length_cons] at hrest ht hfree
              obtain ⟨text, free', hloop, hleft, hsize, -⟩ := ih (before ++ 0x1b :: d :: (body ++ [byteOf 'm'])) tail out free
                hrest.2.2.2.2 (by omega) (by omega)
              have hnext : (before ++ 0x1b :: d :: (body ++ [byteOf 'm'])).length = before.length + 2 + body.length + 1 := by
                simp
                omega
              rw [hnext] at hloop
              exact ⟨text, free', by simpa using hloop, hleft, hsize, fun hno => absurd List.mem_cons_self hno⟩
          · rw [if_neg hbracket]
            obtain ⟨text, free', hloop, hleft, hsize, -⟩ := ih (before ++ [0x1b, d]) rest out free hrest.2.2 (by omega) (by omega)
            exact ⟨text, free', by simpa using hloop, hleft, hsize, fun hno => absurd List.mem_cons_self hno⟩
      · rw [if_neg hesc]
        have hlen := escapeByte_length dotNl c
        rw [storeAll_here _ _ _ (by omega)]
        obtain ⟨text, free', hloop, hleft, hsize, htext⟩ := ih (before ++ [c]) rest (out ++ escapeByte dotNl c)
          (free.drop (escapeByte dotNl c).length) hrest.2 (by omega) (by simp; omega)
        refine ⟨escapeByte dotNl c ++ text, free', ?_, hleft, ?_, fun hno => ?_⟩
        · simpa using hloop
        · rw [List.length_drop] at hsize
          rw [List.length_append]
          omega
        · rw [List.flatMap_cons, htext fun hmem => hno (List.mem_cons_of_mem _ hmem)]

theorem rStrEscape_spec (dotNl : Bool) {s : EscText} (hs : (0 : Ut8) ∉ s) :
    ∃ text after, rStrEscape_ (s ++ [0]) dotNl = some (text ++ 0 :: after) ∧
      (text ++ 0 :: after).length = 4 * s.length + 1 ∧ ((0x1b : Ut8) ∉ s → text = s.flatMap (escapeByte dotNl)) := by
  obtain ⟨text, free, hloop, hfree, hsize, htext⟩ := escapeLoop_spec dotNl (s ++ [0]).length [] s []
    (List.replicate (1 + s.length * 4) 0) hs (by simp) (by simp)
  obtain ⟨f, after, rfl⟩ := List.length_pos_iff_exists_cons.mp hfree
  refine ⟨text, after, ?_, ?_, htext⟩
  swap
  · simp only [List.length_append, List.length_cons, List.length_replicate] at hsize ⊢
    omega
  rw [rStrEscape_, strlenAt_start hs]
  show (escapeLoop dotNl ([] ++ (s ++ [0])) _ ([] : EscText).length ([] ++ _) ([] : EscText).length).bind _ = _
  rw [hloop, Option.bind_some, List.nil_append]
  exact storeAt_here _ _ _ _

end Escape

/-- `r_str_escape` stays inside the `4 * strlen + 1` bytes, and `r_str_unescape` reads a text without ESC back
exactly if it knows every escape and an `int` reaches them. -/
theorem rStrUnescape_iff (s : EscText) (hs : (0 : Ut8) ∉ s) :
    ∃ new, rStrEscape (s ++ [0]) = some new ∧ new.length = 4 * s.length + 1 ∧
      ((0x1b : Ut8) ∉ s → ((∃ after, rStrUnescape new = some (s ++ 0 :: after, (s.length : Int))) ↔
        (∀ k c, s[k]? = some c → unescapable c = true ∧ k + (escapeByte false c).length ≤ 2147483648) ∧
          s.length ≤ 2147483647)) := by
  obtain ⟨text, after, hnew, hlen, htext⟩ := rStrEscape_spec false hs
  refine ⟨_, hnew, hlen, fun hesc => ?_⟩
  obtain rfl := htext hesc
  have hlong := length_le_flatMap_escapeByte false s
  have hloop := unescapeLoop_spec (s.flatMap (escapeByte false) ++ 0 :: after).length s [] after hs hesc
    (by rw [List.length_append, List.length_cons]; omega)
  simp only [List.nil_append, List.length_nil, Nat.zero_add] at hloop
  have hundoes : Undoes 0 s ↔ (∀ k c, s[k]? = some c → unescapable c = true ∧
      k + (escapeByte false c).length ≤ 2147483648) ∧ s.length ≤ 2147483647 := by
    simp only [Undoes, Nat.zero_add]
  rw [← hundoes]
  refine ⟨fun ⟨after', hback⟩ => ?_, fun h => hloop.1 h⟩
  by_contra hnot
  have hzero : (s.length : Int) = 0 := hloop.2 hnot _ hback
  obtain rfl : s = [] := List.eq_nil_of_length_eq_zero (by omega)
  exact hnot ⟨fun k c hc => absurd hc (by simp), by simp⟩

theorem rStrUnescape_iff_lines :
    ∃ new, rStrEscape ("a\\b\n".toList.map byteOf ++ [0]) = some new ∧ new.length = 4 * 4 + 1 ∧
      ∃ after, rStrUnescape new = some ("a\\b\n".toList.map byteOf ++ 0 :: after, (4 : Int)) := by
  obtain ⟨new, hnew, hlen, hback⟩ := rStrUnescape_iff ("a\\b\n".toList.map byteOf) (by decide)
  refine ⟨new, hnew, hlen, (hback (by decide)).mpr ⟨fun k c hk => ?_, by decide⟩⟩
  have hmem := List.mem_of_getElem? hk
  have hlt := (List.getElem?_eq_some_iff.mp hk).1
  have hall : ∀ c ∈ "a\\b\n".toList.map byteOf, unescapable c = true := by decide
  have hshort := escapeByte_length false c
  have hfour : ("a\\b\n".toList.map byteOf).length = 4 := by decide
  exact ⟨hall c hmem, by omega⟩

theorem tab_not_read_back :
    ¬ ∀ s : EscText, (0 : Ut8) ∉ s → (0x1b : Ut8) ∉ s →
      ∃ new after, rStrEscape (s ++ [0]) = some new ∧ rStrUnescape new = some (s ++ 0 :: after, (s.length : Int)) := by
  intro h
  obtain ⟨new, after, hnew, hback⟩ := h [9] (by decide) (by decide)
  have hrun : rStrEscape ([9] ++ [0]) = some [92, 116, 0, 0, 0] := by decide
  rw [hrun, Option.some.injEq] at hnew
  subst hnew
  have hfail : rStrUnescape [92, 116, 0, 0, 0] = some ([92, 116, 0, 0, 0], 0) := by decide
  rw [hfail] at hback
  cases hback

end Radare
