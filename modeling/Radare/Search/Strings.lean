import Radare.Framework.Loop
import Radare.Search.Search
import Radare.Util.Str

namespace Radare

open Framework

/-- `RSearch` with the bounds on the length of a string. -/
structure RSearchStrings extends RSearch where
  stringMin : Ut32
  stringMax : Ut32

/-- What can go wrong: a store outside `str`, and a read outside the buffer. -/
inductive Overstep where
  | str | buf
  deriving DecidableEq

def isWhitespace (ch : Ut8) : Bool := ch = 32 || ch = 9

/-- `is_encoded`, where 0 is `ENCODING_ASCII` and 1 is `ENCODING_CP850`. -/
def isEncoded (encoding : Nat) (c : Ut8) : Bool :=
  encoding = 1 &&
    [128, 133, 135, 160, 161, 129, 130, 139, 162, 163, 164, 165, 181, 144, 214, 224, 233].contains c.toNat

/-- Whether the byte goes on with a string. -/
def isTextual (ch : Ut8) : Bool := isPrintable ch || isWhitespace ch || isEncoded 0 ch

/-- The loops of `r_search_strings_update`; `matches_` counts the bytes of the string. -/
structure StringsState where
  s : RSearchStrings
  str : List Ut8
  matches_ : Nat
  widechar : Bool

/-- `buf[i]`. -/
def bufAt (buf : List Ut8) (i : Nat) : Except Overstep Ut8 :=
  match buf[i]? with
  | some c => .ok c
  | none => .error .buf

/-- `str[i] = c`. -/
def strSet (str : List Ut8) (i : Nat) (c : Ut8) : Except Overstep (List Ut8) :=
  if i < str.length then .ok (str.set i c) else .error .str

/-- "wide char check", `buf[i+2]=='\0' && buf[i]=='\0' && buf[i+1]!='\0'`. -/
def wideCheck (buf : List Ut8) (i : Nat) : Except Overstep Bool := do
  let second ← bufAt buf (i + 2)
  if second ≠ 0 then .ok false
  else do
    let here ← bufAt buf i
    if here ≠ 0 then .ok false
    else do
      let next ← bufAt buf (i + 1)
      .ok (next ≠ 0)

/-- "check if the length fits on our request". -/
def RSearchStrings.fits (s : RSearchStrings) (matches_ : Nat) : Bool :=
  s.stringMin.toNat ≤ matches_ && (s.stringMax = 0 || matches_ ≤ s.stringMax.toNat)

/-- The hit for the keyword at the place `n`, when `str` is long enough. -/
def stringsHit (s : RSearchStrings) (n : Nat) (off : Ut64) : RSearchStrings :=
  match s.kws[n]? with
  | none => s
  | some kw =>
    let r := rSearchHitNew s.toRSearch n { kw with count := kw.count + 1 } off
    { s with toRSearch := { r.1 with kws := r.1.kws.set n r.2.1 } }

/-- The end of a string before the byte at `i`. -/
def stringsEnd (from_ : Ut64) (n i : Nat) (t : StringsState) : Except Overstep (StringsState × Bool) :=
  if t.s.fits t.matches_ then do
    let str ← strSet t.str t.matches_ 0
    let len := (str.takeWhile (· ≠ 0)).length
    let off := if t.widechar then from_ + BitVec.ofNat 64 i - BitVec.ofNat 64 (len * 2) + 1
      else from_ + BitVec.ofNat 64 i - BitVec.ofNat 64 t.matches_
    .ok ({ s := if 2 < len then stringsHit t.s n off else t.s, str := str, matches_ := 0, widechar := false }, false)
  else .ok ({ t with matches_ := 0, widechar := false }, false)

/-- The turn for the byte at `i` and the keyword at the place `n`; `true` when the function returns. -/
def stringsTurn (from_ : Ut64) (buf : List Ut8) (n i : Nat) (t : StringsState) :
    Except Overstep (StringsState × Bool) := do
  let ch ← bufAt buf i
  if isTextual ch then do
    let str ← strSet t.str t.matches_ ch
    .ok ({ t with str := str, matches_ := if t.matches_ < 4096 then t.matches_ + 1 else t.matches_ }, false)
  else do
    let wide ← if t.matches_ ≠ 0 then wideCheck buf i else .ok false
    if wide then .ok ({ t with widechar := true }, true)
    else stringsEnd from_ n i t

/-- `r_search_strings_update`, with what `str` holds before. -/
def rSearchStringsUpdate (s : RSearchStrings) (from_ : Ut64) (buf str : List Ut8) :
    Except Overstep (RSearchStrings × Int) := do
  let r ← forLoop (fun n t => forLoop (stringsTurn from_ buf n) buf.length 0 t) s.kws.length 0 ⟨s, str, 0, false⟩
  .ok (r.1.s, if r.2 then 1 else 0)

section Stream

/-! The bytes as they are looked at: the buffer once for each keyword. -/

/-- Whether the byte at `g` goes on with a string. -/
def textualAt (buf : List Ut8) (g : Nat) : Bool := isTextual (buf.getD (g % buf.length) 0)

/-- The bytes of the string that ends before `g`. -/
def stringBefore (buf : List Ut8) : Nat → Nat
  | 0 => 0
  | g + 1 => if textualAt buf g then stringBefore buf g + 1 else 0

/-- A zero inside a text of wide characters. -/
def wideAt (buf : List Ut8) (g : Nat) : Bool :=
  let i := g % buf.length
  i + 2 < buf.length && buf.getD i 0 = 0 && buf.getD (i + 1) 0 ≠ 0 && buf.getD (i + 2) 0 = 0

/-- The function returns at a wide character. -/
def returnsAt (buf : List Ut8) (g : Nat) : Bool :=
  !textualAt buf g && 0 < stringBefore buf g && wideAt buf g

/-- A byte of a string finds a place in `str`. Behind a string, the two next bytes are in the buffer, and if its
length fits and the function does not return, there is a place for the terminator. -/
def boundedAt (s : RSearchStrings) (buf : List Ut8) (g : Nat) : Bool :=
  if textualAt buf g then stringBefore buf g < 4096
  else stringBefore buf g = 0 ||
    g % buf.length + 2 < buf.length && (wideAt buf g || !s.fits (stringBefore buf g) || stringBefore buf g < 4096)

end Stream

section Places

variable {buf str : List Ut8} {i : Nat} {c : Ut8}

theorem bufAt_eq (h : i < buf.length) : bufAt buf i = .ok (buf.getD i 0) := by
  rw [bufAt, List.getD_eq_getElem?_getD, List.getElem?_eq_getElem h]
  rfl

theorem bufAt_out (h : buf.length ≤ i) : bufAt buf i = .error .buf := by
  rw [bufAt, List.getElem?_eq_none h]

theorem wideCheck_eq (h : i + 2 < buf.length) : wideCheck buf i =
    .ok (buf.getD i 0 = 0 && buf.getD (i + 1) 0 ≠ 0 && buf.getD (i + 2) 0 = 0) := by
  rw [wideCheck, bufAt_eq h, bufAt_eq (show i < buf.length by omega), bufAt_eq (show i + 1 < buf.length by omega)]
  show (if buf.getD (i + 2) 0 ≠ 0 then _ else if buf.getD i 0 ≠ 0 then _ else _) = _
  by_cases hsecond : buf.getD (i + 2) 0 = 0
  · by_cases hhere : buf.getD i 0 = 0
    · rw [if_neg (not_not_intro hsecond), if_neg (not_not_intro hhere), hsecond, hhere,
        decide_eq_true rfl, Bool.true_and, Bool.and_true]
      rfl
    · rw [if_neg (not_not_intro hsecond), if_pos hhere, decide_eq_false hhere]
      rfl
  · rw [if_pos hsecond, decide_eq_false hsecond, Bool.and_false]

theorem wideCheck_out (h : buf.length ≤ i + 2) : wideCheck buf i = .error .buf := by
  rw [wideCheck, bufAt_out h]
  rfl

end Places

section Turn

variable {s : RSearchStrings} {from_ : Ut64} {buf : List Ut8} {n g i : Nat} {t : StringsState}

/-- What the loops have before the byte at `g`. -/
structure StringsAt (s : RSearchStrings) (buf : List Ut8) (g : Nat) (t : StringsState) : Prop where
  stringMin : t.s.stringMin = s.stringMin
  stringMax : t.s.stringMax = s.stringMax
  matches_ : t.matches_ = stringBefore buf g
  few : t.matches_ ≤ 4096
  str : t.str.length = 4096

theorem StringsAt.fits (h : StringsAt s buf g t) (r : Nat) : t.s.fits r = s.fits r := by
  rw [RSearchStrings.fits, RSearchStrings.fits, h.stringMin, h.stringMax]

/-- A hit leaves the bounds, if there is one. -/
theorem stringsHit_bounds (s : RSearchStrings) (n : Nat) (off : Ut64) (p : Prop) [Decidable p] :
    (if p then stringsHit s n off else s).stringMin = s.stringMin ∧
      (if p then stringsHit s n off else s).stringMax = s.stringMax := by
  split_ifs
  · unfold stringsHit
    cases s.kws[n]? with
    | none => exact ⟨rfl, rfl⟩
    | some kw => exact ⟨rfl, rfl⟩
  · exact ⟨rfl, rfl⟩

theorem stringsEnd_runs (from_ : Ut64) (n i : Nat) (h : StringsAt s buf g t) (htext : textualAt buf g = false)
    (hroom : s.fits (stringBefore buf g) = true → stringBefore buf g < 4096) :
    ∃ t', stringsEnd from_ n i t = .ok (t', false) ∧ StringsAt s buf (g + 1) t' := by
  have hnext : stringBefore buf (g + 1) = 0 := by rw [stringBefore, htext]; rfl
  unfold stringsEnd
  by_cases hfits : t.s.fits t.matches_ = true
  · have hlt : t.matches_ < t.str.length := by
      rw [h.str, h.matches_]
      exact hroom (by rw [← h.fits, ← h.matches_]; exact hfits)
    rw [if_pos hfits, strSet, if_pos hlt]
    exact ⟨_, rfl, ⟨(stringsHit_bounds _ _ _ _).1.trans h.stringMin, (stringsHit_bounds _ _ _ _).2.trans h.stringMax,
      hnext.symm, Nat.zero_le _, by rw [List.length_set, h.str]⟩⟩
  · rw [if_neg hfits]
    exact ⟨_, rfl, ⟨h.stringMin, h.stringMax, hnext.symm, Nat.zero_le _, h.str⟩⟩

theorem stringsEnd_fails (h : StringsAt s buf g t) (hfits : s.fits (stringBefore buf g) = true)
    (hfull : 4096 ≤ stringBefore buf g) : stringsEnd from_ n i t = .error .str := by
  have hno : ¬t.matches_ < t.str.length := by
    rw [h.str, h.matches_]
    omega
  rw [← h.fits, ← h.matches_] at hfits
  rw [stringsEnd, if_pos hfits, strSet, if_neg hno]
  rfl

theorem textualAt_eq (hg : g % buf.length = i) : textualAt buf g = isTextual (buf.getD i 0) := by
  rw [textualAt, hg]

theorem stringsTurn_textual (hg : g % buf.length = i) (hi : i < buf.length) (htext : textualAt buf g = true) :
    stringsTurn from_ buf n i t = (strSet t.str t.matches_ (buf.getD i 0)).bind (fun str =>
      .ok ({ t with str := str, matches_ := if t.matches_ < 4096 then t.matches_ + 1 else t.matches_ }, false)) := by
  rw [textualAt_eq hg] at htext
  rw [stringsTurn, bufAt_eq hi]
  show (if isTextual (buf.getD i 0) = true then _ else _) = _
  rw [if_pos htext]
  rfl

theorem stringsTurn_plain (hg : g % buf.length = i) (hi : i < buf.length) (htext : textualAt buf g = false) :
    stringsTurn from_ buf n i t = (if t.matches_ ≠ 0 then wideCheck buf i else .ok false).bind (fun wide =>
      if wide then .ok ({ t with widechar := true }, true) else stringsEnd from_ n i t) := by
  rw [textualAt_eq hg] at htext
  rw [stringsTurn, bufAt_eq hi]
  show (if isTextual (buf.getD i 0) = true then _ else _) = _
  rw [htext, if_neg Bool.false_ne_true]
  by_cases hm : t.matches_ ≠ 0
  · rw [if_pos hm, if_pos hm]
    rfl
  · rw [if_neg hm, if_neg hm]
    rfl

theorem wideCheck_at (hg : g % buf.length = i) (h : i + 2 < buf.length) : wideCheck buf i = .ok (wideAt buf g) := by
  rw [wideCheck_eq h, wideAt, hg, decide_eq_true h, Bool.true_and]

/-- A turn in a place that is good. -/
theorem stringsTurn_runs (hg : g % buf.length = i) (hi : i < buf.length) (h : StringsAt s buf g t)
    (hgood : boundedAt s buf g = true) :
    ∃ r, stringsTurn from_ buf n i t = .ok r ∧ (r.2 = true ↔ returnsAt buf g = true) ∧
      (¬returnsAt buf g = true → StringsAt s buf (g + 1) r.1) := by
  unfold boundedAt at hgood
  cases htext : textualAt buf g with
  | true =>
    rw [if_pos htext] at hgood
    have hlt : t.matches_ < 4096 := by
      rw [h.matches_]
      exact of_decide_eq_true hgood
    have hgo : returnsAt buf g = false := by rw [returnsAt, htext]; rfl
    have hnext : stringBefore buf (g + 1) = stringBefore buf g + 1 := by rw [stringBefore, if_pos htext]
    rw [stringsTurn_textual hg hi htext, strSet, if_pos (by rw [h.str]; exact hlt), hgo]
    refine ⟨_, rfl, Iff.rfl, fun _ => ⟨h.stringMin, h.stringMax, ?_, ?_, by rw [List.length_set, h.str]⟩⟩
    · show (if t.matches_ < 4096 then t.matches_ + 1 else t.matches_) = _
      rw [if_pos hlt, hnext, h.matches_]
    · show (if t.matches_ < 4096 then t.matches_ + 1 else t.matches_) ≤ 4096
      rw [if_pos hlt]
      exact hlt
  | false =>
    rw [htext, if_neg Bool.false_ne_true] at hgood
    rw [stringsTurn_plain hg hi htext]
    by_cases hzero : stringBefore buf g = 0
    · have hgo : returnsAt buf g = false := by rw [returnsAt, hzero]; simp
      obtain ⟨t', hend, hat⟩ := stringsEnd_runs from_ n i h htext (fun _ => by omega)
      rw [if_neg (by rw [h.matches_]; exact not_not_intro hzero), hgo]
      exact ⟨(t', false), hend, Iff.rfl, fun _ => hat⟩
    · have hroom := (Bool.or_eq_true_iff.mp hgood).resolve_left (by simpa using hzero)
      obtain ⟨hin, hroom⟩ := Bool.and_eq_true_iff.mp hroom
      rw [hg] at hin
      have hreturns : returnsAt buf g = wideAt buf g := by
        rw [returnsAt, htext, decide_eq_true (Nat.pos_of_ne_zero hzero)]
        rfl
      rw [if_pos (by rw [h.matches_]; exact hzero), wideCheck_at hg (of_decide_eq_true hin), hreturns]
      cases hwide : wideAt buf g with
      | true => exact ⟨_, rfl, Iff.rfl, fun hno => absurd rfl hno⟩
      | false =>
        have hfits : s.fits (stringBefore buf g) = true → stringBefore buf g < 4096 := by
          intro hfits
          rw [hwide, hfits] at hroom
          simpa using hroom
        obtain ⟨t', hend, hat⟩ := stringsEnd_runs from_ n i h htext hfits
        exact ⟨(t', false), hend, Iff.rfl, fun _ => hat⟩

/-- A turn in another one. -/
theorem stringsTurn_fails (hg : g % buf.length = i) (hi : i < buf.length) (h : StringsAt s buf g t)
    (hbad : ¬boundedAt s buf g = true) : ∃ e, stringsTurn from_ buf n i t = .error e := by
  unfold boundedAt at hbad
  cases htext : textualAt buf g with
  | true =>
    rw [if_pos htext] at hbad
    have hno : ¬t.matches_ < t.str.length := by
      rw [h.str, h.matches_]
      exact fun hlt => hbad (decide_eq_true hlt)
    rw [stringsTurn_textual hg hi htext, strSet, if_neg hno]
    exact ⟨.str, rfl⟩
  | false =>
    rw [htext, if_neg Bool.false_ne_true, Bool.or_eq_true_iff, not_or] at hbad
    obtain ⟨hzero, hbad⟩ := hbad
    have hzero : stringBefore buf g ≠ 0 := fun heq => hzero (decide_eq_true heq)
    rw [stringsTurn_plain hg hi htext, if_pos (by rw [h.matches_]; exact hzero)]
    by_cases hin : i + 2 < buf.length
    · rw [hg, decide_eq_true hin, Bool.true_and, Bool.or_eq_true_iff, Bool.or_eq_true_iff, not_or, not_or] at hbad
      obtain ⟨⟨hwide, hfits⟩, hfull⟩ := hbad
      rw [wideCheck_at hg hin, Bool.not_eq_true _ |>.mp hwide]
      exact ⟨.str, stringsEnd_fails h (by simpa using hfits) (by simpa using hfull)⟩
    · rw [wideCheck_out (by omega)]
      exact ⟨.buf, rfl⟩

theorem stringsTurn_guarded (s : RSearchStrings) (from_ : Ut64) (buf : List Ut8) (n : Nat) :
    Guarded (stringsTurn from_ buf n) (fun i t => StringsAt s buf (n * buf.length + i) t)
      (fun i => boundedAt s buf (n * buf.length + i) = true) (fun i => returnsAt buf (n * buf.length + i) = true)
      buf.length := by
  have hplace : ∀ {i}, i < buf.length → (n * buf.length + i) % buf.length = i := fun hi => Nat.mul_add_mod_of_lt hi
  exact ⟨fun hi h hgood => stringsTurn_runs (hplace hi) hi h hgood, fun hi h hbad => stringsTurn_fails (hplace hi) hi h hbad⟩

end Turn

section Update

variable {s : RSearchStrings} {from_ : Ut64} {buf str : List Ut8}

/-- The loop for one keyword, as a turn of the loop over the keywords. -/
theorem stringsKeyword_guarded (s : RSearchStrings) (from_ : Ut64) (buf : List Ut8) :
    Guarded (fun n t => forLoop (stringsTurn from_ buf n) buf.length 0 t)
      (fun n t => StringsAt s buf (n * buf.length) t)
      (fun n => Clear (fun g => boundedAt s buf g = true) (fun g => returnsAt buf g = true) (n * buf.length) buf.length)
      (fun n => ∃ k < buf.length, returnsAt buf (n * buf.length + k) = true) s.kws.length := by
  have hshift : ∀ n, Clear (fun i => boundedAt s buf (n * buf.length + i) = true)
      (fun i => returnsAt buf (n * buf.length + i) = true) 0 buf.length ↔
      Clear (fun g => boundedAt s buf g = true) (fun g => returnsAt buf g = true) (n * buf.length) buf.length := by
    intro n
    simp only [Clear, Nat.zero_add]
  constructor
  · intro n t _ h hclear
    obtain ⟨r, hrun, hstop, hat⟩ := (stringsTurn_guarded s from_ buf n).forLoop_runs (Nat.zero_add _).le h
      ((hshift n).mpr hclear)
    simp only [Nat.zero_add] at hstop hat
    refine ⟨r, hrun, hstop, fun hno => ?_⟩
    rw [Nat.add_one_mul]
    exact hat hno
  · intro n t _ h hclear
    exact (stringsTurn_guarded s from_ buf n).forLoop_fails (Nat.zero_add _).le h (fun hall => hclear ((hshift n).mp hall))

/-- The function stays inside `str` and the buffer if every byte up to the first wide character does. -/
theorem rSearchStringsUpdate_iff (s : RSearchStrings) (from_ : Ut64) (buf : List Ut8) (hstr : str.length = 4096) :
    (∃ r, rSearchStringsUpdate s from_ buf str = .ok r) ↔
      ∀ g < s.kws.length * buf.length, (∀ k < g, returnsAt buf k = false) → boundedAt s buf g = true := by
  have hstart : StringsAt s buf (0 * buf.length) ⟨s, str, 0, false⟩ := by
    rw [Nat.zero_mul]
    exact ⟨rfl, rfl, rfl, Nat.zero_le _, hstr⟩
  have hloops := (stringsKeyword_guarded s from_ buf).forLoop_iff (Nat.zero_add _).le hstart
  rw [clear_blocks, Nat.zero_mul] at hloops
  simp only [Clear, Nat.zero_add, Bool.not_eq_true] at hloops
  rw [← hloops, rSearchStringsUpdate]
  constructor
  · rintro ⟨r, hr⟩
    cases hrun : forLoop (fun n t => forLoop (stringsTurn from_ buf n) buf.length 0 t) s.kws.length 0 ⟨s, str, 0, false⟩ with
    | error e =>
      rw [hrun] at hr
      cases hr
    | ok r' => exact ⟨r', rfl⟩
  · rintro ⟨r, hr⟩
    rw [hr]
    exact ⟨_, rfl⟩

/-- A search for strings of 3 to 255 bytes, with one keyword. -/
def stringsSearch : RSearchStrings :=
  { rSearchNew with kws := [RSearchKeyword.plain [32]], stringMin := 3, stringMax := 255 }

theorem rSearchStringsUpdate_iff_inside :
    ∃ r, rSearchStringsUpdate stringsSearch 0 [0x74, 0x65, 0x78, 0x74, 0, 0, 0] (List.replicate 4096 0) = .ok r :=
  (rSearchStringsUpdate_iff stringsSearch 0 _ List.length_replicate).mpr (by decide)

theorem strings_behind_block :
    (match rSearchStringsUpdate stringsSearch 0 [0x74, 0] (List.replicate 4096 0) with
      | .ok _ => none
      | .error e => some e) = some Overstep.buf := by
  decide +kernel

end Update

end Radare
