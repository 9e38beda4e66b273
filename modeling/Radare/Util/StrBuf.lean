import Radare.Framework.TextBuffer
import Radare.Util.Glob

namespace Radare

open Framework.TextBuffer

/-- `RStrBuf`; its text is in `ptr`, or in the 64 bytes of `buf` where that is `NULL`. -/
structure RStrBuf where
  len : Int
  ptr : Option CStr
  ptrlen : Int
  buf : CStr

/-- The result of an addition of `int`s. -/
def intSum (x : Int) : Option Int := if -2147483648 ≤ x ∧ x ≤ 2147483647 then some x else none

/-- A `malloc` of `n` bytes; they hold `junk`. -/
def freshBlock (junk : Nat → Char) (n : Int) : CStr := (List.range n.toNat).map junk

/-- `realloc`; what comes new holds `junk`. -/
def grownBlock (junk : Nat → Char) (p : CStr) (n : Int) : CStr := p.take n.toNat ++ (freshBlock junk n).drop p.length

def rStrbufInit : RStrBuf := ⟨0, none, 0, List.replicate 64 nul⟩

/-- The block, with its size, that `r_strbuf_set` writes a long string to. -/
def blockForSet (junk : Nat → Char) (sb : RStrBuf) (size : Int) : CStr × Int :=
  match sb.ptr with
  | none => (freshBlock junk size, size)
  | some ptr => if size > sb.ptrlen then (freshBlock junk size, size) else (ptr, sb.ptrlen)

/-- `r_strbuf_set`, for a string whose length an `int` holds. -/
def rStrbufSet (junk : Nat → Char) (sb : RStrBuf) : Option CStr → Option (RStrBuf × Bool)
  | none => some (rStrbufInit, true)
  | some s => do
    let l ← intSum s.length
    if 64 ≤ l then do
      let size ← intSum (l + 1)
      let ptr ← copyAt (blockForSet junk sb size).1 0 (s ++ [nul])
      some (⟨l, some ptr, (blockForSet junk sb size).2, sb.buf⟩, true)
    else do
      let buf ← copyAt sb.buf 0 (s ++ [nul])
      some (⟨l, none, sb.ptrlen, buf⟩, true)

/-- The block, with its size, that `r_strbuf_append` goes on in; the text moves there from `buf`. -/
def blockForAppend (junk : Nat → Char) (sb : RStrBuf) (size newlen : Int) : Option (CStr × Int) :=
  match sb.ptr with
  | none =>
    if sb.len ≤ sb.buf.length then
      (copyAt (freshBlock junk newlen) 0 (sb.buf.take sb.len.toNat)).map fun p => (p, newlen)
    else none
  | some p => some (if size > sb.ptrlen then (grownBlock junk p newlen, newlen) else (p, sb.ptrlen))

/-- `r_strbuf_append`, for a string whose length an `int` holds. -/
def rStrbufAppend (junk : Nat → Char) (sb : RStrBuf) (s : CStr) : Option (RStrBuf × Bool) := do
  let l ← intSum s.length
  if l < 1 then some (sb, false)
  else do
    let size ← intSum (sb.len + l + 1)
    if size < 64 then do
      let buf ← copyAt sb.buf sb.len.toNat (s ++ [nul])
      some (⟨sb.len + l, none, sb.ptrlen, buf⟩, true)
    else do
      let newlen ← intSum (sb.len + l + 128)
      let (p, ptrlen) ← blockForAppend junk sb size newlen
      let p ← copyAt p sb.len.toNat (s ++ [nul])
      some (⟨sb.len + l, some p, ptrlen, sb.buf⟩, true)

/-- `r_strbuf_get`, the memory from where it points. -/
def rStrbufGet (sb : RStrBuf) : CStr := sb.ptr.getD sb.buf

inductive StrBufCall where
  | set (s : Option CStr)
  | append (s : CStr)

def StrBufCall.Clean : StrBufCall → Prop
  | .set s => ∀ t ∈ s, nul ∉ t
  | .append s => nul ∉ s

/-- The text after a call. -/
def StrBufCall.text (t : CStr) : StrBufCall → CStr
  | .set s => s.getD []
  | .append s => t ++ s

def callStrBuf (junk : Nat → Char) (sb : RStrBuf) : StrBufCall → Option RStrBuf
  | .set s => (rStrbufSet junk sb s).map (·.1)
  | .append s => (rStrbufAppend junk sb s).map (·.1)

/-- A run of calls; what fresh memory holds may depend on all that came before. -/
def callsStrBuf (junk : RStrBuf → Nat → Char) (sb : RStrBuf) (calls : List StrBufCall) : Option RStrBuf :=
  calls.foldlM (fun sb call => callStrBuf (junk sb) sb call) sb

/-- The concatenation of the last string that was set and everything that was appended since. -/
def callsText (calls : List StrBufCall) : CStr := calls.foldl StrBufCall.text []

/-- What the buffer shows is the text. -/
def RStrBuf.Shows (sb : RStrBuf) (text : CStr) : Prop :=
  strlenAt nul (rStrbufGet sb) 0 = some text.length ∧ textAt nul (rStrbufGet sb) 0 = text ∧ sb.len = text.length

/-- The sizes that a call computes fit an `int`. -/
def StrBufCall.Fits (t : CStr) : StrBufCall → Prop
  | .set s => ∀ u ∈ s, u.length + 1 ≤ 2147483647
  | .append s => s ≠ [] → t.length + s.length + 128 ≤ 2147483647

def CallsFit : CStr → List StrBufCall → Prop
  | _, [] => True
  | t, call :: calls => call.Fits t ∧ CallsFit (call.text t) calls

/-- The text is at the start of the memory that is live. A block is live only for a text that `r_strbuf_append` would
not bring back to `buf`. -/
structure RStrBuf.Holds (sb : RStrBuf) (text : CStr) : Prop where
  len : sb.len = text.length
  room : sb.buf.length = 64
  inline : sb.ptr = none → text.length < 64 ∧ text ++ [nul] <+: sb.buf
  block : ∀ p, sb.ptr = some p → 63 ≤ text.length ∧ sb.ptrlen = p.length ∧ text ++ [nul] <+: p

theorem intSum_of_le {n : Nat} (h : n ≤ 2147483647) : intSum (n : Int) = some (n : Int) := if_pos (by omega)

theorem intSum_of_lt {n : Nat} (h : 2147483647 < n) : intSum (n : Int) = none := if_neg (by omega)

theorem length_freshBlock (junk : Nat → Char) (n : Nat) : (freshBlock junk n).length = n := by simp [freshBlock]

theorem length_grownBlock (junk : Nat → Char) (p : CStr) (n : Nat) : (grownBlock junk p n).length = n := by
  rw [grownBlock, List.length_append, List.length_drop, length_freshBlock, List.length_take, Int.toNat_natCast]
  omega

theorem prefix_grownBlock (junk : Nat → Char) {s p : CStr} {n : Nat} (h : s <+: p) (hn : s.length ≤ n) :
    s <+: grownBlock junk p n :=
  (List.prefix_take_iff.mpr ⟨h, by simpa using hn⟩).trans (List.prefix_append _ _)

theorem copyAt_start (mem s : CStr) (h : s.length ≤ mem.length) :
    ∃ mem', copyAt mem 0 s = some mem' ∧ mem'.length = mem.length ∧ s <+: mem' := by
  simpa using copyAt_prefix s (@List.nil_prefix _ mem) (by simpa using h)

section Steps

variable {junk : Nat → Char} {sb sb' : RStrBuf} {text s : CStr}

theorem rStrbufInit_holds : rStrbufInit.Holds [] := by
  refine ⟨rfl, rfl, fun _ => ⟨by decide, by decide⟩, fun p hp => ?_⟩
  cases hp

/-- The memory that is live begins with the text. -/
theorem RStrBuf.Holds.live (h : sb.Holds text) : text ++ [nul] <+: rStrbufGet sb := by
  cases hp : sb.ptr with
  | none => simpa [rStrbufGet, hp] using (h.inline hp).2
  | some p => simpa [rStrbufGet, hp] using (h.block p hp).2.2

theorem RStrBuf.Holds.shows (h : sb.Holds text) (hclean : nul ∉ text) : sb.Shows text := by
  obtain ⟨rest, hrest⟩ := h.live
  rw [List.append_assoc, List.singleton_append] at hrest
  refine ⟨?_, ?_, h.len⟩
  · rw [← hrest, strlenAt_start hclean]
  · rw [← hrest]
    exact textAt_eq hclean [] rest

theorem rStrbufSet_short (junk : Nat → Char) (h : sb.Holds text) (hs : s.length < 64) :
    ∃ sb', rStrbufSet junk sb (some s) = some (sb', true) ∧ sb'.Holds s := by
  obtain ⟨buf, hbuf, hlen, hstart⟩ := copyAt_start sb.buf (s ++ [nul]) (by simp [h.room]; omega)
  refine ⟨⟨s.length, none, sb.ptrlen, buf⟩, ?_, rfl, hlen.trans h.room, fun _ => ⟨hs, hstart⟩, fun p hp => ?_⟩
  · simp only [rStrbufSet, intSum_of_le (show s.length ≤ 2147483647 by omega), Option.bind_eq_bind, Option.bind_some]
    rw [if_neg (by omega), hbuf, Option.bind_some]
  · cases hp

theorem blockForSet_spec (junk : Nat → Char) (h : sb.Holds text) (size : Nat) :
    (blockForSet junk sb size).2 = (blockForSet junk sb size).1.length ∧ size ≤ (blockForSet junk sb size).1.length := by
  unfold blockForSet
  cases hp : sb.ptr with
  | none => simp [length_freshBlock]
  | some p =>
    obtain ⟨-, hplen, -⟩ := h.block p hp
    by_cases hgt : (size : Int) > sb.ptrlen
    · simp [hgt, length_freshBlock]
    · simp only [hgt, if_false]
      omega

theorem rStrbufSet_long (junk : Nat → Char) (h : sb.Holds text) (hs : 64 ≤ s.length) (hfit : s.length + 1 ≤ 2147483647) :
    ∃ sb', rStrbufSet junk sb (some s) = some (sb', true) ∧ sb'.Holds s := by
  obtain ⟨hplen, hroom⟩ := blockForSet_spec junk h (s.length + 1)
  obtain ⟨p, hp, hlen, hstart⟩ := copyAt_start (blockForSet junk sb (s.length + 1 : Nat)).1 (s ++ [nul])
    (by simpa using hroom)
  refine ⟨⟨s.length, some p, (blockForSet junk sb (s.length + 1 : Nat)).2, sb.buf⟩, ?_, rfl, h.room, fun hnone => ?_, ?_⟩
  · have hsize : intSum ((s.length : Int) + 1) = some ((s.length + 1 : Nat) : Int) := intSum_of_le hfit
    simp only [rStrbufSet, intSum_of_le (show s.length ≤ 2147483647 by omega), hsize, hp, Option.bind_eq_bind,
      Option.bind_some]
    exact if_pos (by omega)
  · cases hnone
  · rintro q ⟨⟩
    exact ⟨by omega, by rw [hlen, hplen], hstart⟩

theorem rStrbufSet_overflow (hs : s.length = 2147483647) : rStrbufSet junk sb (some s) = none := by
  have hsize : intSum ((s.length : Int) + 1) = none := intSum_of_lt (n := s.length + 1) (by omega)
  simp only [rStrbufSet, intSum_of_le (show s.length ≤ 2147483647 by omega), hsize, Option.bind_eq_bind,
    Option.bind_some, Option.bind_none]
  exact if_pos (by omega)

theorem rStrbufAppend_short (junk : Nat → Char) (h : sb.Holds text) (hs : s ≠ []) (hfit : text.length + s.length + 1 < 64) :
    ∃ sb', rStrbufAppend junk sb s = some (sb', true) ∧ sb'.Holds (text ++ s) := by
  have hpos := List.length_pos_iff.mpr hs
  have hinline : sb.ptr = none := by
    cases hp : sb.ptr with
    | none => rfl
    | some p =>
      have hlong := (h.block p hp).1
      omega
  obtain ⟨buf, hbuf, hlen, hstart⟩ := copyAt_prefix (s ++ [nul])
    ((List.prefix_append text [nul]).trans (h.inline hinline).2) (by rw [h.room, List.length_append, List.length_singleton]; omega)
  rw [← List.append_assoc] at hstart
  have hsum : (text.length : Int) + s.length = ((text ++ s).length : Nat) := by simp
  refine ⟨⟨text.length + s.length, none, sb.ptrlen, buf⟩, ?_, hsum, hlen.trans h.room, fun _ => ⟨?_, hstart⟩,
    fun p hp => ?_⟩
  · have hsize : intSum ((text.length : Int) + s.length + 1) = some ((text.length + s.length + 1 : Nat) : Int) :=
      intSum_of_le (n := text.length + s.length + 1) (by omega)
    simp only [rStrbufAppend, h.len, intSum_of_le (show s.length ≤ 2147483647 by omega), hsize, hbuf, Int.toNat_natCast,
      Option.bind_eq_bind, Option.bind_some]
    rw [if_neg (by omega), if_pos (by omega)]
  · rw [List.length_append]
    omega
  · cases hp

theorem blockForAppend_spec (junk : Nat → Char) (h : sb.Holds text) (size newlen : Nat) (htext : text.length ≤ newlen) (hsize : size ≤ newlen) :
    ∃ p, blockForAppend junk sb size newlen = some (p, (p.length : Int)) ∧ size ≤ p.length ∧ text <+: p := by
  unfold blockForAppend
  cases hp : sb.ptr with
  | none =>
    obtain ⟨hshort, hstart⟩ := h.inline hp
    have htake : sb.buf.take sb.len.toNat = text := by
      rw [h.len, Int.toNat_natCast]
      exact (List.prefix_iff_eq_take.mp ((List.prefix_append text [nul]).trans hstart)).symm
    obtain ⟨p, hcopy, hlen, hbegins⟩ := copyAt_start (freshBlock junk newlen) text
      (by simpa [length_freshBlock] using htext)
    rw [length_freshBlock] at hlen
    refine ⟨p, ?_, by omega, hbegins⟩
    simp only [htake, hcopy, Option.map_some, hlen]
    exact if_pos (by rw [h.len, h.room]; omega)
  | some p =>
    obtain ⟨-, hplen, hstart⟩ := h.block p hp
    have hbegins := (List.prefix_append text [nul]).trans hstart
    by_cases hgt : (size : Int) > sb.ptrlen
    · refine ⟨grownBlock junk p newlen, ?_, ?_, prefix_grownBlock junk hbegins htext⟩
      · simp only [hgt, if_true, length_grownBlock]
      · rwa [length_grownBlock]
    · refine ⟨p, ?_, by omega, hbegins⟩
      simp only [hgt, if_false]
      rw [hplen]

theorem rStrbufAppend_long (junk : Nat → Char) (h : sb.Holds text) (hs : s ≠ []) (hlong : 64 ≤ text.length + s.length + 1)
    (hfit : text.length + s.length + 128 ≤ 2147483647) :
    ∃ sb', rStrbufAppend junk sb s = some (sb', true) ∧ sb'.Holds (text ++ s) := by
  have hpos := List.length_pos_iff.mpr hs
  obtain ⟨p, hblock, hroom, hbegins⟩ := blockForAppend_spec junk h (text.length + s.length + 1)
    (text.length + s.length + 128) (by omega) (by omega)
  obtain ⟨p', hcopy, hlen, hstart⟩ := copyAt_prefix (s ++ [nul]) hbegins
    (by rw [List.length_append, List.length_singleton]; omega)
  rw [← List.append_assoc] at hstart
  have hsum : (text.length : Int) + s.length = ((text ++ s).length : Nat) := by simp
  refine ⟨⟨text.length + s.length, some p', p.length, sb.buf⟩, ?_, hsum, h.room, fun hnone => ?_, ?_⟩
  · have hsize : intSum ((text.length : Int) + s.length + 1) = some ((text.length + s.length + 1 : Nat) : Int) :=
      intSum_of_le (n := text.length + s.length + 1) (by omega)
    have hnew : intSum ((text.length : Int) + s.length + 128) = some ((text.length + s.length + 128 : Nat) : Int) :=
      intSum_of_le (n := text.length + s.length + 128) hfit
    simp only [rStrbufAppend, h.len, intSum_of_le (show s.length ≤ 2147483647 by omega), hsize, hnew, hblock, hcopy,
      Int.toNat_natCast, Option.bind_eq_bind, Option.bind_some]
    rw [if_neg (by omega), if_neg (by omega)]
  · cases hnone
  · rintro q ⟨⟩
    exact ⟨by rw [List.length_append]; omega, by rw [hlen], hstart⟩

theorem rStrbufAppend_overflow (h : sb.Holds text) (hs : s ≠ []) (hlen : s.length ≤ 2147483647)
    (hfit : 2147483647 < text.length + s.length + 128) : rStrbufAppend junk sb s = none := by
  have hpos := List.length_pos_iff.mpr hs
  have hnew : intSum ((text.length : Int) + s.length + 128) = none :=
    intSum_of_lt (n := text.length + s.length + 128) hfit
  simp only [rStrbufAppend, h.len, intSum_of_le hlen, hnew, Option.bind_eq_bind, Option.bind_some, Option.bind_none]
  rw [if_neg (by omega)]
  cases hsize : intSum ((text.length : Int) + s.length + 1) with
  | none => rfl
  | some size =>
    have hbig : ¬ size < 64 := by
      unfold intSum at hsize
      split_ifs at hsize
      rw [← Option.some.inj hsize]
      omega
    exact if_neg hbig

/-- A call leaves the new text in the buffer if its sizes fit, and overflows otherwise. -/
theorem callStrBuf_step (junk : Nat → Char) (call : StrBufCall) (h : sb.Holds text) (hlen : (call.text text).length ≤ 2147483647) :
    (call.Fits text → ∃ sb', callStrBuf junk sb call = some sb' ∧ sb'.Holds (call.text text)) ∧
      (¬ call.Fits text → callStrBuf junk sb call = none) := by
  cases call with
  | set s =>
    cases s with
    | none => exact ⟨fun _ => ⟨_, rfl, rStrbufInit_holds⟩, fun hno => absurd (fun u hu => by cases hu) hno⟩
    | some s =>
      change s.length ≤ 2147483647 at hlen
      constructor
      · intro hfits
        have hfit : s.length + 1 ≤ 2147483647 := hfits s rfl
        by_cases hshort : s.length < 64
        · obtain ⟨sb', hset, hholds⟩ := rStrbufSet_short junk h hshort
          exact ⟨sb', by rw [callStrBuf, hset]; rfl, hholds⟩
        · obtain ⟨sb', hset, hholds⟩ := rStrbufSet_long junk h (by omega) hfit
          exact ⟨sb', by rw [callStrBuf, hset]; rfl, hholds⟩
      · intro hno
        have hfull : s.length = 2147483647 := by
          by_contra hne
          refine hno ?_
          rintro u ⟨⟩
          omega
        rw [callStrBuf, rStrbufSet_overflow hfull]
        rfl
  | append s =>
    rw [StrBufCall.text, List.length_append] at hlen
    by_cases hnil : s = []
    · subst hnil
      refine ⟨fun _ => ⟨sb, rfl, ?_⟩, fun hno => absurd (fun hne => absurd rfl hne) hno⟩
      rwa [StrBufCall.text, List.append_nil]
    · constructor
      · intro hfits
        have hfit : text.length + s.length + 128 ≤ 2147483647 := hfits hnil
        by_cases hshort : text.length + s.length + 1 < 64
        · obtain ⟨sb', happend, hholds⟩ := rStrbufAppend_short junk h hnil hshort
          exact ⟨sb', by rw [callStrBuf, happend]; rfl, hholds⟩
        · obtain ⟨sb', happend, hholds⟩ := rStrbufAppend_long junk h hnil (by omega) hfit
          exact ⟨sb', by rw [callStrBuf, happend]; rfl, hholds⟩
      · intro hno
        have hover : 2147483647 < text.length + s.length + 128 := by
          by_contra hle
          exact hno fun _ => by omega
        rw [callStrBuf, rStrbufAppend_overflow h hnil (by omega) hover]
        rfl

end Steps

section Runs

variable {junk : RStrBuf → Nat → Char} {sb : RStrBuf} {text : CStr} {calls : List StrBufCall}

theorem callsStrBuf_run (junk : RStrBuf → Nat → Char) (h : sb.Holds text)
    (hlen : ∀ done, done <+: calls → (done.foldl StrBufCall.text text).length ≤ 2147483647) :
    (CallsFit text calls → ∃ sb', callsStrBuf junk sb calls = some sb' ∧ sb'.Holds (calls.foldl StrBufCall.text text)) ∧
      (¬ CallsFit text calls → callsStrBuf junk sb calls = none) := by
  induction calls generalizing sb text with
  | nil => exact ⟨fun _ => ⟨sb, rfl, h⟩, fun hno => absurd trivial hno⟩
  | cons call calls ih =>
    obtain ⟨hgoes, hstops⟩ := callStrBuf_step (junk sb) call h (hlen [call] ⟨calls, rfl⟩)
    have hrest : ∀ done, done <+: calls → (done.foldl StrBufCall.text (call.text text)).length ≤ 2147483647 :=
      fun done hdone => hlen (call :: done) (List.cons_prefix_cons.mpr ⟨rfl, hdone⟩)
    by_cases hfit : call.Fits text
    · obtain ⟨sb', hcall, hholds⟩ := hgoes hfit
      obtain ⟨hgo, hstop⟩ := ih hholds hrest
      have hrun : callsStrBuf junk sb (call :: calls) = callsStrBuf junk sb' calls := by
        rw [callsStrBuf, List.foldlM_cons, hcall]
        rfl
      rw [hrun]
      exact ⟨fun hall => hgo hall.2, fun hno => hstop fun hall => hno ⟨hfit, hall⟩⟩
    · refine ⟨fun hall => absurd hall.1 hfit, fun _ => ?_⟩
      rw [callsStrBuf, List.foldlM_cons, hstops hfit]
      rfl

theorem clean_callsText {t : CStr} (ht : nul ∉ t) (hclean : ∀ call ∈ calls, call.Clean) :
    nul ∉ calls.foldl StrBufCall.text t := by
  induction calls generalizing t with
  | nil => exact ht
  | cons call calls ih =>
    refine ih ?_ fun c hc => hclean c (List.mem_cons_of_mem _ hc)
    have hcall := hclean call List.mem_cons_self
    cases call with
    | set s =>
      cases s with
      | none => exact List.not_mem_nil
      | some s => exact hcall s rfl
    | append s => exact fun hmem => (List.mem_append.mp hmem).elim ht hcall

end Runs

/-- The buffer shows the text of every run in which no call overflows, and of no other one. -/
theorem callsStrBuf_shows_iff (junk : RStrBuf → Nat → Char) (calls : List StrBufCall) (hclean : ∀ call ∈ calls, call.Clean)
    (hlen : ∀ done, done <+: calls → (callsText done).length < 2147483648) :
    (∃ sb, callsStrBuf junk rStrbufInit calls = some sb ∧ sb.Shows (callsText calls)) ↔ CallsFit [] calls := by
  obtain ⟨hgo, hstop⟩ := callsStrBuf_run junk rStrbufInit_holds fun done hdone => by
    have hdone := hlen done hdone
    rw [callsText] at hdone
    omega
  constructor
  · rintro ⟨sb, hsb, -⟩
    by_contra hno
    rw [hstop hno] at hsb
    cases hsb
  · intro hfit
    obtain ⟨sb, hsb, hholds⟩ := hgo hfit
    exact ⟨sb, hsb, hholds.shows (clean_callsText List.not_mem_nil hclean)⟩

/-- The second call moves the text out of the inline buffer. -/
theorem callsStrBuf_shows_iff_two :
    ∃ sb, callsStrBuf (fun _ _ => '?') rStrbufInit
        [.set (some (List.replicate 60 'a')), .append (List.replicate 90 'b')] = some sb ∧
      sb.Shows (List.replicate 60 'a' ++ List.replicate 90 'b') := by
  obtain ⟨s, hs⟩ : ∃ s, s = List.replicate 60 'a' := ⟨_, rfl⟩
  obtain ⟨t, ht⟩ : ∃ t, t = List.replicate 90 'b' := ⟨_, rfl⟩
  have hslen : s.length = 60 := by rw [hs, List.length_replicate]
  have htlen : t.length = 90 := by rw [ht, List.length_replicate]
  have hsclean : nul ∉ s := by
    rw [hs]
    exact fun hmem => absurd (List.eq_of_mem_replicate hmem) (by decide)
  have htclean : nul ∉ t := by
    rw [ht]
    exact fun hmem => absurd (List.eq_of_mem_replicate hmem) (by decide)
  rw [← hs, ← ht]
  refine (callsStrBuf_shows_iff (fun _ _ => '?') [.set (some s), .append t] ?_ ?_).mpr ?_
  · simp [StrBufCall.Clean, hsclean, htclean]
  · intro done hdone
    simp only [List.prefix_cons_iff, List.prefix_nil] at hdone
    rcases hdone with rfl | ⟨-, rfl, rfl | ⟨-, rfl, rfl⟩⟩
    all_goals simp [callsText, StrBufCall.text, hslen, htlen]
  · simp [CallsFit, StrBufCall.Fits, StrBufCall.text, hslen, htlen]

/-- A string of the largest length that an `int` holds has no room for its terminator. -/
theorem set_overflows :
    ¬ ∀ (junk : RStrBuf → Nat → Char) (calls : List StrBufCall), (∀ call ∈ calls, call.Clean) →
      (∀ done, done <+: calls → (callsText done).length < 2147483648) →
      ∃ sb, callsStrBuf junk rStrbufInit calls = some sb ∧ sb.Shows (callsText calls) := by
  intro h
  obtain ⟨s, hs⟩ : ∃ s, s = List.replicate 2147483647 'a' := ⟨_, rfl⟩
  have hlen : s.length = 2147483647 := by rw [hs, List.length_replicate]
  have hclean : nul ∉ s := by
    rw [hs]
    exact fun hmem => absurd (List.eq_of_mem_replicate hmem) (by decide)
  obtain ⟨sb, hrun, -⟩ := h (fun _ _ => nul) [.set (some s)] (by simpa [StrBufCall.Clean] using hclean) fun done hdone => by
    have hparts : done = [] ∨ done = [.set (some s)] := by simpa [List.prefix_cons_iff] using hdone
    rcases hparts with rfl | rfl
    · exact Nat.succ_pos _
    · exact Nat.lt_succ_of_le (Nat.le_of_eq hlen)
  have hnone : callStrBuf (fun _ => nul) rStrbufInit (.set (some s)) = none := by
    rw [callStrBuf, rStrbufSet_overflow hlen]
    rfl
  rw [callsStrBuf, List.foldlM_cons, hnone] at hrun
  cases hrun

end Radare
