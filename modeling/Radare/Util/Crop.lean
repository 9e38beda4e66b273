import Radare.Util.StrEscape

namespace Radare

open Framework.TextBuffer

/-- `if (p) *r++ = c`. -/
def keepIf (p : Prop) [Decidable p] (mem : EscText) (r : Nat) (c : Ut8) : Option (EscText × Nat) :=
  if p then (storeAt mem r c).map (fun mem => (mem, r + 1)) else some (mem, r)

/-- An `unsigned int` after `++`. -/
def nextUnsigned (n : Nat) : Nat := (n + 1) % 4294967296

/-- The loop of `r_str_crop` over the rest of the text; `r` is a place of the copy. -/
def cropLoop (x y x2 y2 : Nat) : Nat → EscText → EscText → Nat → Nat → Nat → Option (EscText × Nat)
  | 0, _, _, _, _, _ => none
  | _ + 1, [], mem, r, _, _ => some (mem, r)
  | turns + 1, c :: str, mem, r, ch, cw =>
    if y2 ≤ ch then
      -- `r--` from the start of the copy leaves it
      if r = 0 then none else some (mem, r - 1)
    else if c = byteOf '\n' then do
      let (mem, r) ← keepIf (y ≤ ch ∧ ch < y2) mem r c
      cropLoop x y x2 y2 turns str mem r (nextUnsigned ch) 0
    else do
      let (mem, r) ← keepIf (y ≤ ch ∧ ch < y2 ∧ x ≤ cw ∧ cw < x2) mem r c
      if x2 ≤ cw then
        cropLoop x y x2 y2 turns ((c :: str).dropWhile (· ≠ byteOf '\n')) mem r ch (nextUnsigned cw)
      else cropLoop x y x2 y2 turns str mem r ch (nextUnsigned cw)

/-- `r_str_crop`, the block that it returns. -/
def rStrCrop (str : EscText) (x y x2 y2 : Ut32) : Option EscText :=
  if x2.toNat < 1 ∨ y2.toNat < 1 then some [0]
  else do
    let (mem, r) ← cropLoop x.toNat y.toNat x2.toNat y2.toNat (str.length + 1) str (str ++ [0]) 0 0 0
    storeAt mem r 0

def textLines (s : EscText) : List EscText := s.splitOn (byteOf '\n')

/-- The columns `x` to `x2 - 1` of a line. -/
def lineColumns (x x2 : Nat) (l : EscText) : EscText := (l.take x2).drop x

/-- The lines `y` to `y2 - 1` reduced to the columns `x` to `x2 - 1`. -/
def cropText (x y x2 y2 : Nat) (s : EscText) : EscText :=
  if x2 ≤ x ∨ y2 ≤ y then []
  else [byteOf '\n'].intercalate ((((textLines s).take y2).drop y).map (lineColumns x x2))

/-- The text has more than its end behind its newline number `y2`. -/
def GoesOn (y2 : Nat) (s : EscText) : Prop := (textLines s).drop y2 ≠ [] ∧ (textLines s).drop y2 ≠ [[]]

instance (y2 : Nat) (s : EscText) : Decidable (GoesOn y2 s) := inferInstanceAs (Decidable (_ ∧ _))

/-- The newlines number `y` to `y2 - 1` of the text; the last of them goes again where the text goes on. -/
def keptNewlines (y y2 : Nat) (s : EscText) : Nat :=
  min (s.count (byteOf '\n')) y2 - y - if GoesOn y2 s then 1 else 0

section Loop

variable {x y x2 y2 ch : Nat}

theorem nextUnsigned_of_lt {n m : Nat} (h : n < m) (hm : m < 4294967296) : nextUnsigned n = n + 1 :=
  Nat.mod_eq_of_lt (by omega)

theorem keepIf_pos {p : Prop} [Decidable p] (hp : p) (out free : EscText) (c d : Ut8) :
    keepIf p (out ++ d :: free) out.length c = some (out ++ [c] ++ free, (out ++ [c]).length) := by
  rw [keepIf, if_pos hp, storeAt_here]
  simp

theorem keepIf_neg {p : Prop} [Decidable p] (hp : ¬p) (mem : EscText) (r : Nat) (c : Ut8) :
    keepIf p mem r c = some (mem, r) := if_neg hp

theorem dropWhile_line {l tail : EscText} (hl : byteOf '\n' ∉ l) (htail : ∀ c rest, tail = c :: rest → c = byteOf '\n') :
    (l ++ tail).dropWhile (· ≠ byteOf '\n') = tail := by
  have hpos : ∀ c ∈ l, decide (c ≠ byteOf '\n') = true := fun c hc => decide_eq_true (fun he => hl (he ▸ hc))
  rw [List.dropWhile_append_of_pos hpos]
  cases tail with
  | nil => rfl
  | cons c rest => rw [List.dropWhile_cons_of_neg (by simp [htail c rest rfl])]

/-- A line from its column `cw` on, up to its newline or the end of the text. -/
theorem cropLoop_line (x y : Nat) (hx2 : x2 < 4294967296) (hch : ch < y2) {l : EscText} (tail : EscText) (hl : byteOf '\n' ∉ l)
    (htail : ∀ c rest, tail = c :: rest → c = byteOf '\n') (turns cw : Nat) (out free : EscText)
    (hturns : l.length + tail.length < turns) (hfree : l.length + tail.length < free.length) :
    ∃ turns' free' cw', tail.length < turns' ∧ tail.length < free'.length ∧
      cropLoop x y x2 y2 turns (l ++ tail) (out ++ free) out.length ch cw =
        cropLoop x y x2 y2 turns' tail
          (out ++ (if y ≤ ch then (l.take (x2 - cw)).drop (x - cw) else []) ++ free')
          (out ++ if y ≤ ch then (l.take (x2 - cw)).drop (x - cw) else []).length ch cw' := by
  induction l generalizing turns cw out free with
  | nil =>
    rw [List.length_nil, Nat.zero_add] at hturns hfree
    exact ⟨turns, free, cw, hturns, hfree, by simp⟩
  | cons c l ih =>
    obtain ⟨hc, hl'⟩ := not_or.mp (fun h => hl (List.mem_cons.mpr h))
    rw [List.length_cons] at hturns hfree
    obtain ⟨turns, rfl⟩ := Nat.exists_eq_succ_of_ne_zero (Nat.ne_of_gt (Nat.zero_lt_of_lt hturns))
    obtain ⟨d, free, rfl⟩ := List.exists_cons_of_length_pos (Nat.zero_lt_of_lt hfree)
    rw [List.length_cons] at hfree
    rw [List.cons_append, cropLoop, if_neg (Nat.not_le.mpr hch), if_neg (Ne.symm hc)]
    by_cases hcw : cw < x2
    · have htake : (c :: l).take (x2 - cw) = c :: l.take (x2 - (cw + 1)) := by
        rw [show x2 - cw = x2 - (cw + 1) + 1 by omega, List.take_succ_cons]
      rw [htake]
      by_cases hkeep : y ≤ ch ∧ ch < y2 ∧ x ≤ cw ∧ cw < x2
      · obtain ⟨turns', free', cw', ht, hf, hrun⟩ := ih hl' turns (cw + 1) (out ++ [c]) free (by omega) (by omega)
        refine ⟨turns', free', cw', ht, hf, ?_⟩
        rw [keepIf_pos hkeep, Option.bind_eq_bind, Option.bind_some]
        dsimp only
        rw [if_neg (Nat.not_le.mpr hcw), nextUnsigned_of_lt hcw hx2, hrun, if_pos hkeep.1, if_pos hkeep.1,
          show x - cw = 0 by omega, show x - (cw + 1) = 0 by omega]
        simp
      · obtain ⟨turns', free', cw', ht, hf, hrun⟩ := ih hl' turns (cw + 1) out (d :: free) (by omega)
          (by rw [List.length_cons]; omega)
        refine ⟨turns', free', cw', ht, hf, ?_⟩
        have hsame : (if y ≤ ch then (c :: l.take (x2 - (cw + 1))).drop (x - cw) else []) =
            if y ≤ ch then (l.take (x2 - (cw + 1))).drop (x - (cw + 1)) else [] := by
          by_cases hy : y ≤ ch
          · rw [if_pos hy, if_pos hy, show x - cw = x - (cw + 1) + 1 by omega, List.drop_succ_cons]
          · rw [if_neg hy, if_neg hy]
        rw [keepIf_neg hkeep, Option.bind_eq_bind, Option.bind_some]
        dsimp only
        rw [if_neg (Nat.not_le.mpr hcw), nextUnsigned_of_lt hcw hx2, hrun, hsame]
    · have hskip : (c :: (l ++ tail)).dropWhile (· ≠ byteOf '\n') = tail := dropWhile_line hl htail
      refine ⟨turns, d :: free, nextUnsigned cw, by omega, by rw [List.length_cons]; omega, ?_⟩
      rw [keepIf_neg (by omega), Option.bind_eq_bind, Option.bind_some]
      dsimp only
      rw [if_pos (Nat.not_lt.mp hcw), hskip,
        show x2 - cw = 0 by omega, List.take_zero, List.drop_nil, ite_self, List.append_nil]

theorem textLines_append {l : EscText} (h : byteOf '\n' ∉ l) (s : EscText) :
    textLines (l ++ byteOf '\n' :: s) = l :: textLines s :=
  List.splitOn_append_cons_self_of_not_mem h s

theorem textLines_line {l : EscText} (h : byteOf '\n' ∉ l) : textLines l = [l] := List.splitOn_eq_singleton h

theorem textLines_ne_nil (s : EscText) : textLines s ≠ [] := List.splitOn_ne_nil _ _

theorem textLines_eq_empty {s : EscText} : textLines s = [[]] ↔ s = [] := by
  constructor
  · intro h
    have hjoin : [byteOf '\n'].intercalate (textLines s) = s := List.intercalate_splitOn (byteOf '\n')
    rw [← hjoin, h]
    rfl
  · rintro rfl
    rfl

theorem goesOn_zero {s : EscText} : GoesOn 0 s ↔ s ≠ [] := by
  rw [GoesOn, List.drop_zero, Ne, Ne, textLines_eq_empty]
  exact and_iff_right (textLines_ne_nil s)

theorem goesOn_line {l : EscText} (h : byteOf '\n' ∉ l) {n : Nat} (hn : 0 < n) : ¬GoesOn n l := by
  rw [GoesOn, textLines_line h, List.drop_eq_nil_of_le (by rw [List.length_singleton]; omega)]
  exact fun hgo => hgo.1 rfl

theorem goesOn_next {l : EscText} (h : byteOf '\n' ∉ l) (n : Nat) (s : EscText) :
    GoesOn (n + 1) (l ++ byteOf '\n' :: s) ↔ GoesOn n s := by
  rw [GoesOn, GoesOn, textLines_append h, List.drop_succ_cons]

/-- What the loop adds to the text from the line `ch` on. -/
def cropFrom (x y x2 y2 ch : Nat) (s : EscText) : EscText :=
  [byteOf '\n'].intercalate ((((textLines s).take (y2 - ch)).drop (y - ch)).map (lineColumns x x2)) ++
    if (textLines s).drop (y2 - ch) = [[]] then [byteOf '\n'] else []

theorem cropFrom_line (hch : ch < y2) {l : EscText} (hl : byteOf '\n' ∉ l) :
    cropFrom x y x2 y2 ch l = if y ≤ ch then lineColumns x x2 l else [] := by
  rw [cropFrom, textLines_line hl, List.take_of_length_le (by rw [List.length_singleton]; omega),
    List.drop_eq_nil_of_le (i := y2 - ch) (by rw [List.length_singleton]; omega), if_neg (by simp), List.append_nil]
  by_cases hy : y ≤ ch
  · rw [if_pos hy, show y - ch = 0 by omega]
    simp [List.intercalate]
  · rw [if_neg hy, List.drop_eq_nil_of_le (by rw [List.length_singleton]; omega)]
    rfl

/-- The line before the last of the window. -/
theorem cropFrom_last (hy : y ≤ ch) (hch : ch + 1 = y2) {l : EscText} (hl : byteOf '\n' ∉ l) (s : EscText) :
    cropFrom x y x2 y2 ch (l ++ byteOf '\n' :: s) =
      lineColumns x x2 l ++ if s = [] then [byteOf '\n'] else [] := by
  rw [cropFrom, textLines_append hl, show y2 - ch = 1 by omega, show y - ch = 0 by omega]
  simp [List.intercalate, textLines_eq_empty]

theorem cropFrom_next (hch : ch + 1 < y2) {l : EscText} (hl : byteOf '\n' ∉ l) (s : EscText) :
    cropFrom x y x2 y2 ch (l ++ byteOf '\n' :: s) =
      (if y ≤ ch then lineColumns x x2 l ++ [byteOf '\n'] else []) ++ cropFrom x y x2 y2 (ch + 1) s := by
  rw [cropFrom, cropFrom, textLines_append hl, show y2 - ch = y2 - (ch + 1) + 1 by omega, List.take_succ_cons,
    List.drop_succ_cons]
  by_cases hle : y ≤ ch
  · obtain ⟨a, L, hL⟩ := List.exists_cons_of_ne_nil (textLines_ne_nil s)
    rw [if_pos hle, show y - ch = 0 by omega, show y - (ch + 1) = 0 by omega, hL,
      show y2 - (ch + 1) = y2 - (ch + 2) + 1 by omega, List.take_succ_cons]
    simp [List.intercalate]
  · rw [if_neg hle, show y - ch = y - (ch + 1) + 1 by omega, List.drop_succ_cons, List.nil_append]

theorem cropLoop_newline (x y x2 : Nat) (hy2 : y2 < 4294967296) (hch : ch < y2) (turns cw : Nat) (s out free : EscText) (d : Ut8) :
    ∃ free', free.length ≤ free'.length ∧
      cropLoop x y x2 y2 (turns + 1) (byteOf '\n' :: s) (out ++ d :: free) out.length ch cw =
        cropLoop x y x2 y2 turns s (out ++ (if y ≤ ch then [byteOf '\n'] else []) ++ free')
          (out ++ if y ≤ ch then [byteOf '\n'] else []).length (ch + 1) 0 := by
  rw [cropLoop, if_neg (Nat.not_le.mpr hch), if_pos rfl, nextUnsigned_of_lt hch hy2]
  by_cases hy : y ≤ ch
  · refine ⟨free, Nat.le_refl _, ?_⟩
    rw [keepIf_pos ⟨hy, hch⟩, if_pos hy]
    rfl
  · refine ⟨d :: free, Nat.le_succ _, ?_⟩
    rw [keepIf_neg (fun h => hy h.1), if_neg hy, List.append_nil]
    rfl

/-- From the start of a line to the start of the next one. -/
theorem cropLoop_next (x y : Nat) (hx2 : x2 < 4294967296) (hy2 : y2 < 4294967296) (hch : ch < y2) {l : EscText}
    (hl : byteOf '\n' ∉ l) (turns : Nat) (s out free : EscText) (hturns : (l ++ byteOf '\n' :: s).length < turns)
    (hfree : (l ++ byteOf '\n' :: s).length < free.length) :
    ∃ turns' free', s.length < turns' ∧ s.length < free'.length ∧
      cropLoop x y x2 y2 turns (l ++ byteOf '\n' :: s) (out ++ free) out.length ch 0 =
        cropLoop x y x2 y2 turns' s
          (out ++ (if y ≤ ch then lineColumns x x2 l ++ [byteOf '\n'] else []) ++ free')
          (out ++ if y ≤ ch then lineColumns x x2 l ++ [byteOf '\n'] else []).length (ch + 1) 0 := by
  rw [List.length_append] at hturns hfree
  obtain ⟨turns1, free1, cw, ht, hf, hline⟩ := cropLoop_line x y hx2 hch (byteOf '\n' :: s) hl
    (fun c rest h => (List.cons.inj h).1.symm) turns 0 out free hturns hfree
  obtain ⟨turns1, rfl⟩ := Nat.exists_eq_succ_of_ne_zero (Nat.ne_of_gt (Nat.zero_lt_of_lt ht))
  obtain ⟨d, free1, rfl⟩ := List.exists_cons_of_length_pos (Nat.zero_lt_of_lt hf)
  obtain ⟨free2, hlen, hnewline⟩ := cropLoop_newline x y x2 hy2 hch turns1 cw s
    (out ++ if y ≤ ch then lineColumns x x2 l else []) free1 d
  rw [List.length_cons] at ht hf
  rw [List.length_cons] at hf
  refine ⟨turns1, free2, by omega, by omega, hline.trans (hnewline.trans ?_)⟩
  by_cases hy : y ≤ ch
  · simp only [if_pos hy, List.append_assoc]
  · simp only [if_neg hy, List.append_nil]

theorem cropLoop_last (x y : Nat) (hx2 : x2 < 4294967296) (hch : ch < y2) {l : EscText} (hl : byteOf '\n' ∉ l) (turns : Nat)
    (out free : EscText) (hturns : l.length < turns) (hfree : l.length < free.length) :
    ∃ d free', cropLoop x y x2 y2 turns l (out ++ free) out.length ch 0 =
      some (out ++ (if y ≤ ch then lineColumns x x2 l else []) ++ d :: free',
        (out ++ if y ≤ ch then lineColumns x x2 l else []).length) := by
  obtain ⟨turns1, free1, cw, ht, hf, hline⟩ := cropLoop_line x y hx2 hch [] hl
    (fun c rest h => absurd h (List.cons_ne_nil c rest).symm) turns 0 out free hturns hfree
  obtain ⟨turns1, rfl⟩ := Nat.exists_eq_succ_of_ne_zero (Nat.ne_of_gt (Nat.zero_lt_of_lt ht))
  obtain ⟨d, free1, rfl⟩ := List.exists_cons_of_length_pos (Nat.zero_lt_of_lt hf)
  rw [List.append_nil] at hline
  exact ⟨d, free1, hline⟩

/-- With lines in the window, the loop ends where the terminator belongs. -/
theorem cropLoop_window (hx2 : x2 < 4294967296) (hy2 : y2 < 4294967296) (hy : y < y2) (ch : Nat)
    (s : EscText) (hch : ch < y2) (turns : Nat) (out free : EscText) (hturns : s.length < turns) (hfree : s.length < free.length) :
    ∃ mem r after, cropLoop x y x2 y2 turns s (out ++ free) out.length ch 0 = some (mem, r) ∧
      storeAt mem r 0 = some (out ++ cropFrom x y x2 y2 ch s ++ 0 :: after) := by
  obtain ⟨n, hn⟩ : ∃ n, s.length = n := ⟨_, rfl⟩
  induction n using Nat.strong_induction_on generalizing ch s turns out free with
  | _ n ih =>
    by_cases hs : byteOf '\n' ∈ s
    · obtain ⟨l, t, rfl, hl⟩ := List.eq_append_cons_of_mem hs
      obtain ⟨turns1, free1, ht, hf, hnext⟩ := cropLoop_next x y hx2 hy2 hch hl turns t out free hturns hfree
      rw [hnext]
      by_cases hlast : ch + 1 = y2
      · have hle : y ≤ ch := by omega
        obtain ⟨turns1, rfl⟩ := Nat.exists_eq_succ_of_ne_zero (Nat.ne_of_gt (Nat.zero_lt_of_lt ht))
        obtain ⟨d, free1, rfl⟩ := List.exists_cons_of_length_pos (Nat.zero_lt_of_lt hf)
        rw [if_pos hle, cropFrom_last hle hlast hl]
        cases t with
        | nil =>
          refine ⟨_, _, free1, rfl, ?_⟩
          rw [storeAt_here, if_pos rfl, List.append_assoc]
        | cons c t =>
          have hback : cropLoop x y x2 y2 (turns1 + 1) (c :: t) (out ++ (lineColumns x x2 l ++ [byteOf '\n']) ++ d :: free1)
              (out ++ (lineColumns x x2 l ++ [byteOf '\n'])).length (ch + 1) 0 =
              some (out ++ (lineColumns x x2 l ++ [byteOf '\n']) ++ d :: free1,
                (out ++ (lineColumns x x2 l ++ [byteOf '\n'])).length - 1) := by
            rw [cropLoop, if_pos (by omega), if_neg (by simp)]
          refine ⟨_, _, d :: free1, hback, ?_⟩
          · rw [show (out ++ (lineColumns x x2 l ++ [byteOf '\n'])).length - 1 =
              (out ++ lineColumns x x2 l).length by simp]
            rw [← List.append_assoc, List.append_assoc _ [byteOf '\n'], List.singleton_append, storeAt_here,
              if_neg (List.cons_ne_nil c t), List.append_nil]
      · obtain ⟨mem, r, after, hrun, hstore⟩ := ih t.length (by rw [← hn]; simp; omega) (ch + 1) t
          (by omega) turns1 (out ++ if y ≤ ch then lineColumns x x2 l ++ [byteOf '\n'] else []) free1 ht hf rfl
        refine ⟨mem, r, after, hrun, ?_⟩
        rw [hstore, cropFrom_next (by omega) hl, List.append_assoc out]
    · obtain ⟨d, free1, hlast⟩ := cropLoop_last x y hx2 hch hs turns out free hturns hfree
      refine ⟨_, _, free1, hlast, ?_⟩
      rw [storeAt_here, cropFrom_line hch hs]

/-- With no lines in the window, the loop keeps nothing, and steps back from the start of the copy
exactly if the text goes on below it. -/
theorem cropLoop_empty (hx2 : x2 < 4294967296) (hy2 : y2 < 4294967296) (hy : y2 ≤ y) (ch : Nat)
    (s : EscText) (hch : ch ≤ y2) (turns : Nat) (free : EscText) (hturns : s.length < turns) (hfree : s.length < free.length) :
    if GoesOn (y2 - ch) s then cropLoop x y x2 y2 turns s free 0 ch 0 = none
    else ∃ d free', cropLoop x y x2 y2 turns s free 0 ch 0 = some (d :: free', 0) := by
  obtain ⟨n, hn⟩ : ∃ n, s.length = n := ⟨_, rfl⟩
  induction n using Nat.strong_induction_on generalizing ch s turns free with
  | _ n ih =>
    rcases Nat.eq_or_lt_of_le hch with hend | hlt
    · obtain ⟨turns, rfl⟩ := Nat.exists_eq_succ_of_ne_zero (Nat.ne_of_gt (Nat.zero_lt_of_lt hturns))
      obtain ⟨d, free, rfl⟩ := List.exists_cons_of_length_pos (Nat.zero_lt_of_lt hfree)
      rw [hend, Nat.sub_self]
      simp only [goesOn_zero]
      cases s with
      | nil =>
        rw [if_neg (not_not_intro rfl)]
        exact ⟨d, free, rfl⟩
      | cons c s =>
        rw [if_pos (List.cons_ne_nil c s), cropLoop, if_pos (Nat.le_refl _), if_pos rfl]
    · by_cases hs : byteOf '\n' ∈ s
      · obtain ⟨l, t, rfl, hl⟩ := List.eq_append_cons_of_mem hs
        obtain ⟨turns1, free1, ht, hf, hnext⟩ :=
          cropLoop_next x y hx2 hy2 hlt hl turns t [] free hturns hfree
        have hrest := ih t.length (by rw [← hn]; simp; omega) (ch + 1) t hlt turns1 free1 ht hf rfl
        rw [if_neg (by omega)] at hnext
        have hgoes : GoesOn (y2 - ch) (l ++ byteOf '\n' :: t) ↔ GoesOn (y2 - (ch + 1)) t := by
          rw [show y2 - ch = y2 - (ch + 1) + 1 by omega, goesOn_next hl]
        have hsame : cropLoop x y x2 y2 turns (l ++ byteOf '\n' :: t) free 0 ch 0 =
            cropLoop x y x2 y2 turns1 t free1 0 (ch + 1) 0 := hnext
        simp only [hgoes, hsame]
        exact hrest
      · obtain ⟨d, free1, hlast⟩ := cropLoop_last x y hx2 hlt hs turns [] free hturns hfree
        rw [if_neg (by omega)] at hlast
        rw [if_neg (goesOn_line hs (by omega))]
        exact ⟨d, free1, hlast⟩

end Loop

theorem mem_intercalate {a c : Ut8} {L : List EscText} (h : c ∈ [a].intercalate L) : c = a ∨ ∃ l ∈ L, c ∈ l := by
  induction L with
  | nil => cases h
  | cons l L ih =>
    cases L with
    | nil =>
      rw [List.intercalate_singleton] at h
      exact Or.inr ⟨l, List.mem_cons_self, h⟩
    | cons k L =>
      rw [List.intercalate_cons_cons, List.mem_append, List.mem_append, List.mem_singleton] at h
      rcases h with (h | h) | h
      · exact Or.inr ⟨l, List.mem_cons_self, h⟩
      · exact Or.inl h
      · rcases ih h with h | ⟨m, hm, hc⟩
        · exact Or.inl h
        · exact Or.inr ⟨m, List.mem_cons_of_mem _ hm, hc⟩

theorem mem_textLines {s l : EscText} (hl : l ∈ textLines s) {c : Ut8} (hc : c ∈ l) : c ∈ s := by
  obtain ⟨n, hn⟩ : ∃ n, s.length = n := ⟨_, rfl⟩
  induction n using Nat.strong_induction_on generalizing s with
  | _ n ih =>
    by_cases hs : byteOf '\n' ∈ s
    · obtain ⟨k, t, rfl, hk⟩ := List.eq_append_cons_of_mem hs
      rw [textLines_append hk] at hl
      rcases List.mem_cons.mp hl with rfl | hl
      · exact List.mem_append_left _ hc
      · have hmem := ih t.length (by rw [← hn]; simp; omega) hl rfl
        exact List.mem_append_right _ (List.mem_cons_of_mem _ hmem)
    · rw [textLines_line hs] at hl
      rwa [List.mem_singleton.mp hl] at hc

/-- Every byte that the loop keeps is one of the text, or a newline. -/
theorem cropFrom_clean {s : EscText} (hs : (0 : Ut8) ∉ s) (x y x2 y2 ch : Nat) : (0 : Ut8) ∉ cropFrom x y x2 y2 ch s := by
  intro h
  rcases List.mem_append.mp h with h | h
  · rcases mem_intercalate h with h | ⟨l, hl, hc⟩
    · exact absurd h (by decide)
    · obtain ⟨k, hk, rfl⟩ := List.mem_map.mp hl
      have hline := List.mem_of_mem_take (List.mem_of_mem_drop hk)
      have hmem := List.mem_of_mem_take (List.mem_of_mem_drop hc)
      exact hs (mem_textLines hline hmem)
  · split_ifs at h
    · exact absurd (List.mem_singleton.mp h) (by decide)
    · cases h

theorem length_textLines (s : EscText) : (textLines s).length = s.count (byteOf '\n') + 1 := by
  obtain ⟨n, hn⟩ : ∃ n, s.length = n := ⟨_, rfl⟩
  induction n using Nat.strong_induction_on generalizing s with
  | _ n ih =>
    by_cases hs : byteOf '\n' ∈ s
    · obtain ⟨l, t, rfl, hl⟩ := List.eq_append_cons_of_mem hs
      rw [textLines_append hl, List.length_cons, ih t.length (by rw [← hn]; simp; omega) t rfl, List.count_append,
        List.count_cons_self, List.count_eq_zero_of_not_mem hl]
      omega
    · rw [textLines_line hs, List.count_eq_zero_of_not_mem hs]
      rfl

theorem intercalate_empty (a : Ut8) (m : Nat) : [a].intercalate (List.replicate m []) = List.replicate (m - 1) a := by
  induction m with
  | zero => rfl
  | succ m ih =>
    cases m with
    | zero => rfl
    | succ m =>
      rw [List.replicate_succ, List.replicate_succ, List.intercalate_cons_cons, ← List.replicate_succ, ih]
      rfl

/-- Without columns the newlines are what is left. -/
theorem cropFrom_narrow {x y x2 y2 : Nat} (hx : x2 ≤ x) (hy : y < y2) (s : EscText) :
    cropFrom x y x2 y2 0 s = List.replicate (keptNewlines y y2 s) (byteOf '\n') := by
  have hlen := length_textLines s
  have hcols : (((textLines s).take y2).drop y).map (lineColumns x x2) =
      List.replicate (min y2 (textLines s).length - y) [] := by
    rw [List.eq_replicate_iff]
    constructor
    · simp
    · intro l hl
      obtain ⟨k, -, rfl⟩ := List.mem_map.mp hl
      exact List.drop_eq_nil_of_le (by rw [List.length_take]; omega)
  have hdrop : ((textLines s).drop y2).length = (textLines s).length - y2 := List.length_drop
  rw [cropFrom, Nat.sub_zero, Nat.sub_zero, hcols, intercalate_empty, keptNewlines]
  by_cases hend : (textLines s).drop y2 = [[]]
  · have hgo : ¬GoesOn y2 s := fun h => h.2 hend
    rw [hend, List.length_singleton] at hdrop
    rw [if_pos hend, if_neg hgo, ← List.replicate_one, List.replicate_append_replicate]
    congr 1
    omega
  · rw [if_neg hend, List.append_nil]
    by_cases hnil : (textLines s).drop y2 = []
    · have hgo : ¬GoesOn y2 s := fun h => h.1 hnil
      rw [hnil, List.length_nil] at hdrop
      rw [if_neg hgo]
      congr 1
      omega
    · have hpos := List.length_pos_of_ne_nil hnil
      rw [if_pos ⟨hnil, hend⟩]
      congr 1
      omega

/-- The block holds a text, which is that of the window, or has one newline more. -/
def CropMeets (s : EscText) (x y x2 y2 : Ut32) : Prop :=
  ∃ text after, rStrCrop s x y x2 y2 = some (text ++ 0 :: after) ∧ (0 : Ut8) ∉ text ∧
    (text = cropText x.toNat y.toNat x2.toNat y2.toNat s ∨
      text = cropText x.toNat y.toNat x2.toNat y2.toNat s ++ [byteOf '\n'])

/-- A window without lines has no text below it, and one without columns at most one newline to keep. -/
def CropFits (s : EscText) (x y x2 y2 : Nat) : Prop :=
  x2 = 0 ∨ y2 = 0 ∨ (y2 ≤ y ∧ ¬GoesOn y2 s) ∨ (y < y2 ∧ (x < x2 ∨ keptNewlines y y2 s ≤ 1))

theorem rStrCrop_eq (s : EscText) {x y x2 y2 : Ut32} (hx2 : x2.toNat ≠ 0) (hy2 : y2.toNat ≠ 0) :
    rStrCrop s x y x2 y2 =
      (cropLoop x.toNat y.toNat x2.toNat y2.toNat (s.length + 1) s (s ++ [0]) 0 0 0).bind
        (fun p => storeAt p.1 p.2 0) := by
  rw [rStrCrop, if_neg (by omega)]
  rfl

theorem rStrCrop_window (s : EscText) {x y x2 y2 : Ut32} (hx2 : x2.toNat ≠ 0) (hy : y.toNat < y2.toNat) :
    ∃ after, rStrCrop s x y x2 y2 = some (cropFrom x.toNat y.toNat x2.toNat y2.toNat 0 s ++ 0 :: after) := by
  obtain ⟨mem, r, after, hrun, hstore⟩ := cropLoop_window (x := x.toNat) x2.isLt y2.isLt hy 0 s (by omega) (s.length + 1) []
    (s ++ [0]) (Nat.lt_succ_self _) (by simp)
  rw [List.nil_append, List.length_nil] at hrun
  exact ⟨after, by rw [rStrCrop_eq s hx2 (by omega), hrun, Option.bind_some, hstore, List.nil_append]⟩

theorem rStrCrop_empty (s : EscText) (x : Ut32) {y x2 y2 : Ut32} (hx2 : x2.toNat ≠ 0) (hy2 : y2.toNat ≠ 0)
    (hy : y2.toNat ≤ y.toNat) :
    if GoesOn y2.toNat s then rStrCrop s x y x2 y2 = none else ∃ after, rStrCrop s x y x2 y2 = some (0 :: after) := by
  have hrun := cropLoop_empty (x := x.toNat) x2.isLt y2.isLt hy 0 s (Nat.zero_le _) (s.length + 1) (s ++ [0])
    (Nat.lt_succ_self _) (by simp)
  rw [Nat.sub_zero] at hrun
  rw [rStrCrop_eq s hx2 hy2]
  by_cases hgo : GoesOn y2.toNat s
  · rw [if_pos hgo] at hrun ⊢
    rw [hrun, Option.bind_none]
  · rw [if_neg hgo] at hrun ⊢
    obtain ⟨d, free, hrun⟩ := hrun
    exact ⟨free, by rw [hrun]; rfl⟩

/-- `r_str_crop` stays in its copy and returns the window exactly on the inputs that fit. -/
theorem rStrCrop_iff (s : EscText) (hs : (0 : Ut8) ∉ s) (x y x2 y2 : Ut32) :
    CropMeets s x y x2 y2 ↔ CropFits s x.toNat y.toNat x2.toNat y2.toNat := by
  unfold CropMeets CropFits
  by_cases hzero : x2.toNat = 0 ∨ y2.toNat = 0
  · have hwin : cropText x.toNat y.toNat x2.toNat y2.toNat s = [] := if_pos (by omega)
    have hrun : rStrCrop s x y x2 y2 = some [0] := if_pos (by omega)
    constructor
    · intro _
      omega
    · intro _
      exact ⟨[], [], hrun, List.not_mem_nil, Or.inl hwin.symm⟩
  · rw [not_or] at hzero
    obtain ⟨hx2, hy2⟩ := hzero
    rcases Nat.lt_or_ge y.toNat y2.toNat with hy | hy
    · obtain ⟨after, hrun⟩ := rStrCrop_window s (x := x) hx2 hy
      have hclean := cropFrom_clean hs x.toNat y.toNat x2.toNat y2.toNat 0
      have hmeets : (∃ text after, rStrCrop s x y x2 y2 = some (text ++ 0 :: after) ∧ (0 : Ut8) ∉ text ∧
          (text = cropText x.toNat y.toNat x2.toNat y2.toNat s ∨
            text = cropText x.toNat y.toNat x2.toNat y2.toNat s ++ [byteOf '\n'])) ↔
          cropFrom x.toNat y.toNat x2.toNat y2.toNat 0 s = cropText x.toNat y.toNat x2.toNat y2.toNat s ∨
            cropFrom x.toNat y.toNat x2.toNat y2.toNat 0 s = cropText x.toNat y.toNat x2.toNat y2.toNat s ++ [byteOf '\n'] := by
        constructor
        · rintro ⟨text, after', hrun', htext, h⟩
          rw [hrun, Option.some.injEq] at hrun'
          have heq := congrArg (List.takeWhile (· ≠ (0 : Ut8))) hrun'
          rw [takeWhile_stop hclean, takeWhile_stop htext] at heq
          rwa [heq]
        · intro h
          exact ⟨_, after, hrun, hclean, h⟩
      rw [hmeets]
      rcases Nat.lt_or_ge x.toNat x2.toNat with hx | hx
      · have hwin : cropText x.toNat y.toNat x2.toNat y2.toNat s =
            [byteOf '\n'].intercalate ((((textLines s).take y2.toNat).drop y.toNat).map (lineColumns x.toNat x2.toNat)) :=
          if_neg (by omega)
        refine iff_of_true ?_ (Or.inr (Or.inr (Or.inr ⟨hy, Or.inl hx⟩)))
        rw [hwin, cropFrom]
        split_ifs
        · exact Or.inr rfl
        · exact Or.inl (List.append_nil _)
      · have hwin : cropText x.toNat y.toNat x2.toNat y2.toNat s = [] := if_pos (by omega)
        rw [hwin, cropFrom_narrow hx hy, List.nil_append, ← List.replicate_one, ← List.replicate_zero,
          List.replicate_left_inj, List.replicate_left_inj]
        omega
    · have hwin : cropText x.toNat y.toNat x2.toNat y2.toNat s = [] := if_pos (by omega)
      have hrun := rStrCrop_empty s x hx2 hy2 hy
      by_cases hgo : GoesOn y2.toNat s
      · rw [if_pos hgo] at hrun
        refine iff_of_false ?_ ?_
        · rintro ⟨text, after, hsome, -⟩
          rw [hrun] at hsome
          cases hsome
        · rintro (h | h | h | h)
          · exact hx2 h
          · exact hy2 h
          · exact h.2 hgo
          · omega
      · rw [if_neg hgo] at hrun
        obtain ⟨after, hrun⟩ := hrun
        exact iff_of_true ⟨[], after, hrun, List.not_mem_nil, Or.inl hwin.symm⟩ (Or.inr (Or.inr (Or.inl ⟨hy, hgo⟩)))

/-- The columns 1 and 2 of the lines 1 and 2 of "abc\ndefg\nhi\nj". -/
theorem rStrCrop_iff_inside : CropMeets ("abc\ndefg\nhi\nj".toList.map byteOf) 1 1 3 3 :=
  (rStrCrop_iff ("abc\ndefg\nhi\nj".toList.map byteOf) (by decide) 1 1 3 3).mpr
    (Or.inr (Or.inr (Or.inr ⟨by decide, Or.inl (by decide)⟩)))

/-- A window that ends where it begins, above the last line of "a\nb". -/
theorem rStrCrop_before_copy :
    (0 : Ut8) ∉ "a\nb".toList.map byteOf ∧ rStrCrop ("a\nb".toList.map byteOf) 0 1 1 1 = none := by
  decide

end Radare
