import Mathlib.Data.List.TakeWhile
import Mathlib.Logic.Function.Basic
import Radare.Framework.NecklaceSequence

namespace Radare

open Framework

def debruijnCharset : List Char :=
  "ABCDEFGHIJKLMNOPQRSTUVWXYZabcdefghijklmnopqrstuvwxyz1234567890".toList

def strlen (s : List Char) : Nat := (s.takeWhile (· ≠ '\x00')).length

/-- What the calls of `de_bruijn_seq` share. The array comes zeroed, and with two characters or
more its `size * order` cells hold every index used. No character of a C string is NUL, so the
text in `sequence` is what was written, and `strlen (sequence)` its length. -/
structure DeBruijnState where
  prenecklaceA : Nat → Nat
  sequence : List Char

/-- The loop that copies a Lyndon word, left when the sequence is full. -/
def appendPrefix (charset : List Char) (maxlen : Nat) (a : Nat → Nat) :
    List Nat → List Char → List Char
  | [], sequence => sequence
  | j :: js, sequence =>
    let sequence := sequence ++ [charset.getD (a j) '\x00']
    if sequence.length = maxlen then sequence else appendPrefix charset maxlen a js sequence

/-- `de_bruijn_seq`, for `t` and `p` the lengths of the prenecklace and of its Lyndon prefix. -/
def deBruijnSeq (charset : List Char) (order maxlen size t p : Nat) (st : DeBruijnState) :
    DeBruijnState :=
  if st.sequence.length = maxlen then st
  else if t > order then
    if order % p = 0 then
      { st with sequence := appendPrefix charset maxlen st.prenecklaceA (List.range' 1 p) st.sequence }
    else st
  else
    let st := { st with prenecklaceA := Function.update st.prenecklaceA t (st.prenecklaceA (t - p)) }
    let st := deBruijnSeq charset order maxlen size (t + 1) p st
    let first := st.prenecklaceA (t - p) + 1
    (List.range' first (size - first)).foldl (fun st j =>
      deBruijnSeq charset order maxlen size (t + 1) t
        { st with prenecklaceA := Function.update st.prenecklaceA t j }) st
  termination_by order + 1 - t

/-- The text in `sequence` at the end of `de_bruijn`. -/
def deBruijnText (charset : List Char) (order maxlen : Nat) : List Char :=
  (deBruijnSeq charset order maxlen (strlen charset) 1 1 ⟨fun _ => 0, []⟩).sequence

/-- NULL is `none`. At the largest `int` the `maxlen + 1` that goes to `calloc` wraps below zero
and no block is that large; no other allocation fails. -/
def deBruijn (charset : List Char) (order maxlen : Nat) : Option (List Char) :=
  if maxlen + 1 > 2147483647 then none else some (deBruijnText charset order maxlen)

/-- `r_debruijn_pattern`; NULL is `none`. -/
def rDebruijnPattern (size : Int) (start : Nat) (charset : Option (List Char)) :
    Option (List Char) :=
  let charset := charset.getD debruijnCharset
  if start ≥ size then none
  else
    (deBruijn charset 3 size.toNat).map (fun pat =>
      if start = 0 then pat else (pat.drop start).take (size.toNat - start))

/-- What `de_bruijn_seq` writes when nothing cuts it off, as indices into the charset. -/
def lyndonIndices (order size t p : Nat) (a : Nat → Nat) : List Nat :=
  if t > order then
    if order % p = 0 then (List.range' 1 p).map a else []
  else
    lyndonIndices order size (t + 1) p (Function.update a t (a (t - p))) ++
    (List.range' (a (t - p) + 1) (size - (a (t - p) + 1))).flatMap (fun j =>
      lyndonIndices order size (t + 1) t (Function.update a t j))
  termination_by order + 1 - t

theorem take_append_cut {α : Type} (n : Nat) (s x : List α) :
    (s.take n ++ x).take n = (s ++ x).take n := by
  by_cases h : s.length ≤ n
  · rw [List.take_of_length_le h]
  · rw [List.take_append_of_le_length (by simp; omega), List.take_append_of_le_length (by omega),
      List.take_take, Nat.min_self]

theorem appendPrefix_eq (charset : List Char) {maxlen : Nat} (a : Nat → Nat) (js : List Nat)
    {s : List Char} (hs : s.length < maxlen) :
    appendPrefix charset maxlen a js s =
      (s ++ js.map (fun j => charset.getD (a j) '\x00')).take maxlen := by
  induction js generalizing s with
  | nil =>
    rw [appendPrefix, List.map_nil, List.append_nil, List.take_of_length_le (by omega)]
  | cons j js ih =>
    have hlen : (s ++ [charset.getD (a j) '\x00']).length = s.length + 1 := by simp
    rw [appendPrefix, List.map_cons,
      List.append_cons s (charset.getD (a j) '\x00') (js.map (fun j => charset.getD (a j) '\x00'))]
    by_cases hfull : (s ++ [charset.getD (a j) '\x00']).length = maxlen
    · rw [if_pos hfull, List.take_append_of_le_length (by omega), List.take_of_length_le (by omega)]
    · rw [if_neg hfull, ih (by omega)]

/-- What a call leaves: the text, cut at `maxlen`, and the cells below its level as they were. -/
structure SeqDone (charset : List Char) (maxlen t : Nat) (a : Nat → Nat) (s : List Char)
    (w : List Nat) (st : DeBruijnState) : Prop where
  text : st.sequence = (s ++ w.map (fun i => charset.getD i '\x00')).take maxlen
  below : ∀ i < t, st.prenecklaceA i = a i

theorem SeqDone.length_le {charset : List Char} {maxlen t : Nat} {a : Nat → Nat} {s : List Char}
    {w : List Nat} {st : DeBruijnState} (h : SeqDone charset maxlen t a s w st) :
    st.sequence.length ≤ maxlen := by
  rw [h.text]
  exact List.length_take_le _ _

theorem SeqDone.trans {charset : List Char} {maxlen t t' : Nat} {a a' : Nat → Nat} {s : List Char}
    {w w' : List Nat} {st st' : DeBruijnState} (h : SeqDone charset maxlen t a s w st)
    (h' : SeqDone charset maxlen t' a' st.sequence w' st') :
    SeqDone charset maxlen t' a' s (w ++ w') st' := by
  refine ⟨?_, h'.below⟩
  rw [h'.text, h.text, take_append_cut, List.map_append, List.append_assoc]

/-- A call does what its list says, for any array that agrees with `a` below its level. -/
theorem deBruijnSeq_done (charset : List Char) {order : Nat} (maxlen size : Nat) (horder : 1 ≤ order)
    {t p : Nat} {a : Nat → Nat} {st : DeBruijnState} (hp : 1 ≤ p) (hpt : p < t ∨ t = 1 ∧ p = 1)
    (hlen : st.sequence.length ≤ maxlen) (hbelow : ∀ i < t, st.prenecklaceA i = a i) :
    SeqDone charset maxlen t a st.sequence (lyndonIndices order size t p a)
      (deBruijnSeq charset order maxlen size t p st) := by
  induction h : order + 1 - t generalizing t p a st with
  | zero =>
    rw [deBruijnSeq, lyndonIndices, if_pos (show t > order by omega), if_pos (show t > order by omega)]
    by_cases hfull : st.sequence.length = maxlen
    · rw [if_pos hfull]
      refine ⟨?_, hbelow⟩
      rw [List.take_append_of_le_length (by omega), List.take_of_length_le (by omega)]
    rw [if_neg hfull]
    by_cases hdiv : order % p = 0
    · rw [if_pos hdiv, if_pos hdiv]
      refine ⟨?_, hbelow⟩
      show appendPrefix charset maxlen st.prenecklaceA (List.range' 1 p) st.sequence = _
      rw [appendPrefix_eq charset _ _ (by omega), List.map_map]
      congr 2
      apply List.map_congr_left
      intro j hj
      rw [List.mem_range'_1] at hj
      rw [Function.comp_apply, hbelow j (by omega)]
    · rw [if_neg hdiv, if_neg hdiv]
      refine ⟨?_, hbelow⟩
      rw [List.map_nil, List.append_nil, List.take_of_length_le hlen]
  | succ n ih =>
    rw [deBruijnSeq, lyndonIndices, if_neg (show ¬ t > order by omega),
      if_neg (show ¬ t > order by omega)]
    by_cases hfull : st.sequence.length = maxlen
    · rw [if_pos hfull]
      refine ⟨?_, hbelow⟩
      rw [List.take_append_of_le_length (by omega), List.take_of_length_le (by omega)]
    rw [if_neg hfull]
    have hset : ∀ {st : DeBruijnState} {v v' : Nat}, (∀ i < t, st.prenecklaceA i = a i) → v = v' →
        ∀ i < t + 1, Function.update st.prenecklaceA t v i = Function.update a t v' i := by
      intro st v v' hst hv i hi
      by_cases hit : i = t
      · rw [hit, hv, Function.update_self, Function.update_self]
      · rw [Function.update_of_ne hit, Function.update_of_ne hit]
        exact hst i (by omega)
    have hunset : ∀ {b : Nat → Nat} {v : Nat}, (∀ i < t + 1, b i = Function.update a t v i) →
        ∀ i < t, b i = a i := by
      intro b v hb i hi
      rw [hb i (by omega), Function.update_of_ne (by omega)]
    -- the loop over the larger symbols, each from what the round before left
    have hloop : ∀ (js : List Nat) (st : DeBruijnState), st.sequence.length ≤ maxlen →
        (∀ i < t, st.prenecklaceA i = a i) →
        SeqDone charset maxlen t a st.sequence
          (js.flatMap (fun j => lyndonIndices order size (t + 1) t (Function.update a t j)))
          (js.foldl (fun st j => deBruijnSeq charset order maxlen size (t + 1) t
            { st with prenecklaceA := Function.update st.prenecklaceA t j }) st) := by
      intro js
      induction js with
      | nil =>
        intro st hlen hst
        refine ⟨?_, hst⟩
        rw [List.flatMap_nil, List.map_nil, List.append_nil, List.take_of_length_le hlen]
        rfl
      | cons j js ihjs =>
        intro st hlen hst
        have hround := @ih (t + 1) t (Function.update a t j)
          { st with prenecklaceA := Function.update st.prenecklaceA t j }
          (by omega) (Or.inl (by omega)) hlen (hset hst rfl) (by omega)
        have hrest := ihjs _ hround.length_le (hunset hround.below)
        rw [List.foldl_cons, List.flatMap_cons]
        exact hround.trans hrest
    have hfirst := @ih (t + 1) p (Function.update a t (a (t - p)))
      { st with prenecklaceA := Function.update st.prenecklaceA t (st.prenecklaceA (t - p)) }
      hp (Or.inl (by omega)) hlen (hset hbelow (hbelow (t - p) (by omega))) (by omega)
    have hcell := hunset hfirst.below (t - p) (by omega)
    have hrest := hloop (List.range' (a (t - p) + 1) (size - (a (t - p) + 1))) _ hfirst.length_le
      (hunset hfirst.below)
    dsimp only
    rw [hcell]
    exact hfirst.trans hrest

theorem range'_cons {k x : Nat} (hx : x < k) :
    List.range' x (k - x) = x :: List.range' (x + 1) (k - (x + 1)) := by
  rw [show k - x = k - (x + 1) + 1 by omega, List.range'_succ]

/-- For order 3 the recursion writes the Lyndon words one after the other. -/
theorem lyndonIndices_order3 {k : Nat} (hk : 1 ≤ k) :
    lyndonIndices 3 k 1 1 (fun _ => 0) = lyndonSequence k := by
  have hword : ∀ p a, lyndonIndices 3 k 4 p a =
      if 3 % p = 0 then (List.range' 1 p).map a else [] := by
    intro p a
    rw [lyndonIndices, if_pos (by decide)]
  have hrange : ∀ x, List.range' (x + 1) (k - 1 - x) = List.range' (x + 1) (k - (x + 1)) := by
    intro x
    rw [Nat.sub_sub, Nat.add_comm 1 x]
  have hrow : ∀ x y, lyndonIndices 3 k 3 2 (Function.update (Function.update (fun _ => 0) 1 x) 2 y) =
      lyndonRow k x y := by
    intro x y
    rw [lyndonIndices, if_neg (by decide)]
    simp [hword, lyndonRow, hrange, List.range'_succ]
  have hfirst : ∀ x, lyndonIndices 3 k 3 1 (Function.update (Function.update (fun _ => 0) 1 x) 2 x) =
      x :: lyndonRow k x x := by
    intro x
    rw [lyndonIndices, if_neg (by decide)]
    simp [hword, lyndonRow, hrange, List.range'_succ]
  have hblock : ∀ x < k,
      lyndonIndices 3 k 2 1 (Function.update (fun _ => 0) 1 x) = lyndonBlock k x := by
    intro x hx
    rw [lyndonIndices, if_neg (by decide), lyndonBlock, range'_cons hx, List.flatMap_cons]
    simp [hfirst, hrow]
  have hall : List.range' 0 k = 0 :: List.range' 1 (k - 1) := range'_cons hk
  rw [lyndonIndices, if_neg (by decide), lyndonSequence, hall, List.flatMap_cons, hblock 0 hk]
  congr 1
  rw [Nat.zero_add]
  apply List.flatMap_congr
  intro j hj
  rw [List.mem_range'_1] at hj
  exact hblock j (by omega)

theorem strlen_eq {charset : List Char} (h : '\x00' ∉ charset) : strlen charset = charset.length := by
  have hall : ∀ c ∈ charset, decide (c ≠ '\x00') = true := by
    intro c hc
    simp only [ne_eq, decide_not, Bool.not_eq_true', decide_eq_false_iff_not]
    rintro rfl
    exact h hc
  rw [strlen, List.takeWhile_eq_self_iff.mpr hall]

theorem deBruijnText_eq {charset : List Char} (hc : 1 ≤ charset.length) (h0 : '\x00' ∉ charset)
    (maxlen : Nat) : deBruijnText charset 3 maxlen =
      ((lyndonSequence charset.length).map (fun i => charset.getD i '\x00')).take maxlen := by
  have hdone := @deBruijnSeq_done charset 3 maxlen charset.length (by decide) 1 1 (fun _ => 0)
    ⟨fun _ => 0, []⟩ (Nat.le_refl 1) (Or.inr ⟨rfl, rfl⟩) (Nat.zero_le maxlen) (fun _ _ => rfl)
  rw [deBruijnText, strlen_eq h0, hdone.text, lyndonIndices_order3 hc]
  rfl

/-- The pattern as a prefix of the whole sequence. -/
theorem deBruijnText_take {charset : List Char} (hc : 1 ≤ charset.length) (h0 : '\x00' ∉ charset) {n n' : Nat}
    (h : n ≤ n') : deBruijnText charset 3 n = (deBruijnText charset 3 n').take n := by
  rw [deBruijnText_eq hc h0, deBruijnText_eq hc h0, List.take_take, min_eq_left h]

theorem deBruijnText_windows (charset : List Char) (hk : 2 ≤ charset.length) (hnd : charset.Nodup) (h0 : '\x00' ∉ charset)
    (maxlen : Nat) : (deBruijnText charset 3 maxlen).length = min maxlen (charset.length ^ 3) ∧
      (∀ c ∈ deBruijnText charset 3 maxlen, c ∈ charset) ∧
      ∀ i j, i + 3 ≤ (deBruijnText charset 3 maxlen).length → j + 3 ≤ (deBruijnText charset 3 maxlen).length → i ≠ j →
        window3 (deBruijnText charset 3 maxlen) i ≠ window3 (deBruijnText charset 3 maxlen) j := by
  rw [deBruijnText_eq (by omega) h0]
  refine ⟨?_, ?_, ?_⟩
  · rw [List.length_take, List.length_map, lyndonSequence_length]
  · intro c hc
    obtain ⟨i, hi, rfl⟩ := List.mem_map.mp (List.mem_of_mem_take hc)
    have hlt := lyndonSequence_lt hi
    rw [List.getD_eq_getElem _ _ hlt]
    exact List.getElem_mem hlt
  · intro i j hi hj hne heq
    refine hne (window3_take_inj hk ?_ hi hj heq)
    intro a ha b hb hab
    rw [List.getD_eq_getElem _ _ ha, List.getD_eq_getElem _ _ hb] at hab
    exact (hnd.getElem_inj_iff).mp hab

/-- For two or more distinct characters: the length asked for or the whole cube, no other
characters, and no window of three twice. The one size left out is the largest `int`. -/
theorem debruijn_windows_unique_iff (charset : List Char) (hk : 2 ≤ charset.length)
    (hnd : charset.Nodup) (h0 : '\x00' ∉ charset) (size : Int) (hsize : 1 ≤ size) :
    (∃ s, rDebruijnPattern size 0 (some charset) = some s ∧
      s.length = min size.toNat (charset.length ^ 3) ∧ (∀ c ∈ s, c ∈ charset) ∧
      ∀ i j, i + 3 ≤ s.length → j + 3 ≤ s.length → i ≠ j → window3 s i ≠ window3 s j) ↔
      size < 2147483647 := by
  have hpattern : rDebruijnPattern size 0 (some charset) = deBruijn charset 3 size.toNat := by
    rw [rDebruijnPattern, if_neg (by simp; omega)]
    simp
  rw [hpattern, deBruijn]
  constructor
  · rintro ⟨s, hs, -⟩
    by_contra hlarge
    rw [if_pos (by omega)] at hs
    exact nomatch hs
  · intro hsmall
    obtain ⟨hlength, hmem, hunique⟩ := deBruijnText_windows charset hk hnd h0 size.toNat
    exact ⟨_, if_neg (by omega), hlength, hmem, hunique⟩

theorem debruijn_windows_unique_ab : ∃ s, rDebruijnPattern 6 0 (some ['a', 'b']) = some s ∧
    s.length = min (Int.toNat 6) (2 ^ 3) ∧ (∀ c ∈ s, c ∈ ['a', 'b']) ∧
    ∀ i j, i + 3 ≤ s.length → j + 3 ≤ s.length → i ≠ j → window3 s i ≠ window3 s j :=
  (debruijn_windows_unique_iff ['a', 'b'] (by decide) (by decide) (by decide) 6
    (by decide)).mpr (by decide)

/-- At the largest size there is no pattern at all. -/
theorem debruijn_largest_size : rDebruijnPattern 2147483647 0 (some ['a', 'b']) = none := by
  have hsize : Int.toNat 2147483647 = 2147483647 := by omega
  rw [rDebruijnPattern, if_neg (by omega), deBruijn, hsize, if_pos (by omega), Option.map_none]

end Radare
