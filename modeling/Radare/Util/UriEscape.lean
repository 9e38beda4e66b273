import Radare.Io.Ihex
import Radare.Util.StrEscape

namespace Radare

open Framework.TextBuffer

/-- What `r_str_uri_encode` copies; a `char` above 127 is negative. -/
def isUriLetter (c : Ut8) : Bool :=
  (48 ≤ c.toNat && c.toNat ≤ 57) || (97 ≤ c.toNat && c.toNat ≤ 122) || (65 ≤ c.toNat && c.toNat ≤ 90)

def uriEncodeByte (c : Ut8) : EscText :=
  if isUriLetter c then [c] else byteOf '%' :: (printByte false c).map byteOf

/-- The loop of `r_str_uri_encode` over the rest of the text; what it leaves are the buffer and `d`. -/
def uriEncodeLoop : EscText → EscText → Nat → Option (EscText × Nat)
  | [], mem, d => some (mem, d)
  | c :: s, mem, d => do
    let mem ← storeAll mem d (uriEncodeByte c)
    uriEncodeLoop s mem (d + (uriEncodeByte c).length)

/-- `r_str_uri_encode`, the block that it returns. -/
def rStrUriEncode (s : EscText) : Option EscText := do
  let (mem, d) ← uriEncodeLoop s (List.replicate (1 + s.length * 4) 0) 0
  let mem ← storeAt mem d 0
  let len ← strlenAt 0 mem 0
  some (mem.take (len + 1))

def textChars (bs : EscText) : CStr := bs.map (fun b => Char.ofNat b.toNat)

/-- The loop of `r_str_uri_decode`. Where `sscanf` reads no number, `n` is what it was. -/
def uriDecodeLoop : Nat → EscText → Nat → Nat → Ut32 → Option EscText
  | 0, _, _, _, _ => none
  | turns + 1, mem, s, d, n => do
    let c ← mem[s]?
    if c = 0 then storeAt mem d 0
    else if c = byteOf '%' then do
      let _ ← strlenAt 0 mem (s + 1)
      let n := ((Ihex.scanHex 2 (textChars (textAt 0 mem (s + 1)))).map Prod.fst).getD n
      let mem ← storeAt mem d (n.setWidth 8)
      uriDecodeLoop turns mem (s + 3) (d + 1) n
    else do
      let mem ← storeAt mem d c
      uriDecodeLoop turns mem (s + 1) (d + 1) n

/-- `r_str_uri_decode` on a text that ends where its memory does; `n` begins with what the stack held. -/
def rStrUriDecode (n : Ut32) (mem : EscText) : Option EscText := uriDecodeLoop mem.length mem 0 0 n

/-- Every '%' that the decoder comes to has two more characters behind it. -/
def wholeEscapes : EscText → Bool
  | [] => true
  | c :: rest =>
    if c = byteOf '%' then
      match rest with
      | _ :: _ :: rest => wholeEscapes rest
      | _ => false
    else wholeEscapes rest

theorem wholeEscapes_letter {c : Ut8} (hc : c ≠ byteOf '%') (rest : EscText) : wholeEscapes (c :: rest) = wholeEscapes rest := by
  rcases rest with _ | ⟨a, _ | ⟨b, rest⟩⟩ <;> exact if_neg hc

section Decode

variable {out gap rest : EscText} {n : Ut32} {a b c : Ut8}

theorem uriDecodeLoop_nil (turns : Nat) (n : Ut32) (out gap : EscText) :
    ∃ after, uriDecodeLoop (turns + 1) (out ++ (gap ++ [0])) (out.length + gap.length) out.length n =
      some (out ++ 0 :: after) ∧ after.length = gap.length := by
  have hhere : (out ++ (gap ++ [0]))[out.length + gap.length]? = some (0 : Ut8) := by simp
  obtain ⟨gap', hstore, hlen⟩ := storeAt_advance out gap [] 0 0
  refine ⟨gap', ?_, hlen⟩
  rw [uriDecodeLoop, hhere, Option.bind_eq_bind, Option.bind_some, if_pos rfl, hstore]
  simp

theorem uriDecodeLoop_letter (turns : Nat) (n : Ut32) (out gap rest : EscText) (h0 : c ≠ 0) (hc : c ≠ byteOf '%') :
    ∃ gap', uriDecodeLoop (turns + 1) (out ++ (gap ++ (c :: rest ++ [0]))) (out.length + gap.length) out.length n =
      uriDecodeLoop turns (out ++ [c] ++ (gap' ++ (rest ++ [0]))) ((out ++ [c]).length + gap'.length) (out ++ [c]).length n := by
  have hhere : (out ++ (gap ++ (c :: rest ++ [0])))[out.length + gap.length]? = some c := by simp
  obtain ⟨gap', hstore, hlen⟩ := storeAt_advance out gap (rest ++ [0]) c c
  refine ⟨gap', ?_⟩
  rw [uriDecodeLoop, hhere, Option.bind_eq_bind, Option.bind_some, if_neg h0, if_neg hc, List.cons_append, hstore,
    Option.bind_eq_bind, Option.bind_some, hlen, List.length_append, List.length_singleton, Nat.add_right_comm]

/-- The number that `sscanf` leaves at the text `t`. -/
def uriScan (n : Ut32) (t : EscText) : Ut32 := ((Ihex.scanHex 2 (textChars t)).map Prod.fst).getD n

/-- A percent sign up to the store of its character. -/
theorem uriDecodeLoop_percent (turns : Nat) (n : Ut32) (out gap : EscText) (hrest : (0 : Ut8) ∉ rest) :
    ∃ gap', gap'.length = gap.length ∧
      uriDecodeLoop (turns + 1) (out ++ (gap ++ (byteOf '%' :: rest ++ [0]))) (out.length + gap.length) out.length n =
        uriDecodeLoop turns (out ++ [(uriScan n rest).setWidth 8] ++ (gap' ++ (rest ++ [0])))
          (out.length + gap.length + 3) (out.length + 1) (uriScan n rest) := by
  have hhere : (out ++ (gap ++ (byteOf '%' :: rest ++ [0])))[out.length + gap.length]? = some (byteOf '%') := by simp
  have hbehind : out ++ (gap ++ (byteOf '%' :: rest ++ [0])) = (out ++ gap ++ [byteOf '%']) ++ (rest ++ 0 :: []) := by simp
  have hindex : out.length + gap.length + 1 = (out ++ gap ++ [byteOf '%']).length := by simp [Nat.add_assoc]
  have hlen : strlenAt 0 (out ++ (gap ++ (byteOf '%' :: rest ++ [0]))) (out.length + gap.length + 1) = some rest.length := by
    rw [hbehind, hindex, strlenAt_eq hrest]
  have htext : textAt 0 (out ++ (gap ++ (byteOf '%' :: rest ++ [0]))) (out.length + gap.length + 1) = rest := by
    rw [hbehind, hindex, textAt_eq hrest]
  obtain ⟨gap', hstore, hgap⟩ := storeAt_advance out gap (rest ++ [0]) (byteOf '%') ((uriScan n rest).setWidth 8)
  refine ⟨gap', hgap, ?_⟩
  rw [uriDecodeLoop, hhere, Option.bind_eq_bind, Option.bind_some, if_neg (by decide), if_pos rfl, hlen,
    Option.bind_eq_bind, Option.bind_some, htext, ← uriScan, List.cons_append]
  show (storeAt _ _ ((uriScan n rest).setWidth 8)).bind _ = _
  rw [hstore]
  rfl

theorem uriDecodeLoop_escape (turns : Nat) (n : Ut32) (out gap : EscText) (hrest : (0 : Ut8) ∉ a :: b :: rest) :
    ∃ gap', uriDecodeLoop (turns + 1) (out ++ (gap ++ (byteOf '%' :: a :: b :: rest ++ [0]))) (out.length + gap.length) out.length n =
      uriDecodeLoop turns (out ++ [(uriScan n (a :: b :: rest)).setWidth 8] ++ (gap' ++ (rest ++ [0])))
        ((out ++ [(uriScan n (a :: b :: rest)).setWidth 8]).length + gap'.length)
        (out ++ [(uriScan n (a :: b :: rest)).setWidth 8]).length (uriScan n (a :: b :: rest)) := by
  obtain ⟨gap', hgap, hrun⟩ := uriDecodeLoop_percent turns n out gap hrest
  refine ⟨gap' ++ [a, b], ?_⟩
  rw [hrun]
  simp only [List.append_assoc, List.cons_append, List.nil_append, List.length_append, List.length_cons, List.length_nil, hgap]
  rw [show out.length + gap.length + 3 = out.length + (0 + 1) + (gap.length + (0 + 1 + 1)) by omega]

/-- A percent sign with less than two characters behind it takes the scan behind the terminator. -/
theorem uriDecodeLoop_broken (turns : Nat) (n : Ut32) (out gap : EscText) (hrest : (0 : Ut8) ∉ rest) (hshort : rest.length < 2) :
    uriDecodeLoop (turns + 1) (out ++ (gap ++ (byteOf '%' :: rest ++ [0]))) (out.length + gap.length) out.length n = none := by
  obtain ⟨gap', hgap, hrun⟩ := uriDecodeLoop_percent turns n out gap hrest
  rw [hrun]
  cases turns with
  | zero => rfl
  | succ turns =>
    rw [uriDecodeLoop, List.getElem?_eq_none]
    · rfl
    · simp only [List.length_append, List.length_cons, List.length_nil, hgap]
      omega

/-- The decoder stays inside the memory of the text exactly if all escapes are whole. -/
theorem uriDecodeLoop_isSome (turns : Nat) (rest out gap : EscText) (n : Ut32) (hrest : (0 : Ut8) ∉ rest) (ht : rest.length < turns) :
    (uriDecodeLoop turns (out ++ (gap ++ (rest ++ [0]))) (out.length + gap.length) out.length n).isSome = wholeEscapes rest := by
  induction turns generalizing rest out gap n with
  | zero => exact absurd ht (Nat.not_lt_zero _)
  | succ turns ih =>
    cases rest with
    | nil =>
      obtain ⟨after, hrun, -⟩ := uriDecodeLoop_nil turns n out gap
      rw [List.nil_append, hrun]
      rfl
    | cons c rest =>
      have htail : (0 : Ut8) ∉ rest := fun h => hrest (List.mem_cons_of_mem c h)
      have hlen : rest.length < turns := Nat.lt_of_succ_lt_succ ht
      by_cases hc : c = byteOf '%'
      · rw [hc]
        match rest with
        | [] =>
          rw [uriDecodeLoop_broken turns n out gap htail (by simp)]
          rfl
        | [a] =>
          rw [uriDecodeLoop_broken turns n out gap htail (by simp)]
          rfl
        | a :: b :: rest =>
          obtain ⟨gap', hrun⟩ := uriDecodeLoop_escape turns n out gap htail
          simp only [List.length_cons] at hlen
          rw [hrun, ih rest _ _ _ (fun h => htail (List.mem_cons_of_mem a (List.mem_cons_of_mem b h))) (by omega)]
          rfl
      · have hzero : c ≠ 0 := fun h => hrest (h ▸ List.mem_cons_self)
        obtain ⟨gap', hrun⟩ := uriDecodeLoop_letter turns n out gap rest hzero hc
        rw [hrun, ih rest _ _ _ htail hlen, wholeEscapes_letter hc]

end Decode

section Encode

theorem isUriLetter_plain : ∀ c : Ut8, isUriLetter c = true → c ≠ 0 ∧ c ≠ byteOf '%' := by
  decide

theorem printByte_bytes : ∀ c : Ut8, textChars ((printByte false c).map byteOf) = printByte false c ∧
    (0 : Ut8) ∉ (printByte false c).map byteOf := by
  decide

theorem uriEncodeByte_zero {c : Ut8} (hc : c ≠ 0) : (0 : Ut8) ∉ uriEncodeByte c := by
  unfold uriEncodeByte
  split_ifs
  · simpa using hc.symm
  · rw [List.mem_cons, not_or]
    exact ⟨by decide, (printByte_bytes c).2⟩

theorem uriEncodeByte_length (c : Ut8) : (uriEncodeByte c).length ≤ 3 := by
  unfold uriEncodeByte
  split_ifs <;> simp [printByte]

/-- `sscanf` reads an encoded byte back. -/
theorem uriScan_printByte (n : Ut32) (c : Ut8) (rest : EscText) :
    (uriScan n ((printByte false c).map byteOf ++ rest)).setWidth 8 = c := by
  have htext : textChars ((printByte false c).map byteOf ++ rest) = printByte false c ++ textChars rest := by
    rw [textChars, List.map_append, ← textChars, (printByte_bytes c).1]
    rfl
  obtain ⟨v, hscan, hv⟩ := (Ihex.hexText_printBytes false [c]).scan2 (textChars rest)
  have hprint : Ihex.printBytes false [c] = printByte false c := List.append_nil _
  rw [hprint] at hscan
  rw [uriScan, htext, hscan]
  exact hv

/-- The loop of the encoder, with room for four bytes for each of the text. -/
theorem uriEncodeLoop_eq (s out free : EscText) (hfree : s.length * 4 ≤ free.length) :
    uriEncodeLoop s (out ++ free) out.length =
      some (out ++ (s.flatMap uriEncodeByte ++ free.drop (s.flatMap uriEncodeByte).length),
        out.length + (s.flatMap uriEncodeByte).length) := by
  induction s generalizing out free with
  | nil => simp [uriEncodeLoop]
  | cons c s ih =>
    have hbyte := uriEncodeByte_length c
    rw [List.length_cons] at hfree
    have hrun := ih (out ++ uriEncodeByte c) (free.drop (uriEncodeByte c).length) (by rw [List.length_drop]; omega)
    rw [List.length_append, List.append_assoc] at hrun
    rw [uriEncodeLoop, storeAll_here out free (uriEncodeByte c) (by omega), Option.bind_eq_bind, Option.bind_some, hrun,
      List.flatMap_cons, List.length_append, List.drop_drop, List.append_assoc, List.append_assoc, Nat.add_assoc]

theorem length_uriEncode (s : EscText) : (s.flatMap uriEncodeByte).length ≤ s.length * 4 := by
  induction s with
  | nil => exact Nat.le_refl 0
  | cons c s ih =>
    have hbyte := uriEncodeByte_length c
    rw [List.flatMap_cons, List.length_append, List.length_cons]
    omega

theorem uriEncode_zero {s : EscText} (hs : (0 : Ut8) ∉ s) : (0 : Ut8) ∉ s.flatMap uriEncodeByte := by
  rw [List.mem_flatMap]
  rintro ⟨c, hc, hzero⟩
  exact uriEncodeByte_zero (fun h => hs (h ▸ hc)) hzero

theorem rStrUriEncode_eq {s : EscText} (hs : (0 : Ut8) ∉ s) :
    rStrUriEncode s = some (s.flatMap uriEncodeByte ++ [0]) := by
  have hlen := length_uriEncode s
  have hloop := uriEncodeLoop_eq s [] (List.replicate (1 + s.length * 4) 0) (by simp)
  rw [List.nil_append, List.length_nil, List.nil_append, Nat.zero_add] at hloop
  obtain ⟨k, hk⟩ := Nat.exists_eq_add_of_le hlen
  have hfree : (List.replicate (1 + s.length * 4) (0 : Ut8)).drop (s.flatMap uriEncodeByte).length = 0 :: List.replicate k 0 := by
    rw [List.drop_replicate, show 1 + s.length * 4 - (s.flatMap uriEncodeByte).length = k + 1 by omega, List.replicate_succ]
  rw [hfree] at hloop
  rw [rStrUriEncode, hloop]
  show (storeAt _ (s.flatMap uriEncodeByte).length 0).bind _ = _
  rw [storeAt_here, Option.bind_some]
  show (strlenAt 0 _ 0).bind _ = _
  rw [strlenAt_start (uriEncode_zero hs), Option.bind_some, List.take_append]
  simp

/-- The decoder turns an encoded text back. -/
theorem uriDecodeLoop_encoded (s : EscText) (hs : (0 : Ut8) ∉ s) (turns : Nat) (out gap : EscText) (n : Ut32)
    (ht : (s.flatMap uriEncodeByte).length < turns) :
    ∃ after, uriDecodeLoop turns (out ++ (gap ++ (s.flatMap uriEncodeByte ++ [0]))) (out.length + gap.length) out.length n =
      some (out ++ s ++ 0 :: after) := by
  induction s generalizing turns out gap n with
  | nil =>
    obtain ⟨turns, rfl⟩ := Nat.exists_eq_succ_of_ne_zero (Nat.ne_of_gt ht)
    obtain ⟨after, hrun, -⟩ := uriDecodeLoop_nil turns n out gap
    exact ⟨after, by rw [List.append_nil]; exact hrun⟩
  | cons c s ih =>
    obtain ⟨turns, rfl⟩ := Nat.exists_eq_succ_of_ne_zero (Nat.ne_of_gt (Nat.zero_lt_of_lt ht))
    have htail : (0 : Ut8) ∉ s := fun h => hs (List.mem_cons_of_mem c h)
    have hzero : c ≠ 0 := fun h => hs (h ▸ List.mem_cons_self)
    rw [List.flatMap_cons, List.length_append] at ht
    rw [List.flatMap_cons]
    by_cases hc : isUriLetter c = true
    · rw [uriEncodeByte, if_pos hc] at ht ⊢
      obtain ⟨gap', hrun⟩ := uriDecodeLoop_letter turns n out gap (s.flatMap uriEncodeByte) hzero
        (isUriLetter_plain c hc).2
      obtain ⟨after, hrest⟩ := ih htail turns (out ++ [c]) gap' n
        (by rw [List.length_singleton] at ht; omega)
      exact ⟨after, by rw [List.singleton_append, hrun, hrest]; simp⟩
    · rw [uriEncodeByte, if_neg hc] at ht ⊢
      have hdigits : (printByte false c).map byteOf ++ s.flatMap uriEncodeByte =
          byteOf (Nat.digitChar (c.toNat / 16)) :: byteOf (Nat.digitChar (c.toNat % 16)) :: s.flatMap uriEncodeByte := rfl
      have hclean : (0 : Ut8) ∉ (printByte false c).map byteOf ++ s.flatMap uriEncodeByte := by
        rw [List.mem_append, not_or]
        exact ⟨(printByte_bytes c).2, uriEncode_zero htail⟩
      have hvalue := uriScan_printByte n c (s.flatMap uriEncodeByte)
      rw [hdigits] at hclean hvalue
      obtain ⟨gap', hrun⟩ := uriDecodeLoop_escape turns n out gap hclean
      rw [hvalue] at hrun
      obtain ⟨after, hrest⟩ := ih htail turns (out ++ [c]) gap' _ (by simp only [List.length_cons] at ht; omega)
      refine ⟨after, ?_⟩
      rw [List.cons_append, hdigits, hrun, hrest]
      simp

end Encode

/-- An encoded text is decoded in its block to what it was, and the decoder stays inside the memory of a text exactly
if every '%' that it comes to has two more characters behind it. -/
theorem rStrUriDecode_iff (s : EscText) (hs : (0 : Ut8) ∉ s) (n : Ut32) :
    (∃ block after, rStrUriEncode s = some block ∧ rStrUriDecode n block = some (s ++ 0 :: after)) ∧
      ((rStrUriDecode n (s ++ [0])).isSome = true ↔ wholeEscapes s = true) := by
  obtain ⟨after, hdecode⟩ := uriDecodeLoop_encoded s hs (s.flatMap uriEncodeByte ++ [0]).length [] [] n (by simp)
  have hsome := uriDecodeLoop_isSome (s ++ [0]).length s [] [] n hs (by simp)
  exact ⟨⟨_, after, rStrUriEncode_eq hs, hdecode⟩, by rw [← hsome]; rfl⟩

/-- The text "a%41 b", which is encoded and has a whole escape. -/
theorem rStrUriDecode_iff_whole :
    (rStrUriDecode 0 ("a%41 b".toList.map byteOf ++ [0])).isSome = true :=
  (rStrUriDecode_iff ("a%41 b".toList.map byteOf) (by decide) 0).2.mpr (by decide)

/-- A text that ends with a percent sign. -/
theorem lone_percent_overruns :
    ¬∀ s : EscText, (0 : Ut8) ∉ s → ∀ n, (rStrUriDecode n (s ++ [0])).isSome = true := by
  intro h
  exact absurd (h [byteOf '%'] (by decide) 0) (by decide)

end Radare
