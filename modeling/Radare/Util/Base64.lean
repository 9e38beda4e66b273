import Mathlib.Data.Nat.Find
import Mathlib.Logic.Function.Basic
import Mathlib.Tactic.IntervalCases
import Radare.Framework.MachineInt

namespace Radare

/-- `cb64`. -/
def cb64 : List Char :=
  ['A', 'B', 'C', 'D', 'E', 'F', 'G', 'H', 'I', 'J', 'K', 'L', 'M',
   'N', 'O', 'P', 'Q', 'R', 'S', 'T', 'U', 'V', 'W', 'X', 'Y', 'Z',
   'a', 'b', 'c', 'd', 'e', 'f', 'g', 'h', 'i', 'j', 'k', 'l', 'm',
   'n', 'o', 'p', 'q', 'r', 's', 't', 'u', 'v', 'w', 'x', 'y', 'z',
   '0', '1', '2', '3', '4', '5', '6', '7', '8', '9', '+', '/']

/-- `cd64`: for the characters from `+` to `z` their value plus 62, or a dollar sign. -/
def cd64 : List Char :=
  ['|', '$', '$', '$', '\x7d', 'r', 's', 't', 'u', 'v', 'w', 'x', 'y', 'z', '\x7b',
   '$', '$', '$', '$', '$', '$', '$',
   '>', '?', '@', 'A', 'B', 'C', 'D', 'E', 'F', 'G', 'H', 'I', 'J', 'K', 'L', 'M',
   'N', 'O', 'P', 'Q', 'R', 'S', 'T', 'U', 'V', 'W', '$', '$', '$', '$', '$', '$',
   'X', 'Y', 'Z', '[', '\\', ']', '^', '_', '\x60', 'a', 'b', 'c', 'd', 'e', 'f', 'g',
   'h', 'i', 'j', 'k', 'l', 'm', 'n', 'o', 'p', 'q']

def cb64At (v : Ut8) : Char := cb64.getD v.toNat '\x00'

/-- `cd64[c - 43]` for a character in the range of the table. -/
def cd64At (c : Char) : Ut8 := BitVec.ofNat 8 (cd64.getD (c.toNat - 43) '\x00').toNat

/-- `b64_encode`: the four characters it writes, or none. -/
def b64Encode (bin : List Ut8) (len : Nat) : Option (List Char) :=
  if len < 1 then some []
  else do
    let b0 ← bin[0]?
    let b1 ← if len > 1 then bin[1]? else some 0
    let b2 ← if len > 2 then bin[2]? else some 0
    some
      [cb64At (b0 >>> 2),
       cb64At (((b0 &&& 0x03) <<< 4) ||| (if len > 1 then (b1 &&& 0xf0) >>> 4 else 0)),
       if len > 1 then cb64At (((b1 &&& 0x0f) <<< 2) ||| (if len > 2 then (b2 &&& 0xc0) >>> 6 else 0)) else '=',
       if len > 2 then cb64At (b2 &&& 0x3f) else '=']

/-- The loop of `r_base64_encode`; `pos` is its `in`, and `out` the length of what is written. Both
are an `int`. -/
def base64EncodeLoop (bin : List Ut8) (len : Int) : Nat → Nat → List Char → Option (List Char)
  | 0, _, _ => none
  | fuel + 1, pos, bout =>
    if pos < len then do
      let group ← b64Encode (bin.drop pos) (if len - pos > 3 then 3 else (len - pos).toNat)
      if pos + 3 > 2147483647 ∨ bout.length + 4 > 2147483647 then none
      else base64EncodeLoop bin len fuel (pos + 3) (bout ++ group)
    else some bout

/-- `r_base64_encode`: the returned number and all that is written to `bout`. -/
def rBase64Encode (bin : List Ut8) (len : Int) : Option (Nat × List Char) := do
  let len := if len < 0 then ((bin.takeWhile (· ≠ 0)).length : Int) else len
  let bout ← base64EncodeLoop bin len (len.toNat + 1) 0 []
  some (bout.length, bout ++ ['\x00'])

/-- The characters from an address on; a zero stands somewhere among them. -/
structure CharPtr where
  char : Nat → Char
  terminated : ∃ k, char k = '\x00'

/-- A text with its zero; anything may stand behind it. -/
def CharPtr.ofText (text : List Char) (behind : Nat → Char) : CharPtr where
  char i := if h : i < text.length then text[i] else if i = text.length then '\x00' else behind i
  terminated := ⟨text.length, by simp⟩

def CharPtr.strlen (p : CharPtr) : Nat := Nat.find p.terminated

/-- The loop of `b64_decode`: `len` and `v` where it is left, `none` when the function returns -1. -/
def b64DecodeLoop (bin : Nat → Char) : Nat → Nat → List Ut8 → Option (Ut8 × List Ut8)
  | 0, _, v => some (3, v)
  | left + 1, i, v =>
    if (bin i).toNat < 43 ∨ (bin i).toNat > 122 then none
    else if cd64At (bin i) = 36 then
      some (if i ≠ 0 then BitVec.ofNat 8 i - 1 else -1, v.set i (cd64At (bin i)))
    else b64DecodeLoop bin left (i + 1) (v.set i (cd64At (bin i) - 62))

/-- `b64_decode`: the returned number and what it stores from `out` on. -/
def b64Decode (bin : Nat → Char) : Int × List Ut8 :=
  match b64DecodeLoop bin 4 0 [0, 0, 0, 0] with
  | none => (-1, [])
  | some (len, v) =>
    let v0 := v.getD 0 0
    let v1 := v.getD 1 0
    let v2 := v.getD 2 0
    let v3 := v.getD 3 0
    (len.toNat, [(v0 <<< 2) ||| (v1 >>> 4), (v1 <<< 4) ||| (v2 >>> 2), ((v2 <<< 6) &&& 0xc0) ||| v3])

/-- The locals of `r_base64_decode`, each an `int`, and the stores to `bout`; `pos` is its `in`. -/
structure B64Decoder where
  pos : Nat
  out : Nat
  stores : List (Nat × Ut8)

def storesAt (out : Nat) : List Ut8 → List (Nat × Ut8)
  | [] => []
  | b :: bs => (out, b) :: storesAt (out + 1) bs

def base64DecodeLoop (bin : Nat → Char) (len : Int) : Nat → B64Decoder → Option B64Decoder
  | 0, _ => none
  | fuel + 1, s =>
    if s.pos < len - 1 then
      let r := b64Decode (fun i => bin (s.pos + i))
      let stores := s.stores ++ storesAt s.out r.2
      if r.1 < 1 then some { s with stores := stores }
      else if s.pos + 4 > 2147483647 ∨ s.out + r.1.toNat > 2147483647 then none
      else base64DecodeLoop bin len fuel ⟨s.pos + 4, s.out + r.1.toNat, stores⟩
    else some s

/-- The length that `r_base64_decode` works with. -/
def base64Len (bin : CharPtr) (len : Int) : Nat := if len < 0 then bin.strlen else len.toNat

/-- `r_base64_decode`: the returned number and the stores to `bout` in their order. A length that
no `int` holds gives no result. -/
def rBase64Decode (bin : CharPtr) (len : Int) : Option (Nat × List (Nat × Ut8)) :=
  let len := base64Len bin len
  if len > 2147483647 then none
  else do
    let s ← base64DecodeLoop bin.char len (len + 1) ⟨0, 0, []⟩
    some (if s.pos ≠ s.out then s.out else 0, s.stores ++ [(s.out, 0)])

/-- A buffer after some stores. -/
def applyStores (m : Nat → Ut8) (stores : List (Nat × Ut8)) : Nat → Ut8 :=
  stores.foldl (fun m s => Function.update m s.1 s.2) m

/-- The six-bit values of three bytes. -/
def sextet0 (a : Ut8) : Ut8 := a >>> 2

def sextet1 (a b : Ut8) : Ut8 := ((a &&& 0x03) <<< 4) ||| ((b &&& 0xf0) >>> 4)

def sextet2 (b c : Ut8) : Ut8 := ((b &&& 0x0f) <<< 2) ||| ((c &&& 0xc0) >>> 6)

def sextet3 (c : Ut8) : Ut8 := c &&& 0x3f

/-- The text of a byte string, with a partial group at its end. -/
def base64Text : List Ut8 → List Char
  | [] => []
  | [a] => [cb64At (sextet0 a), cb64At (sextet1 a 0), '=', '=']
  | [a, b] => [cb64At (sextet0 a), cb64At (sextet1 a b), cb64At (sextet2 b 0), '=']
  | a :: b :: c :: rest =>
    cb64At (sextet0 a) :: cb64At (sextet1 a b) :: cb64At (sextet2 b c) :: cb64At (sextet3 c) :: base64Text rest

theorem base64Text_length (bs : List Ut8) : (base64Text bs).length = 4 * ((bs.length + 2) / 3) := by
  induction bs using base64Text.induct with
  | case1 => simp [base64Text]
  | case2 a => simp [base64Text]
  | case3 a b => simp [base64Text]
  | case4 a b c rest ih =>
    simp only [base64Text, List.length_cons, ih]
    omega

theorem base64Text_take (a : Ut8) (rest : List Ut8) :
    base64Text (a :: rest) = base64Text ((a :: rest).take 3) ++ base64Text ((a :: rest).drop 3) := by
  rcases rest with _ | ⟨b, _ | ⟨c, rest⟩⟩ <;> simp [base64Text]

theorem base64Text_group (a : Ut8) (rest : List Ut8) : (base64Text ((a :: rest).take 3)).length = 4 := by
  rw [base64Text_length, List.length_take, List.length_cons]
  omega

theorem b64Encode_text (a : Ut8) (rest : List Ut8) :
    b64Encode (a :: rest) (min 3 (rest.length + 1)) = some (base64Text ((a :: rest).take 3)) := by
  rcases rest with _ | ⟨b, _ | ⟨c, rest⟩⟩
  · simp [b64Encode, base64Text, sextet0, sextet1]
  · simp [b64Encode, base64Text, sextet0, sextet1, sextet2]
  · have hfull : min 3 ((b :: c :: rest).length + 1) = 3 := by simp
    rw [hfull]
    simp [b64Encode, base64Text, sextet0, sextet1, sextet2, sextet3]

/-- Every round of the loop writes the text of its three bytes, or of the bytes that are left, as
long as the text's length is an `int`. -/
theorem base64EncodeLoop_text {bin : List Ut8} {pos fuel : Nat} {bout : List Char} (hfuel : bin.length - pos < fuel)
    (hpos : pos ≤ bout.length) (hbout : bout.length ≤ 2147483647) :
    base64EncodeLoop bin bin.length fuel pos bout =
      if bout.length + (base64Text (bin.drop pos)).length ≤ 2147483647 then
        some (bout ++ base64Text (bin.drop pos))
      else none := by
  induction fuel generalizing pos bout with
  | zero => omega
  | succ fuel ih =>
    cases hl : bin.drop pos with
    | nil =>
      have hend : ¬(pos : Int) < bin.length := by
        have hlen := List.drop_eq_nil_iff.mp hl
        omega
      simp [base64EncodeLoop, base64Text, hend, hbout]
    | cons a rest =>
      have hlen := congrArg List.length hl
      rw [List.length_drop, List.length_cons] at hlen
      have hsize : (if (bin.length : Int) - pos > 3 then 3 else ((bin.length : Int) - pos).toNat) =
          min 3 (rest.length + 1) := by
        split_ifs <;> omega
      have hnext : bin.drop (pos + 3) = (a :: rest).drop 3 := by rw [← hl, List.drop_drop]
      have hfour : (base64Text ((a :: rest).take 3)).length = 4 := base64Text_group a rest
      rw [base64EncodeLoop, if_pos (by omega), hsize, hl, b64Encode_text, Option.bind_eq_bind, Option.bind_some,
        base64Text_take, List.length_append, hfour]
      by_cases hover : pos + 3 > 2147483647 ∨ bout.length + 4 > 2147483647
      · rw [if_pos hover, if_neg (by omega)]
      · have hmore : (bout ++ base64Text ((a :: rest).take 3)).length = bout.length + 4 := by
          rw [List.length_append, hfour]
        rw [if_neg hover, ih (by omega) (by omega) (by omega), hmore, hnext, List.append_assoc,
          Nat.add_assoc]

theorem rBase64Encode_eq (bs : List Ut8) :
    rBase64Encode bs bs.length =
      if 4 * ((bs.length + 2) / 3) ≤ 2147483647 then
        some (4 * ((bs.length + 2) / 3), base64Text bs ++ ['\x00'])
      else none := by
  have hloop := @base64EncodeLoop_text bs 0 (bs.length + 1) [] (by omega) (Nat.zero_le _) (Nat.zero_le _)
  rw [List.drop_zero, List.nil_append, List.length_nil, Nat.zero_add, base64Text_length] at hloop
  simp only [rBase64Encode, if_neg (show ¬(bs.length : Int) < 0 by omega), Int.toNat_natCast, hloop]
  split_ifs
  · simp [base64Text_length]
  · rfl

/-- The characters of a text stand from an index on. -/
def Spells (f : Nat → Char) : Nat → List Char → Prop
  | _, [] => True
  | pos, c :: cs => f pos = c ∧ Spells f (pos + 1) cs

theorem cb64_value : ∀ v < 64, cd64At (cb64.getD v '\x00') - 62 = BitVec.ofNat 8 v ∧
    cd64At (cb64.getD v '\x00') ≠ 36 ∧ 43 ≤ (cb64.getD v '\x00').toNat ∧ (cb64.getD v '\x00').toNat ≤ 122 := by
  decide +kernel

/-- A character of the alphabet gives its value back. -/
theorem b64DecodeLoop_value {f : Nat → Char} {v : Ut8} {i : Nat} (hf : f i = cb64At v) (hv : v.toNat < 64)
    (left : Nat) (vs : List Ut8) : b64DecodeLoop f (left + 1) i vs = b64DecodeLoop f left (i + 1) (vs.set i v) := by
  obtain ⟨hval, hne, hlow, hhigh⟩ := cb64_value v.toNat hv
  rw [BitVec.ofNat_toNat, BitVec.setWidth_eq] at hval
  rw [b64DecodeLoop, hf, cb64At, if_neg (by omega), if_neg hne, hval]

theorem b64DecodeLoop_pad {f : Nat → Char} {i : Nat} (hf : f i = '=') (hi : i ≠ 0) (left : Nat) (vs : List Ut8) :
    b64DecodeLoop f (left + 1) i vs = some (BitVec.ofNat 8 i - 1, vs.set i 36) := by
  have hpad : cd64At '=' = 36 := by decide
  rw [b64DecodeLoop, hf, if_neg (by decide), if_pos hpad, if_pos hi, hpad]

theorem sextet0_lt (a : Ut8) : (sextet0 a).toNat < 64 := by
  have ha := a.isLt
  simp only [sextet0, BitVec.toNat_ushiftRight, Nat.shiftRight_eq_div_pow]
  omega

theorem sextet3_lt (c : Ut8) : (sextet3 c).toNat < 64 := by
  rw [sextet3, BitVec.toNat_and]
  exact Nat.lt_succ_of_le Nat.and_le_right

theorem sextet1_eq (a b : Ut8) : sextet1 a b = sextet3 (sextet1 a b) := by
  unfold sextet3 sextet1
  ext i hi
  interval_cases i <;> simp

theorem sextet2_eq (b c : Ut8) : sextet2 b c = sextet3 (sextet2 b c) := by
  unfold sextet3 sextet2
  ext i hi
  interval_cases i <;> simp

theorem sextet1_lt (a b : Ut8) : (sextet1 a b).toNat < 64 := by
  rw [sextet1_eq]
  exact sextet3_lt _

theorem sextet2_lt (b c : Ut8) : (sextet2 b c).toNat < 64 := by
  rw [sextet2_eq]
  exact sextet3_lt _

theorem join_first (a b : Ut8) : (sextet0 a <<< 2) ||| (sextet1 a b >>> 4) = a := by
  unfold sextet0 sextet1
  ext i hi
  interval_cases i <;> simp

theorem join_second (a b c : Ut8) : (sextet1 a b <<< 4) ||| (sextet2 b c >>> 2) = b := by
  unfold sextet1 sextet2
  ext i hi
  interval_cases i <;> simp

theorem join_third (b c : Ut8) : ((sextet2 b c <<< 6) &&& 0xc0) ||| sextet3 c = c := by
  unfold sextet2 sextet3
  ext i hi
  interval_cases i <;> simp

@[simp]
theorem spells_nil (f : Nat → Char) (pos : Nat) : Spells f pos [] := trivial

@[simp]
theorem spells_cons (f : Nat → Char) (pos : Nat) (c : Char) (cs : List Char) :
    Spells f pos (c :: cs) ↔ f pos = c ∧ Spells f (pos + 1) cs := Iff.rfl

theorem spells_shift (f : Nat → Char) (pos k : Nat) (cs : List Char) :
    Spells (fun i => f (pos + i)) k cs ↔ Spells f (pos + k) cs := by
  induction cs generalizing k with
  | nil => simp
  | cons c cs ih => simp [ih, Nat.add_assoc]

theorem spells_append (f : Nat → Char) (pos : Nat) (cs ds : List Char) :
    Spells f pos (cs ++ ds) ↔ Spells f pos cs ∧ Spells f (pos + cs.length) ds := by
  induction cs generalizing pos with
  | nil => simp
  | cons c cs ih => simp [ih, and_assoc, Nat.add_assoc, Nat.add_comm 1]

theorem b64Decode_three {g : Nat → Char} (a b c : Ut8) (h : Spells g 0 (base64Text [a, b, c])) :
    b64Decode g = (3, [a, b, c]) := by
  simp only [base64Text, spells_cons, spells_nil, and_true] at h
  obtain ⟨h0, h1, h2, h3⟩ := h
  have hloop : b64DecodeLoop g 4 0 [0, 0, 0, 0] = some (3, [sextet0 a, sextet1 a b, sextet2 b c, sextet3 c]) := by
    rw [b64DecodeLoop_value h0 (sextet0_lt a), b64DecodeLoop_value h1 (sextet1_lt a b),
      b64DecodeLoop_value h2 (sextet2_lt b c), b64DecodeLoop_value h3 (sextet3_lt c)]
    rfl
  simp only [b64Decode, hloop, List.getD_cons_zero, List.getD_cons_succ, join_first, join_second, join_third]
  rfl

theorem b64Decode_two {g : Nat → Char} (a b : Ut8) (h : Spells g 0 (base64Text [a, b])) :
    ∃ c, b64Decode g = (2, [a, b, c]) := by
  simp only [base64Text, spells_cons, spells_nil, and_true] at h
  obtain ⟨h0, h1, h2, h3⟩ := h
  have hloop : b64DecodeLoop g 4 0 [0, 0, 0, 0] = some (2, [sextet0 a, sextet1 a b, sextet2 b 0, 36]) := by
    rw [b64DecodeLoop_value h0 (sextet0_lt a), b64DecodeLoop_value h1 (sextet1_lt a b),
      b64DecodeLoop_value h2 (sextet2_lt b 0), b64DecodeLoop_pad h3 (by decide)]
    rfl
  simp only [b64Decode, hloop, List.getD_cons_zero, List.getD_cons_succ, join_first, join_second]
  exact ⟨_, rfl⟩

theorem b64Decode_one {g : Nat → Char} (a : Ut8) (h : Spells g 0 (base64Text [a])) :
    ∃ b c, b64Decode g = (1, [a, b, c]) := by
  simp only [base64Text, spells_cons, spells_nil, and_true] at h
  obtain ⟨h0, h1, h2, h3⟩ := h
  have hloop : b64DecodeLoop g 4 0 [0, 0, 0, 0] = some (1, [sextet0 a, sextet1 a 0, 36, 0]) := by
    rw [b64DecodeLoop_value h0 (sextet0_lt a), b64DecodeLoop_value h1 (sextet1_lt a 0),
      b64DecodeLoop_pad h2 (by decide)]
    rfl
  simp only [b64Decode, hloop, List.getD_cons_zero, List.getD_cons_succ, join_first]
  exact ⟨_, _, rfl⟩

/-- A group gives its one, two or three bytes back; a partial one stores something behind them too. -/
theorem b64Decode_text {g : Nat → Char} (a : Ut8) (rest : List Ut8)
    (h : Spells g 0 (base64Text ((a :: rest).take 3))) :
    ∃ tail, b64Decode g = (((((a :: rest).take 3).length : Nat) : Int), (a :: rest).take 3 ++ tail) := by
  rcases rest with _ | ⟨b, _ | ⟨c, rest⟩⟩
  · obtain ⟨b, c, hg⟩ := b64Decode_one a h
    exact ⟨[b, c], hg⟩
  · obtain ⟨c, hg⟩ := b64Decode_two a b h
    exact ⟨[c], hg⟩
  · exact ⟨[], b64Decode_three a b c h⟩

theorem mem_storesAt {out : Nat} {bytes : List Ut8} {x : Nat × Ut8} (h : x ∈ storesAt out bytes) :
    out ≤ x.1 ∧ x.1 < out + bytes.length := by
  induction bytes generalizing out with
  | nil => cases h
  | cons b bytes ih =>
    rw [List.length_cons]
    rcases List.mem_cons.mp h with rfl | h
    · dsimp only
      omega
    · have hx := ih h
      omega

theorem applyStores_append (m : Nat → Ut8) (st st' : List (Nat × Ut8)) :
    applyStores m (st ++ st') = applyStores (applyStores m st) st' := List.foldl_append

theorem applyStores_other {st : List (Nat × Ut8)} {k : Nat} (h : ∀ x ∈ st, x.1 ≠ k) (m : Nat → Ut8) :
    applyStores m st k = m k := by
  induction st generalizing m with
  | nil => rfl
  | cons x st ih =>
    have hx := h x List.mem_cons_self
    have hrest := ih (fun y hy => h y (List.mem_cons_of_mem x hy)) (Function.update m x.1 x.2)
    exact hrest.trans (Function.update_of_ne hx.symm _ _)

theorem applyStores_storesAt (m : Nat → Ut8) (out : Nat) (bytes : List Ut8) (i : Nat) (hi : i < bytes.length) :
    applyStores m (storesAt out bytes) (out + i) = bytes[i] := by
  induction bytes generalizing m out i with
  | nil => cases hi
  | cons b bytes ih =>
    show applyStores (Function.update m out b) (storesAt (out + 1) bytes) (out + i) = _
    cases i with
    | zero =>
      rw [applyStores_other (fun x hx => by have hlow := mem_storesAt hx; omega)]
      exact Function.update_self _ _ _
    | succ i =>
      have hrest := ih (Function.update m out b) (out + 1) i (by simpa using hi)
      rwa [Nat.add_assoc, Nat.add_comm 1] at hrest

/-- The stores put a byte string into the buffer from `out` on and touch nothing in front of it. -/
structure Stored (out : Nat) (bs : List Ut8) (st : List (Nat × Ut8)) : Prop where
  behind : ∀ x ∈ st, out ≤ x.1
  bytes : ∀ (m : Nat → Ut8) (i : Nat) (hi : i < bs.length), applyStores m st (out + i) = bs[i]

theorem Stored.nil (out : Nat) : Stored out [] [] := by
  refine ⟨?_, ?_⟩
  · intro x hx
    cases hx
  · intro m i hi
    cases hi

/-- The stores of a group, of which the first bytes count, and then those of the other groups. -/
theorem Stored.group {out : Nat} {bs more : List Ut8} {st : List (Nat × Ut8)}
    (h : Stored (out + bs.length) more st) (tail : List Ut8) : Stored out (bs ++ more) (storesAt out (bs ++ tail) ++ st) := by
  refine ⟨?_, ?_⟩
  · intro x hx
    rcases List.mem_append.mp hx with hx | hx
    · exact (mem_storesAt hx).1
    · have hlow := h.behind x hx
      omega
  · intro m i hi
    rw [applyStores_append]
    by_cases hin : i < bs.length
    · have hlen : i < (bs ++ tail).length := by
        rw [List.length_append]
        omega
      rw [applyStores_other (fun x hx => by have hlow := h.behind x hx; omega),
        applyStores_storesAt m out (bs ++ tail) i hlen, List.getElem_append_left hin, List.getElem_append_left hin]
    · rw [List.length_append] at hi
      have hrest := h.bytes (applyStores m (storesAt out (bs ++ tail))) (i - bs.length) (by omega)
      rw [show out + bs.length + (i - bs.length) = out + i by omega] at hrest
      rw [hrest, List.getElem_append_right (by omega)]

/-- One turn of the decoder's loop over a group that gives bytes. -/
theorem base64DecodeLoop_group {f : Nat → Char} {len : Int} {fuel pos out : Nat} {st : List (Nat × Ut8)} {n : Nat}
    {bytes : List Ut8} (hg : b64Decode (fun i => f (pos + i)) = (↑n, bytes)) (hn : 1 ≤ n) (hgo : (pos : Int) < len - 1)
    (hpos : pos + 4 ≤ 2147483647) (hout : out + n ≤ 2147483647) :
    base64DecodeLoop f len (fuel + 1) ⟨pos, out, st⟩ =
      base64DecodeLoop f len fuel ⟨pos + 4, out + n, st ++ storesAt out bytes⟩ := by
  rw [base64DecodeLoop, if_pos hgo]
  simp only [hg]
  rw [if_neg (by omega), Int.toNat_natCast, if_neg (by omega)]

theorem base64DecodeLoop_text {f : Nat → Char} {bs : List Ut8} {fuel pos : Nat} (out : Nat) (st : List (Nat × Ut8))
    (h : Spells f pos (base64Text bs)) (hfuel : bs.length < fuel)
    (hpos : pos + (base64Text bs).length ≤ 2147483647) (hout : out + bs.length ≤ 2147483647) :
    ∃ st', base64DecodeLoop f (pos + (base64Text bs).length : Nat) fuel ⟨pos, out, st⟩ =
        some ⟨pos + (base64Text bs).length, out + bs.length, st ++ st'⟩ ∧ Stored out bs st' := by
  induction fuel generalizing bs pos out st with
  | zero => omega
  | succ fuel ih =>
    cases bs with
    | nil =>
      refine ⟨[], ?_, Stored.nil out⟩
      rw [base64DecodeLoop, if_neg (by simp [base64Text])]
      simp [base64Text]
    | cons a rest =>
      have htake : ((a :: rest).take 3).length = min 3 (rest.length + 1) := List.length_take
      have hfour : (base64Text ((a :: rest).take 3)).length = 4 := base64Text_group a rest
      have hlen : pos + (base64Text (a :: rest)).length = pos + 4 + (base64Text ((a :: rest).drop 3)).length := by
        rw [base64Text_take, List.length_append, hfour, Nat.add_assoc]
      have hbytes : out + ((a :: rest).take 3).length + ((a :: rest).drop 3).length = out + (a :: rest).length := by
        rw [Nat.add_assoc, ← List.length_append, List.take_append_drop]
      rw [base64Text_take, spells_append, hfour] at h
      obtain ⟨tail, hg⟩ := b64Decode_text a rest ((spells_shift f pos 0 _).mpr h.1)
      have hless : ((a :: rest).drop 3).length < fuel := by
        simp only [List.length_drop, List.length_cons] at hfuel ⊢
        omega
      have hsome : 1 ≤ ((a :: rest).take 3).length := by
        rw [htake]
        omega
      have hgo : (pos : Int) < ((pos + 4 + (base64Text ((a :: rest).drop 3)).length : Nat) : Int) - 1 := by omega
      obtain ⟨st', hloop, hst⟩ := ih (out + ((a :: rest).take 3).length)
        (st ++ storesAt out ((a :: rest).take 3 ++ tail)) h.2 hless (by omega) (by omega)
      refine ⟨storesAt out ((a :: rest).take 3 ++ tail) ++ st', ?_, ?_⟩
      · rw [hlen, base64DecodeLoop_group hg hsome hgo (by omega) (by omega), hloop, hbytes, List.append_assoc]
      · have hgroup := hst.group tail
        rwa [List.take_append_drop] at hgroup

theorem spells_of_getElem {f : Nat → Char} {pos : Nat} {cs : List Char}
    (h : ∀ (i : Nat) (hi : i < cs.length), f (pos + i) = cs[i]) : Spells f pos cs := by
  induction cs generalizing pos with
  | nil => trivial
  | cons c cs ih =>
    refine ⟨h 0 (Nat.zero_lt_succ _), ih ?_⟩
    intro i hi
    have hnext := h (i + 1) (Nat.succ_lt_succ hi)
    rw [Nat.add_assoc, Nat.add_comm 1, hnext]
    rfl

theorem spells_ofText (text : List Char) (behind : Nat → Char) : Spells (CharPtr.ofText text behind).char 0 text := by
  apply spells_of_getElem
  intro i hi
  simp [CharPtr.ofText, hi]

theorem rBase64Decode_text (bs : List Ut8) (h : 4 * ((bs.length + 2) / 3) ≤ 2147483647) (behind : Nat → Char) :
    ∃ stores, rBase64Decode (CharPtr.ofText (base64Text bs) behind) (base64Text bs).length =
        some (bs.length, stores) ∧
      ∀ bout : Nat → Ut8, (List.range bs.length).map (applyStores bout stores) = bs := by
  have hlen := base64Text_length bs
  have hfuel : bs.length < (base64Text bs).length + 1 := by omega
  obtain ⟨st, hloop, hst⟩ := base64DecodeLoop_text 0 [] (spells_ofText (base64Text bs) behind) hfuel
    (by omega) (by omega)
  rw [Nat.zero_add, Nat.zero_add, List.nil_append] at hloop
  have hret : (if (base64Text bs).length ≠ bs.length then bs.length else 0) = bs.length := by
    split_ifs <;> omega
  refine ⟨st ++ [(bs.length, 0)], ?_, ?_⟩
  · have hneg : ¬((base64Text bs).length : Int) < 0 := by omega
    have hint : ¬(base64Text bs).length > 2147483647 := by omega
    simp only [rBase64Decode, base64Len, if_neg hneg, Int.toNat_natCast, if_neg hint, hloop, Option.bind_eq_bind,
      Option.bind_some, hret]
  · intro bout
    apply List.ext_getElem (by simp)
    intro i hi hi'
    have hbytes := hst.bytes bout i hi'
    rw [Nat.zero_add] at hbytes
    rw [List.getElem_map, List.getElem_range, applyStores_append, applyStores_other, hbytes]
    intro x hx
    rw [List.mem_singleton.mp hx]
    dsimp only
    omega

/-- Decoding what was encoded gives the bytes back, for every text whose length is an `int`. -/
theorem base64_roundTrip_iff (bs : List Ut8) :
    (∃ text, rBase64Encode bs bs.length = some (4 * ((bs.length + 2) / 3), text ++ ['\x00']) ∧
      text.length = 4 * ((bs.length + 2) / 3) ∧
      ∀ behind, ∃ stores, rBase64Decode (CharPtr.ofText text behind) text.length = some (bs.length, stores) ∧
        ∀ bout : Nat → Ut8, (List.range bs.length).map (applyStores bout stores) = bs) ↔
      4 * ((bs.length + 2) / 3) ≤ 2147483647 := by
  rw [rBase64Encode_eq]
  constructor
  · rintro ⟨text, htext, -⟩
    by_contra hlong
    rw [if_neg hlong] at htext
    exact nomatch htext
  · intro h
    exact ⟨base64Text bs, if_pos h, base64Text_length bs, rBase64Decode_text bs h⟩

/-- From 1610612734 bytes on the text is longer than an `int` can count. -/
theorem base64_count_overflows : rBase64Encode (List.replicate 1610612734 0) 1610612734 = none := by
  have hnone := rBase64Encode_eq (List.replicate 1610612734 0)
  rw [List.length_replicate, if_neg (by omega), Nat.cast_ofNat] at hnone
  exact hnone

end Radare
