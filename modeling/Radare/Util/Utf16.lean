import Radare.Framework.TextBuffer
import Radare.Util.Utf8

namespace Radare

open Framework.TextBuffer

/-- `*in++`, on a little-endian host. -/
def hostUnit (src : List Ut8) (i : Nat) : Option Nat := do
  let b0 ← src[2 * i]?
  let b1 ← src[2 * i + 1]?
  some (b0.toNat ||| b1.toNat <<< 8)

/-- The unit at `in`. -/
def readUnit (src : List Ut8) (littleEndian : Int) (i : Nat) : Option Nat :=
  if littleEndian ≠ 0 then hostUnit src i
  else do
    let tmp ← src[2 * i]?
    let c := tmp.toNat
    let tmp ← src[2 * i + 1]?
    some (c ||| tmp.toNat <<< 8)

/-- `for (; bits >= 0; bits -= 6)`, where `bits` is `6 * (n - 1)`. -/
def putTail (lenDst : Int) (c : Nat) : Nat → List Ut8 → Nat → Option (List Ut8 × Nat)
  | 0, dst, pos => some (dst, pos)
  | n + 1, dst, pos =>
    if (pos : Int) ≥ lenDst then some (dst, pos)
    else do
      let dst ← storeAt dst pos (BitVec.ofNat 8 (c >>> (6 * n) &&& 0x3F ||| 0x80))
      putTail lenDst c n dst (pos + 1)

/-- The first byte for `c`, and how many follow. -/
def leadByte (c : Nat) : Nat × Nat :=
  if c < 0x80 then (c, 0)
  else if c < 0x800 then (c >>> 6 &&& 0x1F ||| 0xC0, 1)
  else if c < 0x10000 then (c >>> 12 &&& 0x0F ||| 0xE0, 2)
  else (c >>> 18 &&& 0x07 ||| 0xF0, 3)

def putChar (lenDst : Int) (c : Nat) (dst : List Ut8) (pos : Nat) : Option (List Ut8 × Nat) := do
  let dst ← storeAt dst pos (BitVec.ofNat 8 (leadByte c).1)
  putTail lenDst c (leadByte c).2 dst (pos + 1)

/-- The loop of `r_str_utf16_to_utf8`, from the unit `i` and `dst + pos` on. -/
def utf16Loop (src : List Ut8) (lenDst littleEndian : Int) : Nat → Nat → List Ut8 → Nat → Option (Int × List Ut8)
  | 0, _, _, _ => none
  | turns + 1, i, dst, pos =>
    if i < src.length / 2 ∧ (pos : Int) + 5 < lenDst then do
      let c ← readUnit src littleEndian i
      if c &&& 0xFC00 = 0xD800 then
        if i + 1 ≥ src.length / 2 then some (pos, dst)
        else do
          let d ← readUnit src littleEndian (i + 1)
          if d &&& 0xFC00 = 0xDC00 then
            if (pos : Int) ≥ lenDst then some (pos, dst)
            else do
              let (dst, pos) ← putChar lenDst (((c &&& 0x03FF) <<< 10 ||| (d &&& 0x03FF)) + 0x10000) dst pos
              utf16Loop src lenDst littleEndian turns (i + 2) dst pos
          else some (-2, dst)
      else if (pos : Int) ≥ lenDst then some (pos, dst)
      else do
        let (dst, pos) ← putChar lenDst c dst pos
        utf16Loop src lenDst littleEndian turns (i + 1) dst pos
    else some (pos, dst)

/-- `r_str_utf16_to_utf8`, with the memory at `dst` and the `len_src` bytes at `src`. -/
def rStrUtf16ToUtf8 (dst : List Ut8) (lenDst : Int) (src : List Ut8) (littleEndian : Int) : Option (Int × List Ut8) :=
  utf16Loop src lenDst littleEndian (src.length / 2 + 1) 0 dst 0

/-- The UTF-16 code units of a byte string. -/
def utf16Units (little : Bool) : List Ut8 → List Nat
  | b0 :: b1 :: bs => (if little then b0.toNat + 256 * b1.toNat else 256 * b0.toNat + b1.toNat) :: utf16Units little bs
  | _ => []

def utf16Bytes (little : Bool) (us : List Nat) : List Ut8 :=
  us.flatMap fun u => if little then [BitVec.ofNat 8 u, BitVec.ofNat 8 (u / 256)] else [BitVec.ofNat 8 (u / 256), BitVec.ofNat 8 u]

/-- The UTF-16 form of a code point. -/
def utf16Form (c : Nat) : List Nat :=
  if c < 0x10000 then [c] else [0xD800 + (c - 0x10000) / 1024, 0xDC00 + (c - 0x10000) % 1024]

def utf16Encode (cs : List Char) : List Nat := cs.flatMap fun c => utf16Form c.toNat

def utf8Encode (cs : List Char) : List Ut8 := (cs.flatMap String.utf8EncodeChar).map UInt8.toBitVec

def HighSurrogate (u : Nat) : Prop := 0xD800 ≤ u ∧ u < 0xDC00

def LowSurrogate (u : Nat) : Prop := 0xDC00 ≤ u ∧ u < 0xE000

/-- Behind units that stand for code points there is a high surrogate without its low one, and room is left for it. -/
def MeetsHalf (little : Bool) (src : List Ut8) (lenDst : Int) : Prop :=
  ∃ (cps : List Nat) (u v : Nat) (rest : List Nat), utf16Units little src = cps.flatMap utf16Form ++ u :: v :: rest ∧
    (∀ c ∈ cps, c < 0x110000 ∧ ¬ HighSurrogate c) ∧ HighSurrogate u ∧ ¬ LowSurrogate v ∧
      ((cps.flatMap fun c : Nat => rUtf8Encode (c : Int)).length : Int) + 5 < lenDst

section Bytes

variable {c d : Nat}

def tailBytes (c : Nat) : Nat → List Ut8
  | 0 => []
  | n + 1 => BitVec.ofNat 8 (c >>> (6 * n) &&& 0x3F ||| 0x80) :: tailBytes c n

def charBytes (c : Nat) : List Ut8 := BitVec.ofNat 8 (leadByte c).1 :: tailBytes c (leadByte c).2

theorem length_tailBytes (c n : Nat) : (tailBytes c n).length = n := by
  induction n with
  | zero => rfl
  | succ n ih => rw [tailBytes, List.length_cons, ih]

theorem length_charBytes_le (c : Nat) : (charBytes c).length ≤ 4 := by
  rw [charBytes, List.length_cons, length_tailBytes, leadByte]
  split_ifs
  all_goals exact Nat.le_of_ble_eq_true rfl

theorem tailBytes_succ (c n : Nat) :
    tailBytes c (n + 1) = BitVec.ofNat 8 (0x80 ||| (c >>> (6 * n) &&& 0x3f)) :: tailBytes c n := by
  rw [tailBytes, Nat.or_comm]

theorem lead_group {a n : Nat} (k : Nat) (h : a < 2 ^ n) : a &&& (2 ^ n - 1) ||| k = k ||| a := by
  rw [Nat.and_two_pow_sub_one_eq_mod, Nat.mod_eq_of_lt h, Nat.or_comm]

/-- The bytes are those of the other encoder. -/
theorem charBytes_eq (hc : c < 0x200000) : charBytes c = rUtf8Encode (c : Int) := by
  rw [charBytes, leadByte, rUtf8Encode]
  by_cases h1 : c < 0x80
  · rw [if_pos h1, if_pos (by omega), BitVec.ofInt_natCast]
    rfl
  rw [if_neg h1, if_neg (show ¬ (c : Int) < 0x80 by omega)]
  by_cases h2 : c < 0x800
  · rw [if_pos h2, if_pos (show (c : Int) < 0x800 by omega), Int.toNat_natCast]
    simp only [tailBytes_succ]
    have hlead : c >>> 6 &&& 0x1F ||| 0xC0 = 0xC0 ||| c >>> 6 :=
      lead_group (n := 5) 0xC0 (by rw [Nat.shiftRight_eq_div_pow]; omega)
    rw [hlead]
    rfl
  rw [if_neg h2, if_neg (show ¬ (c : Int) < 0x800 by omega)]
  by_cases h3 : c < 0x10000
  · rw [if_pos h3, if_pos (show (c : Int) < 0x10000 by omega), Int.toNat_natCast]
    simp only [tailBytes_succ]
    have hlead : c >>> 12 &&& 0x0F ||| 0xE0 = 0xE0 ||| c >>> 12 :=
      lead_group (n := 4) 0xE0 (by rw [Nat.shiftRight_eq_div_pow]; omega)
    rw [hlead]
    rfl
  · rw [if_neg h3, if_neg (show ¬ (c : Int) < 0x10000 by omega), if_pos (show (c : Int) < 0x200000 by omega),
      Int.toNat_natCast]
    simp only [tailBytes_succ]
    have hlead : c >>> 18 &&& 0x07 ||| 0xF0 = 0xF0 ||| c >>> 18 :=
      lead_group (n := 3) 0xF0 (by rw [Nat.shiftRight_eq_div_pow]; omega)
    rw [hlead]
    rfl

/-- UTF-8 as the standard library has it. -/
theorem utf8EncodeChar_eq (c : Char) : (String.utf8EncodeChar c).map UInt8.toBitVec = rUtf8Encode (c.toNat : Int) := by
  have hc : c.toNat < 0x110000 := by
    have hvalid := c.valid
    simp only [UInt32.isValidChar, Nat.isValidChar] at hvalid
    show c.val.toNat < _
    omega
  have hval : c.val.toNat = c.toNat := rfl
  have htail : ∀ n : Nat, 0x80 ||| (n &&& 0x3f) = n % 64 + 0x80 := fun n => by
    rw [low_group, Nat.add_comm]
    exact or_group 2 (s := 6) (Nat.mod_lt _ (by decide))
  rw [String.utf8EncodeChar, rUtf8Encode, hval]
  by_cases h1 : c.toNat < 0x80
  · rw [if_pos (by omega), if_pos (by omega), BitVec.ofInt_natCast]
    rfl
  rw [if_neg (by omega), if_neg (show ¬ (c.toNat : Int) < 0x80 by omega)]
  by_cases h2 : c.toNat < 0x800
  · have hlead : 0xc0 ||| c.toNat >>> 6 = c.toNat / 64 % 0x20 + 0xc0 := by
      rw [Nat.shiftRight_eq_div_pow, Nat.mod_eq_of_lt (by omega), Nat.add_comm]
      exact or_group 3 (s := 6) (by omega)
    rw [if_pos (by omega), if_pos (by omega), Int.toNat_natCast, hlead, htail]
    rfl
  rw [if_neg (by omega), if_neg (show ¬ (c.toNat : Int) < 0x800 by omega)]
  by_cases h3 : c.toNat < 0x10000
  · have hlead : 0xe0 ||| c.toNat >>> 12 = c.toNat / 4096 % 0x10 + 0xe0 := by
      rw [Nat.shiftRight_eq_div_pow, Nat.mod_eq_of_lt (by omega), Nat.add_comm]
      exact or_group 14 (s := 4) (by omega)
    rw [if_pos (by omega), if_pos (by omega), Int.toNat_natCast, hlead, htail, htail, Nat.shiftRight_eq_div_pow]
    rfl
  · have hlead : 0xf0 ||| c.toNat >>> 18 = c.toNat / 262144 % 0x08 + 0xf0 := by
      rw [Nat.shiftRight_eq_div_pow, Nat.mod_eq_of_lt (by omega), Nat.add_comm]
      exact or_group 30 (s := 3) (by omega)
    rw [if_neg (by omega), if_neg (show ¬ (c.toNat : Int) < 0x10000 by omega), if_pos (by omega), Int.toNat_natCast, hlead,
      htail, htail, htail, Nat.shiftRight_eq_div_pow, Nat.shiftRight_eq_div_pow]
    rfl

theorem and_high_mask (hc : c < 65536) : c &&& 0xFC00 = c / 1024 * 1024 := by
  have hmask : 0xFC00 = (2 ^ 6 - 1) <<< 10 := rfl
  have hsplit : c = (c / 1024) <<< 10 ||| c % 2 ^ 10 := by
    rw [or_group _ (Nat.mod_lt _ (by decide))]
    omega
  have hzero : c % 2 ^ 10 &&& (2 ^ 6 - 1) <<< 10 = 0 := by
    apply Nat.eq_of_testBit_eq
    intro i
    rw [Nat.testBit_and, Nat.testBit_mod_two_pow, Nat.testBit_shiftLeft, Nat.zero_testBit]
    by_cases hi : i < 10
    · simp [hi]
    · simp [hi]
  rw [hmask]
  conv_lhs => rw [hsplit]
  rw [Nat.and_or_distrib_right, hzero, Nat.or_zero, ← Nat.shiftLeft_and_distrib, Nat.and_two_pow_sub_one_eq_mod,
    Nat.shiftLeft_eq]
  omega

theorem high_iff (hc : c < 65536) : c &&& 0xFC00 = 0xD800 ↔ HighSurrogate c := by
  rw [and_high_mask hc, HighSurrogate]
  omega

theorem low_iff (hc : c < 65536) : c &&& 0xFC00 = 0xDC00 ↔ LowSurrogate c := by
  rw [and_high_mask hc, LowSurrogate]
  omega

theorem pair_eq (hc : HighSurrogate c) (hd : LowSurrogate d) :
    ((c &&& 0x03FF) <<< 10 ||| (d &&& 0x03FF)) + 0x10000 = 0x10000 + (c - 0xD800) * 1024 + (d - 0xDC00) := by
  have hten : ∀ n : Nat, n &&& 0x03FF = n % 1024 := fun n => Nat.and_two_pow_sub_one_eq_mod n 10
  rw [hten, hten, or_group _ (by omega)]
  unfold HighSurrogate at hc
  unfold LowSurrogate at hd
  omega

end Bytes

section Loop

variable {src : List Ut8} {lenDst littleEndian : Int} {out free : List Ut8} {cps us rest : List Nat} {c d pos : Nat}

def charsBytes (cps : List Nat) : List Ut8 := cps.flatMap charBytes

/-- The code point of a surrogate pair. -/
def pairValue (u v : Nat) : Nat := 0x10000 + (u - 0xD800) * 1024 + (v - 0xDC00)

instance (u : Nat) : Decidable (HighSurrogate u) := inferInstanceAs (Decidable (_ ∧ _))

instance (u : Nat) : Decidable (LowSurrogate u) := inferInstanceAs (Decidable (_ ∧ _))

/-- The code points that are written for the units `us` behind `pos` bytes, and whether that ends at a high surrogate
without its low one. -/
def scanUnits (lenDst : Int) : List Nat → Nat → List Nat × Bool
  | [], _ => ([], false)
  | u :: us, pos =>
    if ¬ (pos : Int) + 5 < lenDst then ([], false)
    else if HighSurrogate u then
      match us with
      | [] => ([], false)
      | v :: us =>
        if LowSurrogate v then
          let r := scanUnits lenDst us (pos + (charBytes (pairValue u v)).length)
          (pairValue u v :: r.1, r.2)
        else ([], true)
    else
      let r := scanUnits lenDst us (pos + (charBytes u).length)
      (u :: r.1, r.2)

theorem scanUnits_full {u : Nat} (h : ¬ (pos : Int) + 5 < lenDst) : scanUnits lenDst (u :: us) pos = ([], false) := by
  cases us <;> exact if_pos h

theorem scanUnits_plain {u : Nat} (h : (pos : Int) + 5 < lenDst) (hu : ¬ HighSurrogate u) :
    scanUnits lenDst (u :: us) pos = (u :: (scanUnits lenDst us (pos + (charBytes u).length)).1,
      (scanUnits lenDst us (pos + (charBytes u).length)).2) := by
  cases us <;> exact (if_neg (not_not.mpr h)).trans (if_neg hu)

theorem scanUnits_end {u : Nat} (h : (pos : Int) + 5 < lenDst) (hu : HighSurrogate u) :
    scanUnits lenDst [u] pos = ([], false) :=
  (if_neg (not_not.mpr h)).trans (if_pos hu)

theorem scanUnits_pair {u v : Nat} (h : (pos : Int) + 5 < lenDst) (hu : HighSurrogate u) (hv : LowSurrogate v) :
    scanUnits lenDst (u :: v :: us) pos =
      (pairValue u v :: (scanUnits lenDst us (pos + (charBytes (pairValue u v)).length)).1,
        (scanUnits lenDst us (pos + (charBytes (pairValue u v)).length)).2) :=
  (if_neg (not_not.mpr h)).trans ((if_pos hu).trans (if_pos hv))

theorem scanUnits_half {u v : Nat} (h : (pos : Int) + 5 < lenDst) (hu : HighSurrogate u) (hv : ¬ LowSurrogate v) :
    scanUnits lenDst (u :: v :: us) pos = ([], true) :=
  (if_neg (not_not.mpr h)).trans ((if_pos hu).trans (if_neg hv))

theorem putTail_here (lenDst : Int) (c n : Nat) (out free : List Ut8) (hn : n ≤ free.length) (hroom : (out.length : Int) + n ≤ lenDst) :
    putTail lenDst c n (out ++ free) out.length =
      some (out ++ (tailBytes c n ++ free.drop n), out.length + n) := by
  induction n generalizing out free with
  | zero => simp [putTail, tailBytes]
  | succ n ih =>
    cases free with
    | nil => simp at hn
    | cons b free =>
      have hstep := ih (out ++ [BitVec.ofNat 8 (c >>> (6 * n) &&& 0x3F ||| 0x80)]) free (by simpa using hn)
        (by rw [List.length_append, List.length_singleton]; omega)
      rw [List.length_append, List.length_singleton, List.append_assoc, List.singleton_append] at hstep
      rw [putTail, if_neg (by omega), storeAt_here]
      show putTail lenDst c n _ _ = _
      rw [hstep, tailBytes, List.append_assoc, Nat.add_assoc, Nat.add_comm 1]
      rfl

theorem putChar_here (out free : List Ut8) (hfree : 4 ≤ free.length) (hroom : (out.length : Int) + 4 ≤ lenDst) :
    putChar lenDst c (out ++ free) out.length =
      some (out ++ charBytes c ++ free.drop (charBytes c).length, (out ++ charBytes c).length) := by
  have hlen : (charBytes c).length = (leadByte c).2 + 1 := by rw [charBytes, List.length_cons, length_tailBytes]
  have hle := length_charBytes_le c
  cases free with
  | nil => simp at hfree
  | cons b free =>
    rw [List.length_cons] at hfree
    have htail := putTail_here lenDst c (leadByte c).2 (out ++ [BitVec.ofNat 8 (leadByte c).1]) free
      (by omega) (by rw [List.length_append, List.length_singleton]; omega)
    rw [List.length_append, List.length_singleton, List.append_assoc, List.singleton_append] at htail
    rw [putChar, storeAt_here]
    show putTail lenDst c _ _ _ = _
    rw [htail, List.length_append, hlen, charBytes]
    simp [Nat.add_assoc, Nat.add_comm 1]

/-- What the function returns, and the memory, for what was scanned behind `out`. -/
def utf16Written (out free : List Ut8) (r : List Nat × Bool) : Int × List Ut8 :=
  (if r.2 then -2 else ((out ++ charsBytes r.1).length : Int),
    out ++ charsBytes r.1 ++ free.drop (charsBytes r.1).length)

theorem utf16Written_nil (out free : List Ut8) : utf16Written out free ([], false) = ((out.length : Int), out ++ free) := by
  simp [utf16Written, charsBytes]

theorem utf16Written_half (out free : List Ut8) : utf16Written out free ([], true) = (-2, out ++ free) := by
  simp [utf16Written, charsBytes]

theorem charsBytes_cons (c : Nat) (cps : List Nat) : charsBytes (c :: cps) = charBytes c ++ charsBytes cps :=
  List.flatMap_cons

theorem utf16Written_cons (out free : List Ut8) (c : Nat) (r : List Nat × Bool) :
    utf16Written (out ++ charBytes c) (free.drop (charBytes c).length) r = utf16Written out free (c :: r.1, r.2) := by
  rw [utf16Written, utf16Written, charsBytes_cons, List.drop_drop, List.append_assoc out, @List.length_append _ (charBytes c)]

theorem drop_cons {U : List Nat} {i u : Nat} (h : U.drop i = u :: us) : U[i]? = some u ∧ U.drop (i + 1) = us := by
  have hget := congrArg (fun l : List Nat => l[0]?) h
  rw [List.getElem?_drop] at hget
  exact ⟨hget, by rw [← List.drop_drop, h]; rfl⟩

/-- The loop writes the code points that the scan finds. -/
theorem utf16Loop_eq (lenDst : Int) {U us : List Nat} (hread : ∀ j, j < src.length / 2 → readUnit src littleEndian j = U[j]?)
    (hU : U.length = src.length / 2) (hsmall : ∀ u ∈ U, u < 65536) (turns i : Nat) (out free : List Ut8)
    (hus : U.drop i = us) (hi : i ≤ U.length) (hturns : us.length < turns) (hroom : lenDst ≤ (out ++ free).length) :
    utf16Loop src lenDst littleEndian turns i (out ++ free) out.length =
      some (utf16Written out free (scanUnits lenDst us out.length)) := by
  induction turns generalizing i out free us with
  | zero => exact absurd hturns (Nat.not_lt_zero _)
  | succ turns ih =>
    rw [List.length_append] at hroom
    -- one code point is written, the rest follows
    have hput : ∀ c us' k, U.drop (i + k) = us' → i + k ≤ U.length → us'.length < turns → (out.length : Int) + 5 < lenDst →
        ((putChar lenDst c (out ++ free) out.length).bind fun r =>
          utf16Loop src lenDst littleEndian turns (i + k) r.1 r.2) =
        some (utf16Written out free (c :: (scanUnits lenDst us' (out.length + (charBytes c).length)).1,
          (scanUnits lenDst us' (out.length + (charBytes c).length)).2)) := by
      intro c us' k hdrop hk hlen hlt
      have hle := length_charBytes_le c
      have hstep := ih (i + k) (out ++ charBytes c) (free.drop (charBytes c).length) hdrop hk hlen
        (by simp only [List.length_append, List.length_drop]; omega)
      rw [putChar_here out free (by omega) (by omega), Option.bind_some, hstep, utf16Written_cons, List.length_append]
    rw [utf16Loop]
    cases us with
    | nil =>
      have hend : ¬ i < src.length / 2 := by
        have hlen := congrArg List.length hus
        rw [List.length_drop, List.length_nil] at hlen
        omega
      rw [if_neg fun h => hend h.1, scanUnits, utf16Written_nil]
    | cons u us =>
      obtain ⟨hu, hus'⟩ := drop_cons hus
      have hlt : i < U.length := (List.getElem?_eq_some_iff.mp hu).1
      have hu16 := hsmall u (List.mem_of_getElem? hu)
      rw [List.length_cons] at hturns
      by_cases hfree : (out.length : Int) + 5 < lenDst
      · rw [if_pos ⟨by omega, hfree⟩, hread i (by omega), hu]
        simp only [Option.bind_eq_bind, Option.bind_some]
        by_cases hhigh : HighSurrogate u
        · rw [if_pos ((high_iff hu16).mpr hhigh)]
          cases us with
          | nil =>
            have hend : i + 1 ≥ src.length / 2 := by
              have hlen := congrArg List.length hus'
              rw [List.length_drop, List.length_nil] at hlen
              omega
            rw [if_pos hend, scanUnits_end hfree hhigh, utf16Written_nil]
          | cons v us =>
            obtain ⟨hv, hus''⟩ := drop_cons hus'
            have hlt' : i + 1 < U.length := (List.getElem?_eq_some_iff.mp hv).1
            have hv16 := hsmall v (List.mem_of_getElem? hv)
            rw [List.length_cons] at hturns
            rw [if_neg (by omega), hread (i + 1) (by omega), hv, Option.bind_some]
            by_cases hlow : LowSurrogate v
            · rw [if_pos ((low_iff hv16).mpr hlow), if_neg (by omega), pair_eq hhigh hlow,
                scanUnits_pair hfree hhigh hlow]
              exact hput (pairValue u v) us 2 hus'' (by omega) (by omega) hfree
            · rw [if_neg fun h => hlow ((low_iff hv16).mp h)]
              rw [scanUnits_half hfree hhigh hlow, utf16Written_half]
        · rw [if_neg fun h => hhigh ((high_iff hu16).mp h), if_neg (by omega), scanUnits_plain hfree hhigh]
          exact hput u us 1 hus' (by omega) (by omega) hfree
      · rw [if_neg fun h => hfree h.2, scanUnits_full hfree, utf16Written_nil]

/-- A number that a unit or a pair of surrogates stands for. -/
def CodePoint (c : Nat) : Prop := c < 0x110000 ∧ ¬ HighSurrogate c

theorem pairValue_range {u v : Nat} (hu : HighSurrogate u) (hv : LowSurrogate v) :
    CodePoint (pairValue u v) ∧ 0x10000 ≤ pairValue u v ∧ utf16Form (pairValue u v) = [u, v] := by
  unfold HighSurrogate at hu
  unfold LowSurrogate at hv
  have hval : pairValue u v = 0x10000 + (u - 0xD800) * 1024 + (v - 0xDC00) := rfl
  refine ⟨⟨by omega, ?_⟩, by omega, ?_⟩
  · rw [HighSurrogate]
    omega
  · rw [utf16Form, if_neg (by omega), List.cons.injEq, List.cons.injEq]
    exact ⟨by omega, by omega, rfl⟩

theorem utf16Form_pair {c : Nat} (hc : CodePoint c) (hbig : 0x10000 ≤ c) :
    ∃ u v, utf16Form c = [u, v] ∧ HighSurrogate u ∧ LowSurrogate v ∧ pairValue u v = c := by
  have hlt : c < 0x110000 := hc.1
  have hnot : ¬ c < 0x10000 := Nat.not_lt.mpr hbig
  generalize hu : 0xD800 + (c - 0x10000) / 1024 = u
  generalize hv : 0xDC00 + (c - 0x10000) % 1024 = v
  have hform : utf16Form c = [u, v] := by rw [utf16Form, if_neg hnot, hu, hv]
  have hpair : pairValue u v = c := by
    unfold pairValue
    omega
  exact ⟨u, v, hform, ⟨by omega, by omega⟩, ⟨by omega, by omega⟩, hpair⟩

/-- The units `us` are the forms of the code points in `r` and a rest, which begins with half a pair if `r` says so. -/
structure UnitsSplit (lenDst : Int) (us : List Nat) (pos : Nat) (r : List Nat × Bool) (rest : List Nat) : Prop where
  units : us = r.1.flatMap utf16Form ++ rest
  points : ∀ c ∈ r.1, CodePoint c
  half : r.2 = true → ∃ u v rest', rest = u :: v :: rest' ∧ HighSurrogate u ∧ ¬ LowSurrogate v ∧
    ((pos + (charsBytes r.1).length : Nat) : Int) + 5 < lenDst

theorem UnitsSplit.stop (us : List Nat) (pos : Nat) : UnitsSplit lenDst us pos ([], false) us := by
  refine ⟨rfl, fun c hc => ?_, fun h => ?_⟩
  · cases hc
  · cases h

theorem UnitsSplit.cons {r : List Nat × Bool} (hc : CodePoint c) (h : UnitsSplit lenDst us (pos + (charBytes c).length) r rest) :
    UnitsSplit lenDst (utf16Form c ++ us) pos (c :: r.1, r.2) rest := by
  refine ⟨?_, List.forall_mem_cons.mpr ⟨hc, h.points⟩, fun hbad => ?_⟩
  · rw [List.flatMap_cons, List.append_assoc, ← h.units]
  · obtain ⟨u, v, rest', hrest, hu, hv, hlt⟩ := h.half hbad
    refine ⟨u, v, rest', hrest, hu, hv, ?_⟩
    rw [charsBytes_cons, List.length_append, ← Nat.add_assoc]
    exact hlt

/-- The scan takes the units apart. -/
theorem scanUnits_splits (lenDst : Int) (us : List Nat) (pos : Nat) (hsmall : ∀ u ∈ us, u < 65536) :
    ∃ rest, UnitsSplit lenDst us pos (scanUnits lenDst us pos) rest := by
  obtain ⟨n, hn⟩ : ∃ n, us.length ≤ n := ⟨_, Nat.le_refl _⟩
  induction n generalizing us pos with
  | zero =>
    rw [List.eq_nil_of_length_eq_zero (Nat.le_zero.mp hn)]
    exact ⟨_, UnitsSplit.stop [] pos⟩
  | succ n ih =>
    cases us with
    | nil => exact ⟨_, UnitsSplit.stop [] pos⟩
    | cons u us =>
      rw [List.length_cons] at hn
      obtain ⟨hu, hus⟩ := List.forall_mem_cons.mp hsmall
      by_cases hroom : (pos : Int) + 5 < lenDst
      · by_cases hhigh : HighSurrogate u
        · cases us with
          | nil =>
            rw [scanUnits_end hroom hhigh]
            exact ⟨_, UnitsSplit.stop [u] pos⟩
          | cons v us =>
            by_cases hlow : LowSurrogate v
            · obtain ⟨hcp, -, hform⟩ := pairValue_range hhigh hlow
              obtain ⟨rest, hsplits⟩ := ih us (pos + (charBytes (pairValue u v)).length)
                (fun w hw => hus w (List.mem_cons_of_mem _ hw)) (by rw [List.length_cons] at hn; omega)
              have hcons := hsplits.cons hcp
              rw [hform] at hcons
              rw [scanUnits_pair hroom hhigh hlow]
              exact ⟨rest, hcons⟩
            · rw [scanUnits_half hroom hhigh hlow]
              exact ⟨_, rfl, (fun c hc => by cases hc), fun _ => ⟨u, v, us, rfl, hhigh, hlow, hroom⟩⟩
        · obtain ⟨rest, hsplits⟩ := ih us (pos + (charBytes u).length) hus (by omega)
          have hcons := hsplits.cons ⟨by omega, hhigh⟩
          have hform : utf16Form u = [u] := if_pos hu
          rw [hform] at hcons
          rw [scanUnits_plain hroom hhigh]
          exact ⟨rest, hcons⟩
      · rw [scanUnits_full hroom]
        exact ⟨_, UnitsSplit.stop (u :: us) pos⟩

/-- What is written fits. -/
theorem scanUnits_bound (lenDst : Int) (us : List Nat) (pos : Nat) (hpos : pos ≤ lenDst.toNat) :
    pos + (charsBytes (scanUnits lenDst us pos).1).length ≤ lenDst.toNat := by
  obtain ⟨n, hn⟩ : ∃ n, us.length ≤ n := ⟨_, Nat.le_refl _⟩
  induction n generalizing us pos with
  | zero =>
    rw [List.eq_nil_of_length_eq_zero (Nat.le_zero.mp hn)]
    exact hpos
  | succ n ih =>
    have hnext : ∀ c us', us'.length ≤ n → (pos : Int) + 5 < lenDst →
        pos + (charsBytes (c :: (scanUnits lenDst us' (pos + (charBytes c).length)).1)).length ≤ lenDst.toNat := by
      intro c us' hus' hroom
      have hle := length_charBytes_le c
      rw [charsBytes_cons, List.length_append, ← Nat.add_assoc]
      exact ih us' (pos + (charBytes c).length) (by omega) hus'
    cases us with
    | nil => exact hpos
    | cons u us =>
      rw [List.length_cons] at hn
      by_cases hroom : (pos : Int) + 5 < lenDst
      · by_cases hhigh : HighSurrogate u
        · cases us with
          | nil =>
            rw [scanUnits_end hroom hhigh]
            exact hpos
          | cons v us =>
            rw [List.length_cons] at hn
            by_cases hlow : LowSurrogate v
            · rw [scanUnits_pair hroom hhigh hlow]
              exact hnext _ us (by omega) hroom
            · rw [scanUnits_half hroom hhigh hlow]
              exact hpos
        · rw [scanUnits_plain hroom hhigh]
          exact hnext u us (by omega) hroom
      · rw [scanUnits_full hroom]
        exact hpos

/-- The scan finds the code points that units stand for, while there is room. -/
theorem scanUnits_forms (lenDst : Int) (cps us : List Nat) (pos : Nat) (hcps : ∀ c ∈ cps, CodePoint c)
    (hroom : ((pos + (charsBytes cps).length : Nat) : Int) + 5 < lenDst) :
    scanUnits lenDst (cps.flatMap utf16Form ++ us) pos =
      (cps ++ (scanUnits lenDst us (pos + (charsBytes cps).length)).1,
        (scanUnits lenDst us (pos + (charsBytes cps).length)).2) := by
  induction cps generalizing pos with
  | nil => rfl
  | cons c cps ih =>
    obtain ⟨hc, hrest⟩ := List.forall_mem_cons.mp hcps
    rw [charsBytes_cons, List.length_append, ← Nat.add_assoc] at hroom ⊢
    have hstep := ih (pos + (charBytes c).length) hrest hroom
    by_cases hbig : 0x10000 ≤ c
    · obtain ⟨u, v, hform, hu, hv, hpair⟩ := utf16Form_pair hc hbig
      rw [List.flatMap_cons, hform, List.append_assoc]
      show scanUnits lenDst (u :: v :: (cps.flatMap utf16Form ++ us)) pos = _
      rw [scanUnits_pair (by omega) hu hv, hpair, hstep]
      rfl
    · have hform : utf16Form c = [c] := if_pos (by omega)
      rw [List.flatMap_cons, hform, List.append_assoc]
      show scanUnits lenDst (c :: (cps.flatMap utf16Form ++ us)) pos = _
      rw [scanUnits_plain (by omega) hc.2, hstep]
      rfl

end Loop

section Units

variable {src : List Ut8} {us : List Nat} {little : Bool}

theorem exists_bytes (src : List Ut8) (h : 2 ≤ src.length) : ∃ b0 b1 bs, src = b0 :: b1 :: bs := by
  obtain ⟨b0, t, rfl⟩ := List.exists_cons_of_length_pos (l := src) (by omega)
  obtain ⟨b1, bs, rfl⟩ := List.exists_cons_of_length_pos (l := t) (Nat.le_of_succ_le_succ h)
  exact ⟨b0, b1, bs, rfl⟩

theorem length_utf16Units (little : Bool) (src : List Ut8) : (utf16Units little src).length = src.length / 2 := by
  induction src using utf16Units.induct with
  | case1 b0 b1 bs ih =>
    rw [utf16Units, List.length_cons, ih, List.length_cons, List.length_cons]
    omega
  | case2 bs hshort =>
    have hlen : bs.length < 2 := by
      by_contra hlong
      obtain ⟨b0, b1, rest, rfl⟩ := exists_bytes _ (Nat.le_of_not_lt hlong)
      exact hshort b0 b1 rest rfl
    rw [utf16Units.eq_2 little bs hshort, List.length_nil]
    omega

theorem utf16Units_lt (little : Bool) (src : List Ut8) : ∀ u ∈ utf16Units little src, u < 65536 := by
  induction src using utf16Units.induct with
  | case1 b0 b1 bs ih =>
    rw [utf16Units]
    refine List.forall_mem_cons.mpr ⟨?_, ih⟩
    have h0 := b0.isLt
    have h1 := b1.isLt
    split
    · omega
    · omega
  | case2 bs hshort =>
    rw [utf16Units.eq_2 little bs hshort]
    intro u hu
    cases hu

/-- Both branches read the units as a little-endian host does. -/
theorem readUnit_eq (src : List Ut8) (littleEndian : Int) {j : Nat} (hj : j < src.length / 2) :
    readUnit src littleEndian j = (utf16Units true src)[j]? := by
  have hhost : readUnit src littleEndian j = hostUnit src j := by
    unfold readUnit
    split <;> rfl
  rw [hhost]
  induction j generalizing src with
  | zero =>
    obtain ⟨b0, b1, bs, rfl⟩ := exists_bytes src (by omega)
    have hor : b0.toNat ||| b1.toNat <<< 8 = b0.toNat + 256 * b1.toNat := by
      rw [Nat.or_comm, or_group _ b0.isLt]
      omega
    simp [hostUnit, utf16Units, hor]
  | succ j ih =>
    obtain ⟨b0, b1, bs, rfl⟩ := exists_bytes src (by omega)
    simp only [List.length_cons] at hj
    have hrest := ih bs (by omega) (by unfold readUnit; split <;> rfl)
    rw [utf16Units, List.getElem?_cons_succ, ← hrest]
    rfl

theorem utf16Units_bytes (hus : ∀ u ∈ us, u < 65536) : utf16Units little (utf16Bytes little us) = us := by
  induction us with
  | nil => rfl
  | cons u us ih =>
    obtain ⟨hu, hrest⟩ := List.forall_mem_cons.mp hus
    have hcons : utf16Bytes little (u :: us) =
        (if little then [BitVec.ofNat 8 u, BitVec.ofNat 8 (u / 256)] else [BitVec.ofNat 8 (u / 256), BitVec.ofNat 8 u]) ++
          utf16Bytes little us := List.flatMap_cons
    rw [hcons]
    cases little with
    | true =>
      simp only [if_true, List.cons_append, List.nil_append, utf16Units, ih hrest, BitVec.toNat_ofNat]
      congr 1
      omega
    | false =>
      simp only [Bool.false_eq_true, if_false, List.cons_append, List.nil_append, utf16Units, ih hrest, BitVec.toNat_ofNat]
      congr 1
      omega

/-- A unit with its bytes in the other order. -/
def swapUnit (u : Nat) : Nat := u / 256 + 256 * (u % 256)

theorem utf16Units_swapped (hus : ∀ u ∈ us, u < 65536) : utf16Units true (utf16Bytes false us) = us.map swapUnit := by
  induction us with
  | nil => rfl
  | cons u us ih =>
    obtain ⟨hu, hrest⟩ := List.forall_mem_cons.mp hus
    have hcons : utf16Bytes false (u :: us) = BitVec.ofNat 8 (u / 256) :: BitVec.ofNat 8 u :: utf16Bytes false us :=
      List.flatMap_cons
    rw [hcons, utf16Units, ih hrest, List.map_cons, swapUnit]
    simp only [if_true, BitVec.toNat_ofNat]
    congr 1
    omega

theorem swapUnit_eq_iff {u : Nat} : swapUnit u = u ↔ u / 256 = u % 256 := by
  rw [swapUnit]
  omega

end Units

section Function

variable {dst src : List Ut8} {lenDst littleEndian : Int}

/-- The function reads every source in little-endian order. -/
theorem rStrUtf16ToUtf8_eq (src : List Ut8) (littleEndian : Int) (hdst : lenDst.toNat = dst.length) :
    rStrUtf16ToUtf8 dst lenDst src littleEndian = some (utf16Written [] dst (scanUnits lenDst (utf16Units true src) 0)) := by
  have hloop := @utf16Loop_eq src littleEndian lenDst (utf16Units true src) (utf16Units true src)
    (fun j hj => readUnit_eq src littleEndian hj) (length_utf16Units true src) (utf16Units_lt true src)
    (src.length / 2 + 1) 0 [] dst rfl (Nat.zero_le _) (by rw [length_utf16Units]; omega)
    (by rw [List.nil_append]; omega)
  exact hloop

theorem charsBytes_eq {cps : List Nat} (h : ∀ c ∈ cps, CodePoint c) :
    charsBytes cps = cps.flatMap fun c : Nat => rUtf8Encode (c : Int) := by
  refine List.flatMap_congr fun c hc => charBytes_eq ?_
  have hlt := (h c hc).1
  omega

theorem codePoint_char (c : Char) : CodePoint c.toNat := by
  have hvalid := c.valid
  simp only [UInt32.isValidChar, Nat.isValidChar] at hvalid
  have hval : c.val.toNat = c.toNat := rfl
  rw [hval] at hvalid
  refine ⟨by omega, fun h => ?_⟩
  unfold HighSurrogate at h
  omega

theorem codePoints_chars (cs : List Char) : ∀ c ∈ cs.map Char.toNat, CodePoint c := by
  intro c hc
  obtain ⟨ch, -, rfl⟩ := List.mem_map.mp hc
  exact codePoint_char ch

theorem utf8Encode_eq (cs : List Char) : utf8Encode cs = charsBytes (cs.map Char.toNat) := by
  rw [charsBytes_eq (codePoints_chars cs), List.flatMap_map, utf8Encode, List.map_flatMap]
  exact List.flatMap_congr fun c _ => utf8EncodeChar_eq c

theorem utf16Encode_eq (cs : List Char) : utf16Encode cs = (cs.map Char.toNat).flatMap utf16Form := by
  rw [List.flatMap_map]
  rfl

theorem utf16Encode_lt (cs : List Char) : ∀ u ∈ utf16Encode cs, u < 65536 := by
  intro u hu
  obtain ⟨c, -, hmem⟩ := List.mem_flatMap.mp hu
  have hlt := (codePoint_char c).1
  rw [utf16Form] at hmem
  split_ifs at hmem with hsmall
  · rw [List.mem_singleton.mp hmem]
    omega
  · rcases List.mem_pair.mp hmem with heq | heq
    · omega
    · omega

/-- Different code points have different bytes. -/
theorem charsBytes_inj {cps cps' : List Nat} (h : ∀ c ∈ cps, CodePoint c) (h' : ∀ c ∈ cps', CodePoint c)
    (heq : charsBytes cps = charsBytes cps') : cps = cps' := by
  have hdecode : ∀ l : List Nat, (∀ c ∈ l, CodePoint c) →
      utf8DecodeAll (charsBytes l).length (charsBytes l) = some (l.map Int.ofNat) := fun l hl => by
    have hrange : ∀ ch ∈ l.map Int.ofNat, 0 ≤ ch ∧ ch < 0x200000 := by
      intro ch hch
      obtain ⟨c, hc, rfl⟩ := List.mem_map.mp hch
      have hlt := (hl c hc).1
      exact ⟨Int.natCast_nonneg c, by simp only [Int.ofNat_eq_natCast]; omega⟩
    have hbytes : charsBytes l = (l.map Int.ofNat).flatMap rUtf8Encode := by
      rw [charsBytes_eq hl, List.flatMap_map]
      rfl
    rw [hbytes]
    exact utf8DecodeAll_encode hrange (Nat.le_refl _)
  have hmap := (hdecode cps h).symm.trans ((heq ▸ rfl : _ = _).trans (hdecode cps' h'))
  exact List.map_injective_iff.mpr (fun a b hab => Int.ofNat.inj hab) (Option.some.inj hmap)

theorem length_charsBytes_le (cps : List Nat) : (charsBytes cps).length ≤ 4 * cps.length := by
  induction cps with
  | nil => exact Nat.le_refl _
  | cons c cps ih =>
    have hc := length_charBytes_le c
    rw [charsBytes_cons, List.length_append, List.length_cons]
    omega

theorem utf16Written_bytes_iff (r : List Nat × Bool) (bytes : List Ut8) :
    utf16Written [] dst r = ((bytes.length : Int), bytes ++ dst.drop bytes.length) ↔ r.2 = false ∧ charsBytes r.1 = bytes := by
  constructor
  · intro h
    obtain ⟨hlen, hmem⟩ := Prod.mk.inj h
    cases hr : r.2 with
    | true =>
      rw [hr, if_pos rfl] at hlen
      omega
    | false =>
      rw [hr, if_neg Bool.false_ne_true, List.nil_append] at hlen
      rw [List.nil_append] at hmem
      exact ⟨rfl, List.append_inj_left hmem (by exact_mod_cast hlen)⟩
  · rintro ⟨hr, rfl⟩
    rw [utf16Written, hr]
    rfl

theorem utf16Written_fails_iff (dst : List Ut8) (r : List Nat × Bool) : (∃ dst', utf16Written [] dst r = (-2, dst')) ↔ r.2 = true := by
  constructor
  · rintro ⟨dst', h⟩
    have hcode := congrArg Prod.fst h
    cases hr : r.2 with
    | true => rfl
    | false =>
      rw [utf16Written, hr] at hcode
      simp only [Bool.false_eq_true, if_false] at hcode
      omega
  · intro hr
    exact ⟨_, by rw [utf16Written, hr]; rfl⟩

/-- The scan ends at half a pair exactly if the source meets one. -/
theorem scanUnits_half_iff (src : List Ut8) (lenDst : Int) :
    (scanUnits lenDst (utf16Units true src) 0).2 = true ↔ MeetsHalf true src lenDst := by
  constructor
  · intro hbad
    obtain ⟨rest, hsplits⟩ := scanUnits_splits lenDst (utf16Units true src) 0 (utf16Units_lt true src)
    obtain ⟨u, v, rest', rfl, hu, hv, hroom⟩ := hsplits.half hbad
    refine ⟨_, u, v, rest', hsplits.units, hsplits.points, hu, hv, ?_⟩
    rwa [Nat.zero_add, charsBytes_eq hsplits.points] at hroom
  · rintro ⟨cps, u, v, rest, hunits, hcps, hu, hv, hroom⟩
    rw [← charsBytes_eq hcps] at hroom
    rw [hunits, scanUnits_forms lenDst cps (u :: v :: rest) 0 hcps (by rwa [Nat.zero_add]),
      scanUnits_half (by rwa [Nat.zero_add]) hu hv]

theorem utf16_round_trip_iff (hdst : lenDst.toNat = dst.length) (cs : List Char) (hroom : 4 * (cs.length : Int) + 6 ≤ lenDst) :
    rStrUtf16ToUtf8 dst lenDst (utf16Bytes (decide (littleEndian ≠ 0)) (utf16Encode cs)) littleEndian =
        some (((utf8Encode cs).length : Int), utf8Encode cs ++ dst.drop (utf8Encode cs).length) ↔
      littleEndian ≠ 0 ∨ ∀ u ∈ utf16Encode cs, u / 256 = u % 256 := by
  have hlt := utf16Encode_lt cs
  have hpoints := codePoints_chars cs
  rw [rStrUtf16ToUtf8_eq _ _ hdst, Option.some.injEq, utf16Written_bytes_iff, utf8Encode_eq]
  constructor
  · rintro ⟨-, hbytes⟩
    by_cases hle : littleEndian ≠ 0
    · exact .inl hle
    · refine .inr ?_
      obtain ⟨rest, hsplits⟩ := scanUnits_splits lenDst _ 0
        (utf16Units_lt true (utf16Bytes (decide (littleEndian ≠ 0)) (utf16Encode cs)))
      have hunits := hsplits.units
      rw [charsBytes_inj hsplits.points hpoints hbytes, ← utf16Encode_eq, decide_eq_false hle, utf16Units_swapped hlt] at hunits
      have hlen := congrArg List.length hunits
      rw [List.length_map, List.length_append] at hlen
      rw [List.eq_nil_of_length_eq_zero (l := rest) (by omega), List.append_nil] at hunits
      intro u hu
      have hself := List.map_inj_left.mp (hunits.trans (List.map_id _).symm)
      exact swapUnit_eq_iff.mp (hself u hu)
  · intro hcond
    have hunits : utf16Units true (utf16Bytes (decide (littleEndian ≠ 0)) (utf16Encode cs)) = utf16Encode cs := by
      by_cases hle : littleEndian ≠ 0
      · rw [decide_eq_true hle, utf16Units_bytes hlt]
      · rw [decide_eq_false hle, utf16Units_swapped hlt]
        refine (List.map_congr_left fun u hu => ?_).trans (List.map_id _)
        exact swapUnit_eq_iff.mpr (hcond.resolve_left hle u hu)
    have hbound := length_charsBytes_le (cs.map Char.toNat)
    rw [List.length_map] at hbound
    have hscan := scanUnits_forms lenDst (cs.map Char.toNat) [] 0 hpoints (by omega)
    rw [List.append_nil, ← utf16Encode_eq] at hscan
    rw [hunits, hscan]
    exact ⟨rfl, by rw [scanUnits, List.append_nil]⟩

end Function

/-- What `r_str_utf16_to_utf8` gives for little-endian sources; big-endian ones are read in the same order. -/
theorem rStrUtf16ToUtf8_iff (dst : List Ut8) (lenDst littleEndian : Int) (hdst : lenDst.toNat = dst.length) :
    (∀ cs : List Char, 4 * (cs.length : Int) + 6 ≤ lenDst →
      (rStrUtf16ToUtf8 dst lenDst (utf16Bytes (decide (littleEndian ≠ 0)) (utf16Encode cs)) littleEndian =
          some (((utf8Encode cs).length : Int), utf8Encode cs ++ dst.drop (utf8Encode cs).length) ↔
        (littleEndian ≠ 0 ∨ ∀ u ∈ utf16Encode cs, u / 256 = u % 256))) ∧
    ∀ src : List Ut8,
      (∃ r dst', rStrUtf16ToUtf8 dst lenDst src littleEndian = some (r, dst') ∧ dst'.length = dst.length) ∧
      (((∃ dst', rStrUtf16ToUtf8 dst lenDst src littleEndian = some (-2, dst')) ↔
          MeetsHalf (decide (littleEndian ≠ 0)) src lenDst) ↔
        (littleEndian ≠ 0 ∨ (MeetsHalf true src lenDst ↔ MeetsHalf false src lenDst))) := by
  refine ⟨fun cs hroom => utf16_round_trip_iff hdst cs hroom, fun src => ⟨?_, ?_⟩⟩
  · have hbound := scanUnits_bound lenDst (utf16Units true src) 0 (Nat.zero_le _)
    refine ⟨_, _, rStrUtf16ToUtf8_eq src littleEndian hdst, ?_⟩
    rw [List.nil_append, List.length_append, List.length_drop]
    omega
  · have hfails : (∃ dst', rStrUtf16ToUtf8 dst lenDst src littleEndian = some (-2, dst')) ↔ MeetsHalf true src lenDst := by
      rw [rStrUtf16ToUtf8_eq src littleEndian hdst, ← scanUnits_half_iff, ← utf16Written_fails_iff dst]
      simp only [Option.some.injEq]
    rw [hfails]
    by_cases hle : littleEndian ≠ 0
    · simp [hle]
    · simp [hle]

theorem rStrUtf16ToUtf8_iff_letter :
    rStrUtf16ToUtf8 (List.replicate 10 0) 10 (utf16Bytes true (utf16Encode ['A'])) 1 = some (1, 0x41 :: List.replicate 9 0) :=
  ((rStrUtf16ToUtf8_iff (List.replicate 10 0) 10 1 rfl).1 ['A'] (by decide)).mpr (.inl (by decide))

/-- The letter A in big-endian order is taken for another letter. -/
theorem big_endian_swapped :
    ¬ ∀ (dst : List Ut8) (lenDst littleEndian : Int), lenDst.toNat = dst.length → ∀ cs : List Char,
      4 * (cs.length : Int) + 6 ≤ lenDst →
        rStrUtf16ToUtf8 dst lenDst (utf16Bytes (decide (littleEndian ≠ 0)) (utf16Encode cs)) littleEndian =
          some (((utf8Encode cs).length : Int), utf8Encode cs ++ dst.drop (utf8Encode cs).length) := by
  intro h
  have hone := h (List.replicate 10 0) 10 0 rfl ['A'] (by decide)
  have hrun : rStrUtf16ToUtf8 (List.replicate 10 0) 10 (utf16Bytes false (utf16Encode ['A'])) 0 =
      some (3, [0xE4, 0x84, 0x80, 0, 0, 0, 0, 0, 0, 0]) := by decide
  exact absurd (hrun.symm.trans hone) (by decide)

end Radare
