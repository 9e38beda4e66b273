import Mathlib.Tactic.IntervalCases
import Radare.Framework.Budget
import Radare.Framework.MachineInt

namespace Radare

open Framework.Budget

/-- `r_utf8_decode`: the returned size and `*ch`, `none` when it returns zero. An `RRune` is an `int`. -/
def rUtf8Decode (ptr : List Ut8) : Option (Nat × Int) :=
  let ptrlen := ptr.length
  let p0 := ptr.getD 0 0
  let p1 := ptr.getD 1 0
  let p2 := ptr.getD 2 0
  let p3 := ptr.getD 3 0
  if ptrlen < 1 then none
  else if ptrlen > 0 ∧ p0 < 0x80 then some (1, (p0.toNat : Int))
  else if ptrlen > 1 ∧ p0 &&& 0xe0 = 0xc0 ∧ p1 &&& 0xc0 = 0x80 then
    some (2, (((p0 &&& 0x1f).toNat <<< 6 ||| (p1 &&& 0x3f).toNat : Nat) : Int))
  else if ptrlen > 2 ∧ p0 &&& 0xf0 = 0xe0 ∧ p1 &&& 0xc0 = 0x80 ∧ p2 &&& 0xc0 = 0x80 then
    some (3, (((p0 &&& 0xf).toNat <<< 12 ||| (p1 &&& 0x3f).toNat <<< 6 ||| (p2 &&& 0x3f).toNat : Nat) : Int))
  else if ptrlen > 3 ∧ p0 &&& 0xf8 = 0xf0 ∧ p1 &&& 0xc0 = 0x80 ∧ p2 &&& 0xc0 = 0x80 ∧ p3 &&& 0xc0 = 0x80 then
    some (4, (((p0 &&& 0xf).toNat <<< 18 ||| (p1 &&& 0x3f).toNat <<< 12 ||| (p2 &&& 0x3f).toNat <<< 6 |||
      (p3 &&& 0x3f).toNat : Nat) : Int))
  else none

/-- `r_utf8_encode`: the bytes it writes, as many as it returns. -/
def rUtf8Encode (ch : Int) : List Ut8 :=
  if ch < 0x80 then [BitVec.ofInt 8 ch]
  else if ch < 0x800 then
    [BitVec.ofNat 8 (0xc0 ||| ch.toNat >>> 6), BitVec.ofNat 8 (0x80 ||| (ch.toNat &&& 0x3f))]
  else if ch < 0x10000 then
    [BitVec.ofNat 8 (0xe0 ||| ch.toNat >>> 12), BitVec.ofNat 8 (0x80 ||| (ch.toNat >>> 6 &&& 0x3f)),
      BitVec.ofNat 8 (0x80 ||| (ch.toNat &&& 0x3f))]
  else if ch < 0x200000 then
    [BitVec.ofNat 8 (0xf0 ||| ch.toNat >>> 18), BitVec.ofNat 8 (0x80 ||| (ch.toNat >>> 12 &&& 0x3f)),
      BitVec.ofNat 8 (0x80 ||| (ch.toNat >>> 6 &&& 0x3f)), BitVec.ofNat 8 (0x80 ||| (ch.toNat &&& 0x3f))]
  else []

/-- A string of runes without its zero. -/
structure RuneString where
  runes : List Int
  nonzero : ∀ ch ∈ runes, ch ≠ 0

/-- The loop of `r_utf8_encode_str` over the runes and their zero; `pos` is the length of `dst`. -/
def rUtf8EncodeLoop (dstLength : Int) : List Int → List Ut8 → Option (List Ut8)
  | [], _ => none
  | ch :: str, dst =>
    if ch ≠ 0 ∧ dst.length < dstLength - 1 then rUtf8EncodeLoop dstLength str (dst ++ rUtf8Encode ch)
    else some dst

/-- `r_utf8_encode_str`: what it writes from `dst[0]` on, as many bytes as it returns. -/
def rUtf8EncodeStr (str : RuneString) (dstLength : Int) : Option (List Ut8) :=
  (rUtf8EncodeLoop dstLength (str.runes ++ [0]) []).map (· ++ [0])

/-- `r_utf8_decode` over and over, `none` if it returns zero in front of some byte. -/
def utf8DecodeAll : Nat → List Ut8 → Option (List Int)
  | _, [] => some []
  | 0, _ :: _ => none
  | fuel + 1, b :: bs =>
    match rUtf8Decode (b :: bs) with
    | none => none
    | some (n, ch) => (utf8DecodeAll fuel ((b :: bs).drop n)).map (ch :: ·)

/-- The output ends with a zero within `dst_length`, and decodes to the beginning of the string. -/
def EncodesWithin (str : RuneString) (dstLength : Int) : Prop :=
  ∃ out, rUtf8EncodeStr str dstLength = some (out ++ [0]) ∧ (out ++ [0]).length ≤ dstLength ∧
    ((∀ ch ∈ str.runes, ch < 0x200000) → ∃ rs, utf8DecodeAll out.length out = some rs ∧ rs <+: str.runes)

/-- The size of a rune's encoding. -/
def runeSize (ch : Int) : Nat := (rUtf8Encode ch).length

theorem rUtf8EncodeLoop_eq {str : List Int} (room : Nat) (dst : List Ut8) (h : ∀ ch ∈ str, ch ≠ 0) :
    rUtf8EncodeLoop (room + 1 : Nat) (str ++ [0]) dst =
      some (dst ++ (spend runeSize (room - dst.length) str).flatMap rUtf8Encode) := by
  induction str generalizing dst with
  | nil => simp [rUtf8EncodeLoop, spend]
  | cons ch str ih =>
    obtain ⟨hch, hrest⟩ := List.forall_mem_cons.mp h
    have hroom : (dst.length : Int) < ((room + 1 : Nat) : Int) - 1 ↔ 0 < room - dst.length := by omega
    simp only [List.cons_append, rUtf8EncodeLoop, spend, hch, ne_eq, not_false_eq_true, true_and, hroom]
    split_ifs
    · rw [ih _ hrest, List.length_append, ← Nat.sub_sub, List.flatMap_cons, List.append_assoc]
      rfl
    · simp

/-- The bytes of a code point behind their marks, decided over all of them together. -/
theorem marked_bytes :
    (∀ b < 64, BitVec.ofNat 8 (0x80 ||| b) &&& 0xc0 = 0x80 ∧ (BitVec.ofNat 8 (0x80 ||| b) &&& 0x3f).toNat = b) ∧
    (∀ a < 32, ¬BitVec.ofNat 8 (0xc0 ||| a) < 0x80 ∧ BitVec.ofNat 8 (0xc0 ||| a) &&& 0xe0 = 0xc0 ∧
      (BitVec.ofNat 8 (0xc0 ||| a) &&& 0x1f).toNat = a) ∧
    (∀ a < 16, ¬BitVec.ofNat 8 (0xe0 ||| a) < 0x80 ∧ BitVec.ofNat 8 (0xe0 ||| a) &&& 0xe0 ≠ 0xc0 ∧
      BitVec.ofNat 8 (0xe0 ||| a) &&& 0xf0 = 0xe0 ∧ (BitVec.ofNat 8 (0xe0 ||| a) &&& 0xf).toNat = a) ∧
    (∀ a < 8, ¬BitVec.ofNat 8 (0xf0 ||| a) < 0x80 ∧ BitVec.ofNat 8 (0xf0 ||| a) &&& 0xe0 ≠ 0xc0 ∧
      BitVec.ofNat 8 (0xf0 ||| a) &&& 0xf0 ≠ 0xe0 ∧ BitVec.ofNat 8 (0xf0 ||| a) &&& 0xf8 = 0xf0 ∧
      (BitVec.ofNat 8 (0xf0 ||| a) &&& 0xf).toNat = a) := by
  decide

theorem low_group (n : Nat) : n &&& 0x3f = n % 64 := Nat.and_two_pow_sub_one_eq_mod n 6

/-- Groups of bits are put together by adding them. -/
theorem or_group (a : Nat) {b s : Nat} (h : b < 2 ^ s) : a <<< s ||| b = a * 2 ^ s + b := by
  rw [← Nat.shiftLeft_add_eq_or_of_lt h, Nat.shiftLeft_eq]

theorem rUtf8Decode_one {p0 : Ut8} (rest : List Ut8) (h : p0 < 0x80) :
    rUtf8Decode (p0 :: rest) = some (1, (p0.toNat : Int)) := by
  rw [rUtf8Decode, if_neg (by simp), if_pos ⟨by simp, h⟩]
  rfl

theorem rUtf8Decode_two {p0 p1 : Ut8} (rest : List Ut8) (hascii : ¬p0 < 0x80) (hlead : p0 &&& 0xe0 = 0xc0)
    (htail : p1 &&& 0xc0 = 0x80) :
    rUtf8Decode (p0 :: p1 :: rest) =
      some (2, (((p0 &&& 0x1f).toNat <<< 6 ||| (p1 &&& 0x3f).toNat : Nat) : Int)) := by
  rw [rUtf8Decode, if_neg (by simp), if_neg (fun h => hascii h.2), if_pos ⟨by simp, hlead, htail⟩]
  rfl

theorem rUtf8Decode_three {p0 p1 p2 : Ut8} (rest : List Ut8) (hascii : ¬p0 < 0x80) (htwo : p0 &&& 0xe0 ≠ 0xc0)
    (hlead : p0 &&& 0xf0 = 0xe0) (htail1 : p1 &&& 0xc0 = 0x80) (htail2 : p2 &&& 0xc0 = 0x80) :
    rUtf8Decode (p0 :: p1 :: p2 :: rest) =
      some (3, (((p0 &&& 0xf).toNat <<< 12 ||| (p1 &&& 0x3f).toNat <<< 6 ||| (p2 &&& 0x3f).toNat : Nat) : Int)) := by
  rw [rUtf8Decode, if_neg (by simp), if_neg (fun h => hascii h.2), if_neg (fun h => htwo h.2.1),
    if_pos ⟨by simp, hlead, htail1, htail2⟩]
  rfl

theorem rUtf8Decode_four {p0 p1 p2 p3 : Ut8} (rest : List Ut8) (hascii : ¬p0 < 0x80) (htwo : p0 &&& 0xe0 ≠ 0xc0)
    (hthree : p0 &&& 0xf0 ≠ 0xe0) (hlead : p0 &&& 0xf8 = 0xf0) (htail1 : p1 &&& 0xc0 = 0x80)
    (htail2 : p2 &&& 0xc0 = 0x80) (htail3 : p3 &&& 0xc0 = 0x80) :
    rUtf8Decode (p0 :: p1 :: p2 :: p3 :: rest) =
      some (4, (((p0 &&& 0xf).toNat <<< 18 ||| (p1 &&& 0x3f).toNat <<< 12 ||| (p2 &&& 0x3f).toNat <<< 6 |||
        (p3 &&& 0x3f).toNat : Nat) : Int)) := by
  rw [rUtf8Decode, if_neg (by simp), if_neg (fun h => hascii h.2), if_neg (fun h => htwo h.2.1),
    if_neg (fun h => hthree h.2.1), if_pos ⟨by simp, hlead, htail1, htail2, htail3⟩]
  rfl

theorem split_two {n : Nat} : n >>> 6 <<< 6 ||| n % 64 = n := by
  rw [or_group _ (by omega), Nat.shiftRight_eq_div_pow]
  omega

theorem split_three {n : Nat} : n >>> 12 <<< 12 ||| (n >>> 6 % 64) <<< 6 ||| n % 64 = n := by
  have hlow : (n >>> 6 % 64) <<< 6 ||| n % 64 = n % 4096 := by
    rw [or_group _ (by omega), Nat.shiftRight_eq_div_pow]
    omega
  rw [Nat.or_assoc, hlow, or_group _ (by omega), Nat.shiftRight_eq_div_pow]
  omega

theorem split_four {n : Nat} :
    n >>> 18 <<< 18 ||| (n >>> 12 % 64) <<< 12 ||| (n >>> 6 % 64) <<< 6 ||| n % 64 = n := by
  have hlow : (n >>> 12 % 64) <<< 12 ||| (n >>> 6 % 64) <<< 6 ||| n % 64 = n % 262144 := by
    have hlast : (n >>> 6 % 64) <<< 6 ||| n % 64 = n % 4096 := by
      rw [or_group _ (by omega), Nat.shiftRight_eq_div_pow]
      omega
    rw [Nat.or_assoc, hlast, or_group _ (by omega), Nat.shiftRight_eq_div_pow]
    omega
  rw [Nat.or_assoc, Nat.or_assoc, ← Nat.or_assoc (_ <<< 12), hlow, or_group _ (by omega), Nat.shiftRight_eq_div_pow]
  omega

theorem rUtf8Decode_encode {ch : Int} (rest : List Ut8) (hlow : 0 ≤ ch) (hhigh : ch < 0x200000) :
    rUtf8Decode (rUtf8Encode ch ++ rest) = some (runeSize ch, ch) := by
  obtain ⟨n, rfl⟩ := Int.eq_ofNat_of_zero_le hlow
  have htail (k : Nat) := marked_bytes.1 (k % 64) (Nat.mod_lt _ (by omega))
  rw [runeSize, rUtf8Encode]
  split_ifs with hone htwo hthree
  · have hbyte : (BitVec.ofInt 8 (n : Int)).toNat = n := by
      simp only [BitVec.toNat_ofInt]
      omega
    have hlt : BitVec.ofInt 8 (n : Int) < 0x80 := by
      simp only [BitVec.lt_def, hbyte, BitVec.ofNat_eq_ofNat, BitVec.toNat_ofNat]
      omega
    rw [List.singleton_append, rUtf8Decode_one rest hlt, hbyte]
    rfl
  · obtain ⟨hascii, hlead, hval⟩ := marked_bytes.2.1 (n >>> 6) (by simp only [Nat.shiftRight_eq_div_pow]; omega)
    simp only [Int.toNat_natCast, low_group, List.cons_append, List.nil_append, List.length_cons, List.length_nil]
    rw [rUtf8Decode_two rest hascii hlead (htail n).1, hval, (htail n).2, split_two]
  · obtain ⟨hascii, hlead2, hlead, hval⟩ := marked_bytes.2.2.1 (n >>> 12) (by simp only [Nat.shiftRight_eq_div_pow]; omega)
    simp only [Int.toNat_natCast, low_group, List.cons_append, List.nil_append, List.length_cons, List.length_nil]
    rw [rUtf8Decode_three rest hascii hlead2 hlead (htail _).1 (htail n).1, hval, (htail _).2, (htail n).2, split_three]
  · obtain ⟨hascii, hlead2, hlead3, hlead, hval⟩ :=
      marked_bytes.2.2.2 (n >>> 18) (by simp only [Nat.shiftRight_eq_div_pow]; omega)
    simp only [Int.toNat_natCast, low_group, List.cons_append, List.nil_append, List.length_cons, List.length_nil]
    rw [rUtf8Decode_four rest hascii hlead2 hlead3 hlead (htail _).1 (htail _).1 (htail n).1, hval, (htail _).2,
      (htail _).2, (htail n).2, split_four]

/-- A decoded rune is not negative, and some bytes are its own. -/
theorem rUtf8Decode_nonneg {ptr : List Ut8} {n : Nat} {ch : Int} (h : rUtf8Decode ptr = some (n, ch)) :
    0 < n ∧ 0 ≤ ch := by
  unfold rUtf8Decode at h
  simp only at h
  split_ifs at h <;> obtain ⟨rfl, rfl⟩ := Prod.mk.inj (Option.some.inj h) <;>
    exact ⟨by omega, Int.natCast_nonneg _⟩

theorem rUtf8Encode_ne_nil {ch : Int} (h : ch < 0x200000) : rUtf8Encode ch ≠ [] := by
  unfold rUtf8Encode
  split_ifs <;> simp

/-- What is decoded begins with the runes that were encoded, if none of them is negative. -/
theorem utf8DecodeAll_encode {rs : List Int} {fuel : Nat} (h : ∀ ch ∈ rs, 0 ≤ ch ∧ ch < 0x200000)
    (hfuel : (rs.flatMap rUtf8Encode).length ≤ fuel) : utf8DecodeAll fuel (rs.flatMap rUtf8Encode) = some rs := by
  induction rs generalizing fuel with
  | nil => cases fuel <;> rfl
  | cons ch rs ih =>
    obtain ⟨⟨hlow, hhigh⟩, hrest⟩ := List.forall_mem_cons.mp h
    have hdec := rUtf8Decode_encode (rs.flatMap rUtf8Encode) hlow hhigh
    have hdrop : (rUtf8Encode ch ++ rs.flatMap rUtf8Encode).drop (runeSize ch) = rs.flatMap rUtf8Encode :=
      List.drop_left
    rw [List.flatMap_cons] at hfuel ⊢
    obtain ⟨b, bs, hbytes⟩ := List.exists_cons_of_ne_nil (rUtf8Encode_ne_nil hhigh)
    rw [hbytes, List.cons_append] at hfuel hdec hdrop ⊢
    simp only [List.length_cons, List.length_append] at hfuel
    obtain ⟨fuel, rfl⟩ := Nat.exists_eq_add_of_le' (by omega : 1 ≤ fuel)
    have hdecRest := ih hrest (by omega : (rs.flatMap rUtf8Encode).length ≤ fuel)
    rw [utf8DecodeAll, hdec]
    simp only [hdrop, hdecRest, Option.map_some]

/-- A negative rune is not decoded again. -/
theorem utf8DecodeAll_negative {rs tail out : List Int} {fuel : Nat} (h : ∀ ch ∈ rs, ch < 0x200000)
    (hout : utf8DecodeAll fuel (rs.flatMap rUtf8Encode) = some out) (hpre : out <+: rs ++ tail) : ∀ ch ∈ rs, 0 ≤ ch := by
  induction rs generalizing fuel out with
  | nil => simp
  | cons ch rs ih =>
    obtain ⟨hhigh, hrest⟩ := List.forall_mem_cons.mp h
    obtain ⟨b, bs, hbytes⟩ := List.exists_cons_of_ne_nil (rUtf8Encode_ne_nil hhigh)
    rw [List.flatMap_cons] at hout
    cases fuel with
    | zero =>
      rw [hbytes, List.cons_append] at hout
      simp [utf8DecodeAll] at hout
    | succ fuel =>
      have hdec (hlow : 0 ≤ ch) := rUtf8Decode_encode (rs.flatMap rUtf8Encode) hlow hhigh
      have hdrop : (rUtf8Encode ch ++ rs.flatMap rUtf8Encode).drop (runeSize ch) = rs.flatMap rUtf8Encode :=
        List.drop_left
      rw [hbytes, List.cons_append] at hout hdec hdrop
      rw [utf8DecodeAll] at hout
      cases hfirst : rUtf8Decode (b :: (bs ++ rs.flatMap rUtf8Encode)) with
      | none => simp [hfirst] at hout
      | some r =>
        simp only [hfirst, Option.map_eq_some_iff] at hout
        obtain ⟨out', hout', rfl⟩ := hout
        obtain ⟨heq, hpre'⟩ := List.cons_prefix_cons.mp hpre
        have hlow : 0 ≤ ch := by
          rw [← heq]
          exact (rUtf8Decode_nonneg hfirst).2
        rw [hdec hlow, Option.some.injEq] at hfirst
        rw [← hfirst, hdrop] at hout'
        exact List.forall_mem_cons.mpr ⟨hlow, ih hrest hout' hpre'⟩

end Radare
