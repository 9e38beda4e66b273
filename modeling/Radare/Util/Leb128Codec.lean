import Radare.Util.Uleb128

namespace Radare

open Framework.Leb128

/-- `r_uleb128`: the value and the pointer behind the number, which may be null. -/
def rUleb128Len (data : List Ut8) (datalen : Int) : Option (Ut64 × Option (List Ut8)) :=
  let datalen := if datalen = 2147483647 then 0xffff else datalen
  if datalen < 0 then some (0, none)
  else if datalen > 0 then
    match data with
    | [] => none
    | b :: rest =>
      if b ≠ 0 then (rUleb128Loop datalen.toNat 0 0 data).map (fun (sum, data) => (sum, some data))
      else some (0, some rest)
  else some (0, some data)

/-- The loop of `r_uleb128_decode`: the value, the number of its bytes and those behind it. -/
def rUleb128DecodeLoop (s l : Nat) (sum : Ut64) : List Ut8 → Option (Ut64 × Nat × List Ut8)
  | [] => none
  | c :: data =>
    if 32 ≤ s then none
    else
      let sum := sum ||| (((c &&& 0x7f).setWidth 32) <<< s).setWidth 64
      if c &&& 0x80 = 0 then some (sum, l + 1, data) else rUleb128DecodeLoop (s + 7) (l + 1) sum data

/-- `r_uleb128_decode`: the value, `*datalen` and the bytes from the returned pointer on. -/
def rUleb128Decode (data : List Ut8) : Option (Ut64 × Nat × List Ut8) :=
  match data with
  | [] => none
  | b :: _ => if b ≠ 0 then rUleb128DecodeLoop 0 0 0 data else some (0, 0, data)

def rUleb128EncodeLoop : Nat → Ut64 → List Ut8 → Option (List Ut8)
  | 0, _, _ => none
  | fuel + 1, source, target =>
    let c := (source &&& 0x7f).setWidth 8
    let source := source >>> 7
    let c := if source ≠ 0 then c ||| 0x80 else c
    if source ≠ 0 then rUleb128EncodeLoop fuel source (target ++ [c]) else some (target ++ [c])

/-- `r_uleb128_encode`; ten groups hold 64 bits. -/
def rUleb128Encode (s : Ut64) : Option (List Ut8) := rUleb128EncodeLoop 10 s []

/-- Both decoders read the encoding of `n` back, and stop right behind it. -/
def UlebRoundTrip (n : Ut64) (behind : List Ut8) : Prop :=
  ∃ bytes, rUleb128Encode n = some bytes ∧
    rUleb128Len (bytes ++ behind) bytes.length = some (n, some behind) ∧
    rUleb128Decode (bytes ++ behind) = some (n, bytes.length, behind)

/-- The largest length stands for 65535 bytes. -/
theorem rUleb128Len_max {data : List Ut8} (h : data ≠ []) :
    rUleb128Len data 2147483647 = (rUleb128 data).map (fun (sum, data) => (sum, some data)) := by
  cases data with
  | nil => exact absurd rfl h
  | cons b rest =>
    by_cases hb : b = 0
    · simp [rUleb128Len, rUleb128, hb]
    · simp only [rUleb128Len, rUleb128, ne_eq, hb, not_false_eq_true, if_true]
      norm_num
      rfl

theorem group_of_source (source : Ut64) :
    (source &&& 0x7f).setWidth 8 = BitVec.ofNat 8 (source.toNat % 128) := by
  have hmask : (0x7f : Ut64).toNat = 2 ^ 7 - 1 := rfl
  apply BitVec.eq_of_toNat_eq
  simp only [BitVec.toNat_setWidth, BitVec.toNat_and, BitVec.toNat_ofNat, hmask, Nat.and_two_pow_sub_one_eq_mod]

theorem high_bit_added : ∀ k < 128, (BitVec.ofNat 8 k) ||| 0x80 = BitVec.ofNat 8 (k + 128) := by
  decide

theorem rUleb128EncodeLoop_step (fuel : Nat) (source : Ut64) (target : List Ut8) :
    rUleb128EncodeLoop (fuel + 1) source target =
      if source.toNat < 128 then some (target ++ [BitVec.ofNat 8 source.toNat])
      else rUleb128EncodeLoop fuel (source >>> 7) (target ++ [BitVec.ofNat 8 (source.toNat % 128 + 128)]) := by
  have hzero : source >>> 7 = 0 ↔ source.toNat < 128 := by
    rw [← BitVec.toNat_inj]
    simp only [BitVec.toNat_ushiftRight, Nat.shiftRight_eq_div_pow, BitVec.ofNat_eq_ofNat, BitVec.toNat_ofNat]
    omega
  have hgroup := high_bit_added (source.toNat % 128) (by omega)
  simp only [rUleb128EncodeLoop, ne_eq, hzero, group_of_source, hgroup, ite_not]
  split_ifs with hlast
  · rw [Nat.mod_eq_of_lt hlast]
  · rfl

theorem rUleb128EncodeLoop_eq {fuel : Nat} (source : Ut64) (target : List Ut8) (h : source.toNat < 128 ^ (fuel + 1)) :
    rUleb128EncodeLoop (fuel + 1) source target = some (target ++ ulebEncode source.toNat) := by
  induction fuel generalizing source target with
  | zero =>
    have hlast : source.toNat < 128 := by simpa using h
    rw [rUleb128EncodeLoop_step, ulebEncode, if_pos hlast, if_pos hlast]
  | succ fuel ih =>
    have hdiv : (source >>> 7).toNat = source.toNat / 128 := by
      simp only [BitVec.toNat_ushiftRight, Nat.shiftRight_eq_div_pow]
    rw [rUleb128EncodeLoop_step, ulebEncode]
    split_ifs with hlast
    · rfl
    · have hrest : (source >>> 7).toNat < 128 ^ (fuel + 1) := by
        rw [Nat.pow_succ] at h
        omega
      rw [ih _ _ hrest, hdiv, List.append_assoc, List.singleton_append]

theorem rUleb128Encode_eq (n : Ut64) : rUleb128Encode n = some (ulebEncode n.toNat) := by
  have hlt := n.isLt
  simpa [rUleb128Encode] using rUleb128EncodeLoop_eq n [] (by omega : n.toNat < 128 ^ (9 + 1))

/-- Within one encoding the two loops are the same. -/
theorem rUleb128DecodeLoop_eq {bs : List Ut8} (rest : List Ut8) {room s : Nat} (l : Nat) (sum : Ut64) (h : IsLeb bs)
    (hroom : bs.length ≤ room) :
    rUleb128DecodeLoop s l sum (bs ++ rest) =
      (rUleb128Loop room s sum (bs ++ rest)).map (fun (sum, data) => (sum, l + bs.length, data)) := by
  induction bs generalizing room s l sum with
  | nil => exact h.elim
  | cons c bs ih =>
    simp only [List.length_cons] at hroom
    obtain ⟨room, rfl⟩ := Nat.exists_eq_add_of_le' (by omega : 1 ≤ room)
    simp only [List.cons_append, rUleb128DecodeLoop, rUleb128Loop, last_byte_iff]
    by_cases hs : 32 ≤ s
    · simp [hs]
    · by_cases hlast : c.toNat < 128
      · simp [hs, hlast, h.eq_singleton hlast]
      · have hbs : IsLeb bs := by
          cases bs with
          | nil => exact absurd h hlast
          | cons d bs => exact h.2
        have hcount : l + 1 + bs.length = l + (bs.length + 1) := by omega
        have hrest := ih (s := s + 7) (l + 1) (sum ||| (((c &&& 0x7f).setWidth 32) <<< s).setWidth 64) hbs
          (Nat.le_of_succ_le_succ hroom)
        simp only [hs, hlast, if_false, hrest, hcount, List.length_cons]

/-- The shifts are those of a 32-bit number, and so is the sum. -/
theorem rUleb128Loop_lt {room s : Nat} {sum v : Ut64} {data rest : List Ut8} (hsum : sum.toNat < 2 ^ 32)
    (h : rUleb128Loop room s sum data = some (v, rest)) : v.toNat < 2 ^ 32 := by
  induction room generalizing s sum data with
  | zero =>
    simp only [rUleb128Loop, Option.some.injEq, Prod.mk.injEq] at h
    rw [← h.1]
    exact hsum
  | succ room ih =>
    cases data with
    | nil => simp [rUleb128Loop] at h
    | cons c data =>
      have hstep : (sum ||| (((c &&& 0x7f).setWidth 32) <<< s).setWidth 64).toNat < 2 ^ 32 := by
        rw [BitVec.toNat_or]
        apply Nat.or_lt_two_pow hsum
        rw [BitVec.toNat_setWidth]
        exact lt_of_le_of_lt (Nat.mod_le _ _) (BitVec.isLt _)
      simp only [rUleb128Loop] at h
      split_ifs at h
      · simp only [Option.some.injEq, Prod.mk.injEq] at h
        rw [← h.1]
        exact hstep
      · exact ih hstep h

theorem ulebEncode_head {n : Nat} (h : 0 < n) : ∃ b bs, ulebEncode n = b :: bs ∧ b ≠ 0 := by
  rw [ulebEncode]
  have hne {k : Nat} (hpos : 0 < k) (hlt : k < 256) : BitVec.ofNat 8 k ≠ 0 := by
    intro hzero
    have hval := congrArg BitVec.toNat hzero
    rw [toNat_ofNat_group hlt] at hval
    simp only [BitVec.ofNat_eq_ofNat, BitVec.toNat_ofNat] at hval
    omega
  split_ifs with hsmall
  · exact ⟨_, _, rfl, hne h (by omega)⟩
  · exact ⟨_, _, rfl, hne (by omega) (by omega)⟩

/-- Both decoders run the loop over the encoding of a number that is not zero. -/
theorem uleb_decoders {n : Nat} (behind : List Ut8) (h : 0 < n) (hlen : (ulebEncode n).length ≤ 10) :
    rUleb128Len (ulebEncode n ++ behind) (ulebEncode n).length =
        (rUleb128Loop (ulebEncode n).length 0 0 (ulebEncode n ++ behind)).map (fun (sum, data) => (sum, some data)) ∧
      rUleb128Decode (ulebEncode n ++ behind) =
        (rUleb128Loop (ulebEncode n).length 0 0 (ulebEncode n ++ behind)).map
          (fun (sum, data) => (sum, (ulebEncode n).length, data)) := by
  obtain ⟨b, bs, heq, hb⟩ := ulebEncode_head h
  have hloop := rUleb128DecodeLoop_eq (s := 0) behind 0 0 (ulebEncode_isLeb n) (Nat.le_refl _)
  rw [heq] at hlen hloop ⊢
  simp only [List.length_cons] at hlen
  have hmax : ¬((bs.length + 1 : Nat) : Int) = 2147483647 := by omega
  have hpos : ((bs.length + 1 : Nat) : Int) > 0 := by omega
  simp only [List.cons_append, rUleb128Len, rUleb128Decode, List.length_cons, hb, ne_eq, not_false_eq_true, if_true]
  constructor
  · rw [if_neg hmax, if_neg (Int.lt_asymm hpos), if_pos hpos, Int.toNat_natCast]
  · simpa using hloop

theorem ulebRoundTrip_iff_loop {n : Ut64} (behind : List Ut8) (h : 0 < n.toNat) :
    UlebRoundTrip n behind ↔
      rUleb128Loop (ulebEncode n.toNat).length 0 0 (ulebEncode n.toNat ++ behind) = some (n, behind) := by
  have hlt := n.isLt
  have hlen : (ulebEncode n.toNat).length ≤ 10 := ulebEncode_length (by omega : n.toNat < 128 ^ (9 + 1))
  obtain ⟨hread, hdecode⟩ := uleb_decoders behind h hlen
  simp only [UlebRoundTrip, rUleb128Encode_eq, Option.some.injEq, exists_eq_left', hread, hdecode]
  cases rUleb128Loop (ulebEncode n.toNat).length 0 0 (ulebEncode n.toNat ++ behind) with
  | none => simp
  | some r => simp [Prod.ext_iff]

/-- A number is read back exactly if it is not zero and fits 32 bits. -/
theorem uleb128_roundTrip_iff (n : Ut64) (behind : List Ut8) :
    UlebRoundTrip n behind ↔ 0 < n.toNat ∧ n.toNat < 2 ^ 32 := by
  rcases Nat.eq_zero_or_pos n.toNat with hzero | hpos
  · have hn : n = 0 := BitVec.eq_of_toNat_eq hzero
    have hcode : ulebEncode (0 : Ut64).toNat = [0] := by simp [ulebEncode]
    simp only [hzero, Nat.lt_irrefl, false_and, iff_false]
    rintro ⟨bytes, henc, -, hdec⟩
    rw [hn, rUleb128Encode_eq, hcode, Option.some.injEq] at henc
    rw [← henc] at hdec
    simp [rUleb128Decode] at hdec
  · rw [ulebRoundTrip_iff_loop behind hpos]
    constructor
    · intro h
      exact ⟨hpos, rUleb128Loop_lt (by decide) h⟩
    · rintro ⟨-, hlt⟩
      have hlen : (ulebEncode n.toNat).length ≤ 5 := ulebEncode_length (by omega : n.toNat < 128 ^ (4 + 1))
      have hloop := rUleb128Loop_eq (ulebEncode n.toNat) behind (ulebEncode n.toNat).length 0 0 (ulebEncode_isLeb _)
        (Nat.le_refl _) (by omega) (by decide) (by simpa [ulebValue_encode] using hlt)
      simpa [ulebValue_encode] using hloop

/-- A zero is not stepped over by `r_uleb128_decode`; the top bits of the fifth group are lost. -/
theorem uleb128_roundTrip_fails : ¬UlebRoundTrip 0 [] ∧ ¬UlebRoundTrip 0x100000000 [] := by
  have hzero : rUleb128Encode 0 = some [0] := by decide
  have hlarge : rUleb128Encode 0x100000000 = some [0x80, 0x80, 0x80, 0x80, 0x10] := by decide
  constructor
  · rintro ⟨bytes, henc, -, hdec⟩
    rw [hzero, Option.some.injEq] at henc
    rw [← henc] at hdec
    exact absurd hdec (by decide)
  · rintro ⟨bytes, henc, hread, -⟩
    rw [hlarge, Option.some.injEq] at henc
    rw [← henc] at hread
    exact absurd hread (by decide)

/-- The loop of `r_leb128` does not step over a zero. -/
theorem rLeb128Loop_stops {bs rest data : List Ut8} {s s' : Nat} {sum sum' : Ut64} {c c' : Ut8} (hbs : IsLeb bs)
    (hlast : bs.getLast? = some 0) (h : rLeb128Loop s sum c (bs ++ rest) = some (s', sum', c', data)) :
    data = 0 :: rest := by
  induction bs generalizing s sum c with
  | nil => exact hbs.elim
  | cons b bs ih =>
    cases bs with
    | nil =>
      have hb : b = 0 := by simpa using hlast
      simp only [hb, List.singleton_append, rLeb128Loop, if_true, Option.some.injEq, Prod.mk.injEq] at h
      exact h.2.2.2.symm
    | cons d bs =>
      have hge : ¬b.toNat < 128 := Nat.not_lt.mpr hbs.1
      have hb : b ≠ 0 := by
        intro hzero
        rw [hzero] at hge
        exact hge (by decide)
      rw [List.cons_append, rLeb128Loop, if_neg hb] at h
      simp only [last_byte_iff, if_neg hge] at h
      split_ifs at h
      exact ih hbs.2 (by simpa using hlast) h

/-- A number is read back exactly if its last group is not zero. -/
theorem leb128_decode_iff (n : Ut64) (rest : List Ut8) :
    rLeb128 (slebEncode n.toInt ++ rest) = some (n, rest) ↔
      n.toInt ≠ 0 ∧ ∀ k : Nat, ¬(2 ^ (7 * k + 6) ≤ n.toInt ∧ n.toInt < 2 ^ (7 * k + 7)) := by
  have hzero := slebEncode_getLast_zero n.toInt
  have hleb := slebEncode_isLeb n.toInt
  have hlen : (slebEncode n.toInt).length ≤ 10 := by
    have hlow := n.le_toInt
    have hhigh := n.toInt_lt
    exact slebEncode_length (k := 9) (by omega)
  rw [← not_exists, ← not_or, ← hzero]
  constructor
  · intro h hlast
    rw [rLeb128, Option.map_eq_some_iff] at h
    obtain ⟨⟨s, sum, c, data⟩, hloop, hres⟩ := h
    have hdata := rLeb128Loop_stops hleb hlast hloop
    simp only [hdata, Prod.mk.injEq] at hres
    exact absurd hres.2 (List.cons_ne_self _ _)
  · intro hlast
    rw [rLeb128_eq _ rest hleb hlast hlen, slebValue_encode, BitVec.ofInt_toInt]

/-- The groups C0 00 of 64 are read as -64, and the pointer stays on the second. -/
theorem leb128_decode_fails :
    rLeb128 (slebEncode (64 : Ut64).toInt) = some (-64, [0]) ∧ rLeb128 (slebEncode (64 : Ut64).toInt) ≠ some (64, []) := by
  have hcode : slebEncode (64 : Ut64).toInt = [0xC0, 0] := by
    have hval : (64 : Ut64).toInt = 64 := by decide
    rw [hval]
    simp [slebEncode]
  have hread : rLeb128 [0xC0, 0] = some (-64, [0]) := by decide
  rw [hcode, hread]
  exact ⟨rfl, by decide⟩

end Radare
