import Radare.Util.Endian

namespace Radare

/-- The alphabet; no two entries are equal and none is NUL. -/
def b91 : List Char :=
  ['A', 'B', 'C', 'D', 'E', 'F', 'G', 'H', 'I', 'J',
   'K', 'L', 'M', 'N', 'O', 'P', 'Q', 'R', 'S', 'T',
   'U', 'V', 'W', 'X', 'Y', 'Z', 'a', 'b', 'c', 'd',
   'e', 'f', 'g', 'h', 'i', 'j', 'k', 'l', 'm', 'n',
   'o', 'p', 'q', 'r', 's', 't', 'u', 'v', 'w', 'x',
   'y', 'z', '0', '1', '2', '3', '4', '5', '6', '7',
   '8', '9', '!', '#', '$', '%', '&', '(', ')', '*',
   '+', ',', '.', '/', ':', ';', '<', '=', '>', '?',
   '@', '[', ']', '^', '_', '\x60', '\x7b', '|', '\x7d', '~', '\x22']

/-- `b91[v]`; the encoder's indices stay below 91. -/
def b91At (v : Nat) : Char := b91.getD v '\x00'

/-- `get_char_index`, with `none` for -1. -/
def getCharIndex (c : Char) : Option Nat := b91.findIdx? (· == c)

/-- The items a negative `len` stands for end before the first zero (`strlen`). -/
def inputItems {α : Type} [DecidableEq α] (zero : α) (bin : List α) (len : Int) : List α :=
  if len < 0 then bin.takeWhile (· ≠ zero) else bin.take len.toNat

/-- The locals of `r_base91_encode`. -/
structure B91Encoder where
  b : Nat
  n : Nat
  out : List Char

/-- One round of the loop of `r_base91_encode`. -/
def B91Encoder.step (s : B91Encoder) (c : Ut8) : B91Encoder :=
  let b := s.b ||| (c.toNat <<< s.n)
  let n := s.n + 8
  if n > 13 then
    let v := b &&& 8191
    if v > 88 then ⟨b >>> 13, n - 13, s.out ++ [b91At (v % 91), b91At (v / 91)]⟩
    else
      let v := b &&& 16383
      ⟨b >>> 14, n - 14, s.out ++ [b91At (v % 91), b91At (v / 91)]⟩
  else ⟨b, n, s.out⟩

/-- The flush after the loop: one character, or two when one cannot hold the rest. -/
def B91Encoder.flush (s : B91Encoder) : List Char :=
  if s.n ≠ 0 then
    if s.n > 7 ∨ s.b > 90 then s.out ++ [b91At (s.b % 91), b91At (s.b / 91)]
    else s.out ++ [b91At (s.b % 91)]
  else s.out

/-- What `r_base91_encode` writes to `bout`. -/
def base91Text (bin : List Ut8) (len : Int) : List Char :=
  ((inputItems 0 bin len).foldl B91Encoder.step ⟨0, 0, []⟩).flush

/-- The `int` in `out` counts the characters, and overflows at `none`. -/
def rBase91Encode (bin : List Ut8) (len : Int) : Option (List Char) :=
  if (base91Text bin len).length > 2147483647 then none else some (base91Text bin len)

/-- The locals of `r_base91_decode`; `v = none` is -1. -/
structure B91Decoder where
  v : Option Nat
  b : Nat
  n : Nat
  out : List Ut8

/-- The inner `while (true)`: it emits a byte before it looks at `n`. -/
def B91Decoder.drain (b n : Nat) (out : List Ut8) : B91Decoder :=
  if n - 8 ≤ 7 then ⟨none, b >>> 8, n - 8, out ++ [BitVec.ofNat 8 (b &&& 255)]⟩
  else B91Decoder.drain (b >>> 8) (n - 8) (out ++ [BitVec.ofNat 8 (b &&& 255)])
  termination_by n

def B91Decoder.step (s : B91Decoder) (ch : Char) : B91Decoder :=
  match getCharIndex ch with
  | none => s
  | some c =>
    match s.v with
    | none => { s with v := some c }
    | some v =>
      let v := v + c * 91
      let b := s.b ||| (v <<< s.n)
      if v &&& 8191 > 88 then B91Decoder.drain b (s.n + 13) s.out
      else B91Decoder.drain b (s.n + 14) s.out

def B91Decoder.flush (s : B91Decoder) : List Ut8 :=
  match s.v with
  | none => s.out
  | some v => s.out ++ [BitVec.ofNat 8 ((s.b ||| (v <<< s.n)) &&& 255)]

def rBase91Decode (bin : List Char) (len : Int) : List Ut8 :=
  ((inputItems '\x00' bin len).foldl B91Decoder.step ⟨none, 0, 0, []⟩).flush

theorem getCharIndex_b91At {v : Nat} (h : v < 91) : getCharIndex (b91At v) = some v := by
  have all : ∀ v < 91, getCharIndex (b91At v) = some v := by decide +kernel
  exact all v h

theorem b91At_ne_nul {v : Nat} (h : v < 91) : b91At v ≠ '\x00' := by
  have all : ∀ v < 91, b91At v ≠ '\x00' := by decide
  exact all v h

/-- The bit queue: new bits go above the `n` bits that wait. -/
theorem or_shiftLeft_eq {b n : Nat} (h : b < 2 ^ n) (c : Nat) :
    b ||| (c <<< n) = b + 2 ^ n * c := by
  rw [Nat.shiftLeft_eq, Nat.mul_comm, Nat.or_comm, ← Nat.two_pow_add_eq_or_of_lt h, Nat.add_comm]

theorem queue_lt {b n c k : Nat} (h : b < 2 ^ n) (hc : c < 2 ^ k) : b + 2 ^ n * c < 2 ^ (n + k) := by
  have hk : c + 1 ≤ 2 ^ k := hc
  have hm := Nat.mul_le_mul_left (2 ^ n) hk
  rw [pow_add]
  rw [Nat.mul_add, Nat.mul_one] at hm
  omega

/-- The number the decoder holds: the bytes written and, above them, the bits that wait. -/
def B91Decoder.value (s : B91Decoder) : Nat := leNat s.out + 256 ^ s.out.length * s.b

def B91Decoder.bits (s : B91Decoder) : Nat := 8 * s.out.length + s.n

theorem B91Decoder.place (s : B91Decoder) : 256 ^ s.out.length * 2 ^ s.n = 2 ^ s.bits := by
  rw [show (256 : Nat) = 2 ^ 8 from rfl, ← pow_mul, ← pow_add, B91Decoder.bits]

/-- A decoder between two pairs. -/
structure B91Decoder.Rests (s : B91Decoder) : Prop where
  pair : s.v = none
  few : s.n ≤ 7
  fits : s.b < 2 ^ s.n

theorem lowByte_toNat (b : Nat) : (BitVec.ofNat 8 (b &&& 255)).toNat = b % 256 := by
  rw [show (255 : Nat) = 2 ^ 8 - 1 from rfl, Nat.and_two_pow_sub_one_eq_mod, BitVec.toNat_ofNat]
  omega

/-- Draining moves bits from the queue to the output and loses none. -/
theorem drain_spec (b n : Nat) (out : List Ut8) (hn : 8 ≤ n) (hb : b < 2 ^ n) :
    (B91Decoder.drain b n out).Rests ∧
    (B91Decoder.drain b n out).value = leNat out + 256 ^ out.length * b ∧
    (B91Decoder.drain b n out).bits = 8 * out.length + n := by
  have hshift : ∀ b, b >>> 8 = b / 256 := fun b => Nat.shiftRight_eq_div_pow b 8
  have hval : ∀ b out, leNat (out ++ [BitVec.ofNat 8 (b &&& 255)]) +
      256 ^ (out ++ [BitVec.ofNat 8 (b &&& 255)]).length * (b >>> 8) =
      leNat out + 256 ^ out.length * b := by
    intro b out
    have hsplit : b = b % 256 + 256 * (b / 256) := (Nat.mod_add_div b 256).symm
    rw [leNat_append, leNat, leNat, lowByte_toNat, hshift, List.length_append, List.length_singleton]
    conv_rhs => rw [hsplit]
    ring
  have hfit : ∀ b n, 8 ≤ n → b < 2 ^ n → b >>> 8 < 2 ^ (n - 8) := by
    intro b n hn hb
    rw [Nat.shiftRight_eq_div_pow]
    apply Nat.div_lt_of_lt_mul
    rw [← pow_add]
    have hexp : 8 + (n - 8) = n := by omega
    rwa [hexp]
  induction b, n, out using B91Decoder.drain.induct with
  | case1 b n out hle =>
    rw [B91Decoder.drain, if_pos hle]
    refine ⟨⟨rfl, hle, hfit b n hn hb⟩, hval b out, ?_⟩
    simp only [B91Decoder.bits, List.length_append, List.length_singleton]
    omega
  | case2 b n out hgt ih =>
    rw [B91Decoder.drain, if_neg hgt]
    obtain ⟨hr, hv, hbits⟩ := ih (by omega) (hfit b n hn hb)
    refine ⟨hr, hv.trans (hval b out), ?_⟩
    rw [hbits, List.length_append, List.length_singleton]
    omega

/-- The number of bits the decoder takes a pair for. -/
def pairBits (v : Nat) : Nat := if v % 8192 > 88 then 13 else 14

theorem pairBits_cases (v : Nat) : pairBits v = 13 ∨ pairBits v = 14 := by
  unfold pairBits
  split
  · exact Or.inl rfl
  · exact Or.inr rfl

theorem and_8191 (v : Nat) : v &&& 8191 = v % 8192 := Nat.and_two_pow_sub_one_eq_mod v 13

theorem and_16383 (v : Nat) : v &&& 16383 = v % 16384 := Nat.and_two_pow_sub_one_eq_mod v 14

/-- A pair of characters puts its value above the bits that wait. -/
theorem decode_pair {s : B91Decoder} (hs : s.Rests) {v : Nat} (hv : v < 8281)
    (hfit : v < 2 ^ pairBits v) :
    ([b91At (v % 91), b91At (v / 91)].foldl B91Decoder.step s).Rests ∧
    ([b91At (v % 91), b91At (v / 91)].foldl B91Decoder.step s).value =
      leNat s.out + 256 ^ s.out.length * (s.b + 2 ^ s.n * v) ∧
    ([b91At (v % 91), b91At (v / 91)].foldl B91Decoder.step s).bits = s.bits + pairBits v := by
  have hlo : getCharIndex (b91At (v % 91)) = some (v % 91) := getCharIndex_b91At (by omega)
  have hhi : getCharIndex (b91At (v / 91)) = some (v / 91) := getCharIndex_b91At (by omega)
  have hsum : v % 91 + v / 91 * 91 = v := by omega
  have hstep : [b91At (v % 91), b91At (v / 91)].foldl B91Decoder.step s =
      B91Decoder.drain (s.b + 2 ^ s.n * v) (s.n + pairBits v) s.out := by
    simp only [List.foldl_cons, List.foldl_nil, B91Decoder.step, hlo, hhi, hs.pair, hsum, and_8191,
      or_shiftLeft_eq hs.fits, pairBits]
    split <;> rfl
  rw [hstep]
  have hpair := pairBits_cases v
  have hmany : 8 ≤ s.n + pairBits v := by omega
  obtain ⟨hr, hval, hbits⟩ := drain_spec _ _ s.out hmany (queue_lt hs.fits hfit)
  refine ⟨hr, hval, ?_⟩
  rw [hbits, B91Decoder.bits]
  omega

theorem clean_pair {out : List Char} (h : ∀ c ∈ out, c ≠ '\x00') {v : Nat} (hv : v < 8281) :
    ∀ c ∈ out ++ [b91At (v % 91), b91At (v / 91)], c ≠ '\x00' := by
  intro c hc
  rcases List.mem_append.mp hc with hold | hnew
  · exact h c hold
  · simp only [List.mem_cons, List.not_mem_nil, or_false] at hnew
    rcases hnew with rfl | rfl
    · exact b91At_ne_nul (by omega)
    · exact b91At_ne_nul (by omega)

/-- After the bytes `pre`: the decoder `d`, fed what the encoder wrote, holds all but the
encoder's queue, which belongs above its own. -/
structure B91Sync (pre : List Ut8) (e : B91Encoder) (d : B91Decoder) : Prop where
  fed : e.out.foldl B91Decoder.step ⟨none, 0, 0, []⟩ = d
  clean : ∀ c ∈ e.out, c ≠ '\x00'
  fits : e.b < 2 ^ e.n
  rests : d.Rests
  value : leNat d.out + 256 ^ d.out.length * (d.b + 2 ^ d.n * e.b) = leNat pre
  bits : d.bits + e.n = 8 * pre.length

theorem B91Sync.start : B91Sync [] ⟨0, 0, []⟩ ⟨none, 0, 0, []⟩ := by
  refine ⟨rfl, ?_, by decide, ⟨rfl, by decide, by decide⟩, by decide, rfl⟩
  intro c hc
  cases hc

/-- A byte enters the encoder's queue. -/
theorem B91Sync.push {pre : List Ut8} {e : B91Encoder} {d : B91Decoder} (hs : B91Sync pre e d)
    (c : Ut8) : B91Sync (pre ++ [c]) ⟨e.b + 2 ^ e.n * c.toNat, e.n + 8, e.out⟩ d := by
  have hplace : 256 ^ d.out.length * (2 ^ d.n * 2 ^ e.n) = 256 ^ pre.length := by
    rw [← Nat.mul_assoc, d.place, ← pow_add, hs.bits, show (256 : Nat) = 2 ^ 8 from rfl, pow_mul]
  refine ⟨hs.fed, hs.clean, queue_lt hs.fits c.isLt, hs.rests, ?_, ?_⟩
  · calc leNat d.out + 256 ^ d.out.length * (d.b + 2 ^ d.n * (e.b + 2 ^ e.n * c.toNat))
        = leNat d.out + 256 ^ d.out.length * (d.b + 2 ^ d.n * e.b) +
            256 ^ d.out.length * (2 ^ d.n * 2 ^ e.n) * c.toNat := by ring
      _ = leNat pre + 256 ^ pre.length * c.toNat := by rw [hs.value, hplace]
      _ = leNat (pre ++ [c]) := by simp [leNat_append, leNat]
  · have hbits := hs.bits
    simp only [List.length_append, List.length_singleton]
    omega

/-- The encoder sends the low bits of its queue, as many as the decoder takes the pair for. -/
theorem B91Sync.send {pre : List Ut8} {e : B91Encoder} {d : B91Decoder} (hs : B91Sync pre e d)
    {v k : Nat} (hk : k = pairBits v) (hv : v = e.b % 2 ^ k) (hn : k ≤ e.n) (hlt : v < 8281) :
    ∃ d', B91Sync pre ⟨e.b / 2 ^ k, e.n - k, e.out ++ [b91At (v % 91), b91At (v / 91)]⟩ d' := by
  have hfit : v < 2 ^ pairBits v := by
    rw [← hk, hv]
    exact Nat.mod_lt _ (Nat.two_pow_pos k)
  obtain ⟨hr, hval, hbits⟩ := decode_pair hs.rests hlt hfit
  generalize hd : [b91At (v % 91), b91At (v / 91)].foldl B91Decoder.step d = d' at hr hval hbits
  refine ⟨d', ?_, ?_, ?_, hr, ?_, ?_⟩
  · rw [List.foldl_append, hs.fed, hd]
  · exact clean_pair hs.clean hlt
  · apply Nat.div_lt_of_lt_mul
    rw [← pow_add, show k + (e.n - k) = e.n by omega]
    exact hs.fits
  · have hq : e.b = v + 2 ^ k * (e.b / 2 ^ k) := by
      rw [hv, Nat.mod_add_div]
    have hplace : 256 ^ d'.out.length * 2 ^ d'.n = 256 ^ d.out.length * (2 ^ d.n * 2 ^ k) := by
      rw [d'.place, hbits, ← hk, pow_add, ← d.place, Nat.mul_assoc]
    calc leNat d'.out + 256 ^ d'.out.length * (d'.b + 2 ^ d'.n * (e.b / 2 ^ k))
        = d'.value + 256 ^ d'.out.length * 2 ^ d'.n * (e.b / 2 ^ k) := by
          rw [B91Decoder.value]
          ring
      _ = leNat d.out + 256 ^ d.out.length * (d.b + 2 ^ d.n * (v + 2 ^ k * (e.b / 2 ^ k))) := by
          rw [hval, hplace]
          ring
      _ = leNat pre := by rw [← hq, hs.value]
  · have hbits' := hs.bits
    rw [hbits]
    show d.bits + pairBits v + (e.n - k) = 8 * pre.length
    omega

theorem pairBits_mod (v : Nat) : pairBits (v % 2 ^ pairBits v) = pairBits v := by
  have hpair := pairBits_cases v
  unfold pairBits at hpair ⊢
  split_ifs at hpair ⊢ <;> omega

/-- A full queue gives up as many bits as the decoder takes the pair for. -/
theorem B91Encoder.step_eq {s : B91Encoder} (h : s.b < 2 ^ s.n) (c : Ut8) {b : Nat}
    (hb : b = s.b + 2 ^ s.n * c.toNat) :
    s.step c = if s.n + 8 > 13 then
      ⟨b / 2 ^ pairBits b, s.n + 8 - pairBits b, s.out ++
        [b91At (b % 2 ^ pairBits b % 91), b91At (b % 2 ^ pairBits b / 91)]⟩
    else ⟨b, s.n + 8, s.out⟩ := by
  rw [B91Encoder.step, or_shiftLeft_eq h, ← hb]
  simp only [and_8191, and_16383, Nat.shiftRight_eq_div_pow, pairBits]
  split_ifs <;> rfl

theorem B91Sync.step {pre : List Ut8} {e : B91Encoder} {d : B91Decoder} (hs : B91Sync pre e d)
    (hn : e.n ≤ 13) (c : Ut8) : (e.step c).n ≤ 13 ∧ ∃ d', B91Sync (pre ++ [c]) (e.step c) d' := by
  have hpush := hs.push c
  rw [B91Encoder.step_eq hs.fits c rfl]
  generalize e.b + 2 ^ e.n * c.toNat = b at hpush ⊢
  have hpair := pairBits_cases b
  split_ifs with hbig
  · have hlt : b % 2 ^ pairBits b < 8281 := by
      unfold pairBits
      split_ifs <;> omega
    refine ⟨?_, hpush.send (pairBits_mod b).symm rfl (by dsimp only; omega) hlt⟩
    show e.n + 8 - pairBits b ≤ 13
    omega
  · refine ⟨?_, d, hpush⟩
    show e.n + 8 ≤ 13
    omega

theorem B91Sync.run {pre : List Ut8} {e : B91Encoder} {d : B91Decoder} (hs : B91Sync pre e d)
    (hn : e.n ≤ 13) (bs : List Ut8) :
    (bs.foldl B91Encoder.step e).n ≤ 13 ∧
      ∃ d', B91Sync (pre ++ bs) (bs.foldl B91Encoder.step e) d' := by
  induction bs generalizing pre e d with
  | nil =>
    refine ⟨hn, d, ?_⟩
    rw [List.append_nil]
    exact hs
  | cons c bs ih =>
    obtain ⟨hn', d', hs'⟩ := hs.step hn c
    have htail := ih hs' hn'
    rwa [List.append_assoc] at htail

/-- A decoder that holds the number of `bs` and has written as many bytes has written `bs`. -/
theorem out_eq_of_value {d : B91Decoder} {bs : List Ut8} (hl : d.out.length = bs.length)
    (h : d.value = leNat bs) : d.out = bs := by
  have hlt := leNat_lt bs
  unfold B91Decoder.value at h
  rw [← hl] at hlt
  have hzero : d.b = 0 := by
    by_contra hne
    have hone : 1 ≤ d.b := Nat.one_le_iff_ne_zero.mpr hne
    have hmul := Nat.mul_le_mul_left (256 ^ d.out.length) hone
    omega
  rw [hzero, Nat.mul_zero, Nat.add_zero] at h
  exact leNat_inj hl h

/-- The flush: whatever rule the tail is written by, the decoder ends with every byte. -/
theorem B91Sync.finish {bs : List Ut8} {e : B91Encoder} {d : B91Decoder} (hs : B91Sync bs e d)
    (hn : e.n ≤ 13) :
    (e.flush.foldl B91Decoder.step ⟨none, 0, 0, []⟩).flush = bs ∧ ∀ c ∈ e.flush, c ≠ '\x00' := by
  have hbits := hs.bits
  have hfew := hs.rests.few
  have hb : e.b < 8192 := lt_of_lt_of_le hs.fits (Nat.pow_le_pow_right (by decide) hn)
  unfold B91Decoder.bits at hbits
  unfold B91Encoder.flush
  by_cases hz : e.n ≠ 0
  · rw [if_pos hz]
    by_cases htwo : e.n > 7 ∨ e.b > 90
    · rw [if_pos htwo]
      have hseven : 7 ≤ e.n := by
        by_contra hlt
        have hsmall : e.b < 2 ^ 6 :=
          lt_of_lt_of_le hs.fits (Nat.pow_le_pow_right (by decide) (by omega))
        omega
      have hpair := pairBits_cases e.b
      have hfit : e.b < 2 ^ pairBits e.b := by
        rcases hpair with h | h <;> rw [h] <;> omega
      obtain ⟨hr, hval, hbits'⟩ := decode_pair hs.rests (show e.b < 8281 by omega) hfit
      generalize hd : [b91At (e.b % 91), b91At (e.b / 91)].foldl B91Decoder.step d = d'
        at hr hval hbits'
      have hfew' := hr.few
      simp only [B91Decoder.bits] at hbits'
      constructor
      · rw [List.foldl_append, hs.fed, hd, B91Decoder.flush, hr.pair]
        exact out_eq_of_value (by omega) (hval.trans hs.value)
      · exact clean_pair hs.clean (by omega)
    · rw [if_neg htwo]
      -- the queue and the decoder's own bits make one byte
      have height : d.n + e.n = 8 := by omega
      have hbyte : d.b + 2 ^ d.n * e.b < 256 := by
        rw [show (256 : Nat) = 2 ^ 8 from rfl, ← height]
        exact queue_lt hs.rests.fits hs.fits
      have hmod : e.b % 91 = e.b := Nat.mod_eq_of_lt (by omega)
      constructor
      · rw [List.foldl_append, hs.fed, List.foldl_cons, List.foldl_nil, B91Decoder.step, hmod,
          getCharIndex_b91At (by omega), hs.rests.pair]
        show d.out ++ [BitVec.ofNat 8 ((d.b ||| (e.b <<< d.n)) &&& 255)] = bs
        apply leNat_inj
        · rw [List.length_append, List.length_singleton]
          omega
        · rw [leNat_append, leNat, leNat, lowByte_toNat, or_shiftLeft_eq hs.rests.fits,
            Nat.mod_eq_of_lt hbyte, Nat.mul_zero, Nat.add_zero]
          exact hs.value
      · intro c hc
        rcases List.mem_append.mp hc with hold | hnew
        · exact hs.clean c hold
        · rw [List.mem_singleton.mp hnew]
          exact b91At_ne_nul (by omega)
  · rw [if_neg hz]
    have hn0 : e.n = 0 := not_not.mp hz
    have hb0 : e.b = 0 := by
      have hfits := hs.fits
      rw [hn0] at hfits
      omega
    have hval := hs.value
    rw [hb0, Nat.mul_zero, Nat.add_zero] at hval
    refine ⟨?_, hs.clean⟩
    rw [hs.fed, B91Decoder.flush, hs.rests.pair]
    exact out_eq_of_value (by omega) hval

theorem inputItems_length {α : Type} [DecidableEq α] (zero : α) (bin : List α) :
    inputItems zero bin bin.length = bin := by
  rw [inputItems, if_neg (by omega), Int.toNat_natCast, List.take_length]

theorem inputItems_terminated {text : List Char} (h : ∀ c ∈ text, c ≠ '\x00') (rest : List Char) :
    inputItems '\x00' (text ++ '\x00' :: rest) (-1) = text := by
  rw [inputItems, if_pos (by decide), List.takeWhile_append_of_pos]
  · rw [List.takeWhile_cons_of_neg (by simp), List.append_nil]
  · intro c hc
    simpa using h c hc

/-- The text gives the bytes back, by its length and as a C string. -/
theorem rBase91Decode_text (bs : List Ut8) :
    rBase91Decode (base91Text bs bs.length) (base91Text bs bs.length).length = bs ∧
    ∀ rest, rBase91Decode (base91Text bs bs.length ++ '\x00' :: rest) (-1) = bs := by
  obtain ⟨hn, d, hs⟩ := B91Sync.start.run (by decide) bs
  rw [List.nil_append] at hs
  obtain ⟨hdec, hclean⟩ := hs.finish hn
  rw [base91Text, inputItems_length]
  constructor
  · rw [rBase91Decode, inputItems_length]
    exact hdec
  · intro rest
    rw [rBase91Decode, inputItems_terminated hclean]
    exact hdec

/-- The characters of the text of a number of so many bits: two for every thirteen or fourteen of
them from the low end, and one or two for the last thirteen or fewer. -/
def base91Length (v bits : Nat) : Nat :=
  if bits > 13 then base91Length (v / 2 ^ pairBits v) (bits - pairBits v) + 2
  else if bits = 0 then 0
  else if bits > 7 ∨ v > 90 then 2 else 1
  termination_by bits
  decreasing_by
    have hpair := pairBits_cases v
    omega

/-- No text is shorter than eight sevenths of the bytes. -/
theorem bits_le_base91Length (v bits : Nat) : bits ≤ 7 * base91Length v bits := by
  induction v, bits using base91Length.induct with
  | case1 v bits hmany ih =>
    have hpair := pairBits_cases v
    rw [base91Length, if_pos hmany]
    omega
  | case2 v hfew =>
    exact Nat.zero_le _
  | case3 v bits hfew hz htwo =>
    rw [base91Length, if_neg hfew, if_neg hz, if_pos htwo]
    omega
  | case4 v bits hfew hz hone =>
    rw [base91Length, if_neg hfew, if_neg hz, if_neg hone]
    omega

theorem B91Encoder.flush_length {s : B91Encoder} (hn : s.n ≤ 13) :
    s.flush.length = s.out.length + base91Length s.b s.n := by
  have hfew : ¬s.n > 13 := Nat.not_lt.mpr hn
  rw [B91Encoder.flush, base91Length]
  by_cases hz : s.n = 0
  · simp [hz]
  · rw [if_pos hz, if_neg hfew, if_neg hz]
    split_ifs <;> simp

/-- Bits above the thirteenth do not matter for how many a pair takes. -/
theorem pairBits_add {n : Nat} (hn : 13 ≤ n) (b c : Nat) : pairBits (b + 2 ^ n * c) = pairBits b := by
  obtain ⟨k, rfl⟩ := Nat.exists_eq_add_of_le hn
  have hmod : (b + 2 ^ (13 + k) * c) % 8192 = b % 8192 := by
    rw [pow_add, Nat.mul_assoc]
    exact Nat.add_mul_mod_self_left b 8192 (2 ^ k * c)
  rw [pairBits, pairBits, hmod]

/-- The bytes to come count for the text as the bits above the queue. -/
theorem B91Encoder.run_length {s : B91Encoder} (hs : s.b < 2 ^ s.n) (hn : s.n ≤ 13)
    (bs : List Ut8) : (bs.foldl B91Encoder.step s).flush.length =
      s.out.length + base91Length (s.b + 2 ^ s.n * leNat bs) (s.n + 8 * bs.length) := by
  induction bs generalizing s with
  | nil =>
    rw [List.foldl_nil, s.flush_length hn, leNat, Nat.mul_zero, List.length_nil]
    rfl
  | cons c bs ih =>
    have hstep := B91Encoder.step_eq hs c rfl
    have hqueue : s.b + 2 ^ s.n * c.toNat < 2 ^ (s.n + 8) := queue_lt hs c.isLt
    have hvalue : s.b + 2 ^ s.n * leNat (c :: bs) =
        s.b + 2 ^ s.n * c.toNat + 2 ^ (s.n + 8) * leNat bs := by
      rw [leNat, pow_add]
      ring
    have hbits : s.n + 8 * (c :: bs).length = s.n + 8 + 8 * bs.length := by
      rw [List.length_cons]
      ring
    rw [List.foldl_cons, hvalue, hbits]
    generalize s.b + 2 ^ s.n * c.toNat = b at hstep hqueue ⊢
    have hpair := pairBits_cases b
    rw [hstep]
    split_ifs with hbig
    · have hsplit : 2 ^ (s.n + 8) = 2 ^ pairBits b * 2 ^ (s.n + 8 - pairBits b) := by
        rw [← pow_add]
        congr 1
        omega
      have hrest : b / 2 ^ pairBits b < 2 ^ (s.n + 8 - pairBits b) := by
        apply Nat.div_lt_of_lt_mul
        rwa [← hsplit]
      have hmany : s.n + 8 + 8 * bs.length > 13 := by omega
      have hleft : s.n + 8 + 8 * bs.length - pairBits b =
          s.n + 8 - pairBits b + 8 * bs.length := by omega
      have hdiv : (b + 2 ^ (s.n + 8) * leNat bs) / 2 ^ pairBits b =
          b / 2 ^ pairBits b + 2 ^ (s.n + 8 - pairBits b) * leNat bs := by
        rw [hsplit, Nat.mul_assoc, Nat.add_mul_div_left _ _ (Nat.two_pow_pos _)]
      rw [ih hrest (by show s.n + 8 - pairBits b ≤ 13; omega),
        base91Length.eq_def (b + 2 ^ (s.n + 8) * leNat bs), if_pos hmany,
        pairBits_add (show 13 ≤ s.n + 8 by omega), hdiv, hleft]
      simp only [List.length_append, List.length_cons, List.length_nil]
      omega
    · rw [ih hqueue (show s.n + 8 ≤ 13 by omega)]

theorem base91Text_length (bs : List Ut8) :
    (base91Text bs bs.length).length = base91Length (leNat bs) (8 * bs.length) := by
  rw [base91Text, inputItems_length, B91Encoder.run_length (by decide) (by decide)]
  simp

/-- Decoding what was encoded gives the bytes back, and so does decoding it as a C string
(`len` negative) with the zero byte after it, for a text whose length is an `int`. -/
theorem base91_roundTrip_iff (bs : List Ut8) :
    (∃ text, rBase91Encode bs bs.length = some text ∧ rBase91Decode text text.length = bs ∧
      ∀ rest, rBase91Decode (text ++ '\x00' :: rest) (-1) = bs) ↔
      base91Length (leNat bs) (8 * bs.length) ≤ 2147483647 := by
  rw [rBase91Encode, base91Text_length]
  constructor
  · rintro ⟨text, htext, -⟩
    by_contra hlong
    rw [if_pos (by omega)] at htext
    exact nomatch htext
  · intro hlength
    exact ⟨_, if_neg (by omega), rBase91Decode_text bs⟩

/-- As many zero bytes as an `int` can count have no text. -/
theorem base91_count_overflows :
    rBase91Encode (List.replicate 2147483647 0) 2147483647 = none := by
  have hlength := base91Text_length (List.replicate 2147483647 0)
  have hbits := bits_le_base91Length (leNat (List.replicate 2147483647 0))
    (8 * (List.replicate 2147483647 (0 : Ut8)).length)
  rw [List.length_replicate] at hlength hbits
  rw [rBase91Encode]
  apply if_pos
  rw [Nat.cast_ofNat] at hlength
  omega

end Radare
