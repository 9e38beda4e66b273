import Radare.Framework.Insertions
import Radare.Framework.MachineInt
import Mathlib.Tactic.Linarith
import Mathlib.Tactic.Ring

namespace Radare

open Framework

def ut32Max : Nat := 4294967295

/-- The loop of `adapt_bias`: `delta` and `k` when it ends. -/
def adaptBiasLoop : Nat → Nat → Nat → Nat × Nat
  | 0, delta, k => (delta, k)
  | fuel + 1, delta, k =>
    if delta > (36 - 1) * 26 / 2 then adaptBiasLoop fuel (delta / (36 - 1)) (k + 36) else (delta, k)

def adaptBias (delta nPoints : Nat) (isFirst : Bool) : Nat :=
  let delta := delta / (if isFirst then 700 else 2)
  let delta := delta + delta / nPoints
  let r := adaptBiasLoop delta delta 0
  r.2 + (36 - 1 + 1) * r.1 / (r.1 + 38)

def encodeDigit (c : Nat) : Ut8 := BitVec.ofNat 8 (if c > 25 then c + 22 else c + 97)

/-- The threshold of the digit of weight `k`. -/
def digitThreshold (k bias : Nat) : Nat :=
  if k ≤ bias then 1 else if k ≥ bias + 26 then 26 else k - bias

/-- The loop of `encode_var_int`; `q` shrinks in every round, so it is fuel enough. -/
def encodeVarIntLoop (bias : Nat) : Nat → Nat → Nat → List Ut8
  | 0, _, q => [encodeDigit q]
  | fuel + 1, k, q =>
    let t := digitThreshold k bias
    if q < t then [encodeDigit q]
    else encodeDigit (t + (q - t) % (36 - t)) ::
      encodeVarIntLoop bias fuel (k + 36) ((q - t) / (36 - t))

def encodeVarInt (bias delta : Nat) : List Ut8 := encodeVarIntLoop bias delta 36 delta

/-- `decode_digit`, with `none` for -1. -/
def decodeDigit (v : Ut8) : Option Nat :=
  if 48 ≤ v.toNat ∧ v.toNat ≤ 57 then some (v.toNat - 22)
  else if 97 ≤ v.toNat ∧ v.toNat ≤ 122 then some (v.toNat - 97)
  else if 65 ≤ v.toNat ∧ v.toNat ≤ 90 then some (v.toNat - 65)
  else none

/-- A call that returns NULL, or writes behind its block. -/
inductive PunycodeFail where
  | null
  | overrun
  deriving DecidableEq

/-- Bytes written behind those in `dst`, a block of `cap` bytes. -/
def emit (cap : Nat) (dst bs : List Ut8) : Except PunycodeFail (List Ut8) :=
  if dst.length + bs.length ≤ cap then .ok (dst ++ bs) else .error .overrun

/-- The locals of `r_punycode_encode` that its loops change; `dst` holds what was written. -/
structure PunycodeEncoder where
  delta : Nat
  bias : Nat
  h : Nat
  dst : List Ut8

/-- One byte of the loop that looks for `n`. -/
def encodeByte (cap b n : Nat) (st : PunycodeEncoder) (c : Ut8) : Except PunycodeFail PunycodeEncoder :=
  if c.toNat < n then
    if st.delta + 1 = ut32Max + 1 then .error .null else .ok { st with delta := st.delta + 1 }
  else if c.toNat = n then do
    let dst ← emit cap st.dst (encodeVarInt st.bias st.delta)
    .ok ⟨0, adaptBias st.delta (st.h + 1) (st.h == b), st.h + 1, dst⟩
  else .ok st

/-- The search for the next code point, from `m = 0xff` down. -/
def nextCodePoint (n : Nat) (src : List Ut8) : Nat :=
  src.foldl (fun m c => if c.toNat ≥ n ∧ c.toNat ≤ m then c.toNat else m) 255

/-- The outer loop; `n` is a byte. -/
def encodeRounds (cap b : Nat) (src : List Ut8) : Nat → Nat → PunycodeEncoder →
    Except PunycodeFail PunycodeEncoder
  | 0, _, st => .ok st
  | fuel + 1, n, st =>
    if st.h < src.length then
      let m := nextCodePoint n src
      if m - n > (ut32Max - st.delta) / (st.h + 1) then .error .null
      else do
        let st ← src.foldlM (encodeByte cap b m) { st with delta := st.delta + (m - n) * (st.h + 1) }
        encodeRounds cap b src fuel ((m + 1) % 256) { st with delta := st.delta + 1 }
    else .ok st

def rPunycodeEncode (src : List Ut8) : Except PunycodeFail (List Ut8) :=
  if src.length < 1 then .error .null
  else do
    let cap := 2 * src.length + 10
    let dst ← emit cap [] (src.filter (fun c => c.toNat < 128))
    let b := dst.length
    let dst ← emit cap dst (if b > 0 then [45] else [])
    let st ← encodeRounds cap b src 256 128 ⟨0, 72, b, dst⟩
    .ok st.dst

/-- The loop that reads one number; `none` when it returns NULL or reads behind `src`. -/
def decodeVarInt (bias : Nat) : List Ut8 → Nat → Nat → Nat → Option (Nat × List Ut8)
  | [], _, _, _ => none
  | c :: rest, k, w, i =>
    match decodeDigit c with
    | none => none
    | some digit =>
      if digit > (ut32Max - i) / w then none
      else if digit < digitThreshold k bias then some (i + digit * w, rest)
      else if w > ut32Max / (36 - digitThreshold k bias) then none
      else decodeVarInt bias rest (k + 36) (w * (36 - digitThreshold k bias)) (i + digit * w)

/-- The locals of `r_punycode_decode` that its loop changes. -/
structure PunycodeDecoder where
  n : Nat
  i : Nat
  bias : Nat
  dst : List Ut8

/-- The loop over the numbers. Each takes a byte of `src`, whose length is fuel enough, and `dst`,
a block of `2 * srclen + 10` bytes, never fills up. -/
def decodeLoop : Nat → PunycodeDecoder → List Ut8 → Option (List Ut8)
  | _, st, [] => some st.dst
  | 0, _, _ :: _ => none
  | fuel + 1, st, c :: rest =>
    match decodeVarInt st.bias (c :: rest) 36 1 st.i with
    | none => none
    | some (i, rest) =>
      let di := st.dst.length
      if i / (di + 1) > ut32Max - st.n then none
      else
        let n := (st.n + i / (di + 1)) % 256
        let pos := i % (di + 1)
        decodeLoop fuel
          { n := n, i := pos + 1, bias := adaptBias (i - st.i) (di + 1) (st.i == 0)
            dst := st.dst.take pos ++ BitVec.ofNat 8 n :: st.dst.drop pos } rest

/-- `for (p = src + srclen - 1; p > src && *p != '-'; p--)`, as an offset. -/
def lastDash (src : List Ut8) : Nat → Nat
  | 0 => 0
  | p + 1 => if src[p + 1]? = some 45 then p + 1 else lastDash src p

def rPunycodeDecode (src : List Ut8) : Option (List Ut8) :=
  if src.length < 1 then none
  else if src.any (fun c => c.toNat ≥ 128) then none
  else
    let b := lastDash src (src.length - 1)
    decodeLoop src.length ⟨128, 0, 72, src.take b⟩ (src.drop (b + (if b > 0 then 1 else 0)))

def codes (s : List Ut8) : List Nat := s.map BitVec.toNat

/-- Where the coding stands: the last symbol, the place behind it, the symbols so far, the bias. -/
structure CodeState where
  n : Nat
  i : Nat
  h : Nat
  bias : Nat

/-- The steps from the last insertion to the next, counting places and then symbols. -/
def CodeState.delta (st : CodeState) (x : Nat × Nat) : Nat := (x.1 - st.n) * (st.h + 1) + x.2 - st.i

def CodeState.next (st : CodeState) (x : Nat × Nat) : CodeState :=
  ⟨x.1, x.2 + 1, st.h + 1, adaptBias (st.delta x) (st.h + 1) (st.i == 0)⟩

/-- The numbers that stand for a list of insertions. -/
def codeText : CodeState → List (Nat × Nat) → List Ut8
  | _, [] => []
  | st, x :: xs => encodeVarInt st.bias (st.delta x) ++ codeText (st.next x) xs

/-- Punycode of a byte string: its ASCII part, a dash behind it, and the insertions that make the
string of it. -/
def punycodeText (s : List Ut8) : List Ut8 :=
  let basic := s.filter (fun c => c.toNat < 128)
  basic ++ (if basic.length > 0 then [45] else []) ++
    codeText ⟨128, 0, basic.length, 72⟩ (insertionsOf (codes s) 128 128)

theorem digitThreshold_pos (k bias : Nat) : 1 ≤ digitThreshold k bias := by
  unfold digitThreshold
  split_ifs <;> omega

theorem digitThreshold_le (k bias : Nat) : digitThreshold k bias ≤ 26 := by
  unfold digitThreshold
  split_ifs <;> omega

theorem digitThreshold_one {k bias : Nat} (h : digitThreshold (k + 36) bias = 1) :
    digitThreshold k bias = 1 := by
  unfold digitThreshold at h ⊢
  split_ifs at h ⊢ <;> omega

theorem decodeDigit_encodeDigit {d : Nat} (h : d < 36) : decodeDigit (encodeDigit d) = some d := by
  have all : ∀ d < 36, decodeDigit (encodeDigit d) = some d := by decide
  exact all d h

theorem encodeDigit_lt {d : Nat} (h : d < 36) : (encodeDigit d).toNat < 128 ∧ encodeDigit d ≠ 45 := by
  have all : ∀ d < 36, (encodeDigit d).toNat < 128 ∧ encodeDigit d ≠ 45 := by decide
  exact all d h

/-- The weight behind a digit that is not the last stays in 32 bits: with a threshold of one it is
a power of 35. -/
theorem weight_bound {w t q : Nat} (hone : t = 1 → ∃ j, w = 35 ^ j) (ht : 1 ≤ t) (ht' : t ≤ 26)
    (hq : t ≤ q) (hlt : q * w < 134217728) : w * (36 - t) ≤ ut32Max := by
  have htw : t * w < 134217728 := lt_of_le_of_lt (Nat.mul_le_mul_right w hq) hlt
  unfold ut32Max
  by_cases h1 : t = 1
  · obtain ⟨j, rfl⟩ := hone h1
    subst h1
    have hj : j ≤ 5 := by
      by_contra hgt
      have hpow : 35 ^ 6 ≤ 35 ^ j := Nat.pow_le_pow_right (by decide) (by omega)
      omega
    have hpow : 35 ^ j ≤ 35 ^ 5 := Nat.pow_le_pow_right (by decide) hj
    omega
  · have h2 : 2 * w ≤ t * w := Nat.mul_le_mul_right w (by omega)
    have h34 : w * (36 - t) ≤ w * 34 := Nat.mul_le_mul_left w (by omega)
    omega

theorem decodeVarInt_last {bias k w i q : Nat} (tail : List Ut8) (hw : 0 < w)
    (hi : i + q * w ≤ ut32Max) (hq : q < digitThreshold k bias) :
    decodeVarInt bias (encodeDigit q :: tail) k w i = some (i + q * w, tail) := by
  have hle := digitThreshold_le k bias
  have hroom : ¬ q > (ut32Max - i) / w := by
    rw [not_lt, Nat.le_div_iff_mul_le hw]
    omega
  rw [decodeVarInt, decodeDigit_encodeDigit (by omega)]
  simp only [if_neg hroom, if_pos hq]

/-- Reading back the number that was written, with what follows it left over. -/
theorem decodeVarInt_loop (bias : Nat) {fuel k w i q : Nat} (tail : List Ut8) (hf : q ≤ fuel)
    (hw : 0 < w) (hone : digitThreshold k bias = 1 → ∃ j, w = 35 ^ j) (hlt : q * w < 134217728)
    (hi : i + q * w ≤ ut32Max) :
    decodeVarInt bias (encodeVarIntLoop bias fuel k q ++ tail) k w i = some (i + q * w, tail) := by
  induction fuel generalizing k w i q with
  | zero =>
    have hpos := digitThreshold_pos k bias
    rw [encodeVarIntLoop]
    exact decodeVarInt_last tail hw hi (by omega)
  | succ fuel ih =>
    rw [encodeVarIntLoop]
    by_cases hq : q < digitThreshold k bias
    · rw [if_pos hq]
      exact decodeVarInt_last tail hw hi hq
    · rw [if_neg hq, List.cons_append]
      have hpos := digitThreshold_pos k bias
      have hle := digitThreshold_le k bias
      generalize ht : digitThreshold k bias = t at hone hpos hle hq
      have hmod := Nat.mod_lt (q - t) (show 36 - t > 0 by omega)
      have hdiv := Nat.mod_add_div (q - t) (36 - t)
      generalize hr : (q - t) % (36 - t) = r at hmod hdiv
      generalize hq' : (q - t) / (36 - t) = q' at hdiv
      have hsum : q * w = (t + r) * w + q' * (w * (36 - t)) := by
        have hqt : q = t + r + (36 - t) * q' := by omega
        rw [hqt]
        ring
      have hdq : (t + r) * w ≤ q * w := by
        rw [hsum]
        exact Nat.le_add_right _ _
      have hroom : ¬ t + r > (ut32Max - i) / w := by
        rw [not_lt, Nat.le_div_iff_mul_le hw]
        omega
      have hcheck : ¬ w > ut32Max / (36 - t) := by
        rw [not_lt, Nat.le_div_iff_mul_le (by omega)]
        exact weight_bound hone hpos hle (by omega) hlt
      have hsmall : q' ≤ fuel := by
        have hmul : q' ≤ (36 - t) * q' := Nat.le_mul_of_pos_left q' (by omega)
        omega
      have hnext : digitThreshold (k + 36) bias = 1 → ∃ j, w * (36 - t) = 35 ^ j := by
        intro h1
        have ht1 : t = 1 := ht ▸ digitThreshold_one h1
        obtain ⟨j, rfl⟩ := hone ht1
        exact ⟨j + 1, by rw [ht1, pow_succ]⟩
      rw [decodeVarInt, decodeDigit_encodeDigit (by omega)]
      simp only [ht, if_neg hroom, if_neg (show ¬ t + r < t by omega), if_neg hcheck]
      rw [ih hsmall (Nat.mul_pos hw (by omega)) hnext (by omega) (by omega), hsum, Nat.add_assoc]

theorem decodeVarInt_encodeVarInt (bias : Nat) {i delta : Nat} (tail : List Ut8)
    (hlt : delta < 134217728) (hi : i < 134217728) :
    decodeVarInt bias (encodeVarInt bias delta ++ tail) 36 1 i = some (i + delta, tail) := by
  have hmax : ut32Max = 4294967295 := rfl
  have h := decodeVarInt_loop bias (k := 36) (w := 1) (i := i) tail (Nat.le_refl delta) Nat.one_pos
    (fun _ => ⟨0, rfl⟩) (by omega) (by omega)
  rwa [Nat.mul_one] at h

theorem encodeVarIntLoop_bytes (bias : Nat) {fuel k q : Nat} (hf : q ≤ fuel) :
    ∀ c ∈ encodeVarIntLoop bias fuel k q, c.toNat < 128 ∧ c ≠ 45 := by
  induction fuel generalizing k q with
  | zero =>
    intro c hc
    rw [encodeVarIntLoop, List.mem_singleton] at hc
    rw [hc]
    exact encodeDigit_lt (by omega)
  | succ fuel ih =>
    intro c hc
    have hpos := digitThreshold_pos k bias
    have hle := digitThreshold_le k bias
    rw [encodeVarIntLoop] at hc
    split at hc
    · rw [List.mem_singleton] at hc
      rw [hc]
      exact encodeDigit_lt (by omega)
    · generalize digitThreshold k bias = t at *
      have hmod := Nat.mod_lt (q - t) (show 36 - t > 0 by omega)
      have hdiv := Nat.div_le_self (q - t) (36 - t)
      rcases List.mem_cons.mp hc with rfl | hc
      · exact encodeDigit_lt (by omega)
      · exact ih (by omega) c hc

theorem encodeVarInt_ne_nil (bias delta : Nat) : ∃ c cs, encodeVarInt bias delta = c :: cs := by
  unfold encodeVarInt
  cases delta with
  | zero => exact ⟨_, _, rfl⟩
  | succ d =>
    rw [encodeVarIntLoop]
    split
    · exact ⟨_, _, rfl⟩
    · exact ⟨_, _, rfl⟩

/-- The insertion lies ahead of where the coding stands. -/
structure CodeState.Ahead (st : CodeState) (x : Nat × Nat) : Prop where
  low : 128 ≤ st.n
  symbol : st.n ≤ x.1
  byte : x.1 ≤ 255
  place : x.2 ≤ st.h
  order : st.n * (st.h + 1) + st.i ≤ x.1 * (st.h + 1) + x.2

/-- Every insertion of the list lies ahead of the ones before it. -/
def InOrder : CodeState → List (Nat × Nat) → Prop
  | _, [] => True
  | st, x :: xs => st.Ahead x ∧ InOrder (st.next x) xs

theorem CodeState.Ahead.steps {st : CodeState} {x : Nat × Nat} (h : st.Ahead x) :
    st.i + st.delta x = (x.1 - st.n) * (st.h + 1) + x.2 := by
  have ho := h.order
  have hs := h.symbol
  obtain ⟨d, hd⟩ := Nat.exists_eq_add_of_le hs
  unfold CodeState.delta
  rw [hd, Nat.add_mul] at ho
  rw [hd, Nat.add_sub_cancel_left]
  omega

theorem CodeState.Ahead.small {st : CodeState} {x : Nat × Nat} (h : st.Ahead x)
    (hh : st.h + 1 ≤ 1048576) : st.i + st.delta x < 134217728 := by
  have hlow := h.low
  have hbyte := h.byte
  have hplace := h.place
  have hmul : (x.1 - st.n) * (st.h + 1) ≤ 127 * (st.h + 1) := Nat.mul_le_mul_right _ (by omega)
  rw [h.steps]
  omega

/-- The decoder that has made the insertions so far. -/
structure DecSync (d : PunycodeDecoder) (st : CodeState) (out : List Nat) : Prop where
  n : d.n = st.n
  i : d.i = st.i
  bias : d.bias = st.bias
  dst : d.dst = out.map (BitVec.ofNat 8)
  count : out.length = st.h

theorem decodeLoop_codeText {st : CodeState} {xs : List (Nat × Nat)} {d : PunycodeDecoder}
    {out : List Nat} (hsync : DecSync d st out) (hord : InOrder st xs)
    (hh : st.h + xs.length ≤ 1048576) {fuel : Nat} (hf : (codeText st xs).length ≤ fuel) :
    decodeLoop fuel d (codeText st xs) = some ((insertAll out xs).map (BitVec.ofNat 8)) := by
  induction xs generalizing st d out fuel with
  | nil =>
    rw [codeText, insertAll, ← hsync.dst]
    cases fuel <;> rfl
  | cons x xs ih =>
    obtain ⟨hx, hrest⟩ := hord
    simp only [List.length_cons] at hh
    rw [codeText] at hf ⊢
    obtain ⟨c, cs, hc⟩ := encodeVarInt_ne_nil st.bias (st.delta x)
    have hsteps := hx.steps
    have hsmall := hx.small (by omega)
    have hread := decodeVarInt_encodeVarInt st.bias (codeText (st.next x) xs)
      (show st.delta x < 134217728 by omega) (show st.i < 134217728 by omega)
    rw [hsteps] at hread
    have hlen : d.dst.length = st.h := by rw [hsync.dst, List.length_map, hsync.count]
    have hplace := hx.place
    have hsym := hx.symbol
    have hbyte := hx.byte
    have hdiv : ((x.1 - st.n) * (st.h + 1) + x.2) / (st.h + 1) = x.1 - st.n := by
      rw [Nat.mul_comm, Nat.mul_add_div (by omega), Nat.div_eq_of_lt (by omega), Nat.add_zero]
    have hmod : ((x.1 - st.n) * (st.h + 1) + x.2) % (st.h + 1) = x.2 := by
      rw [Nat.mul_comm, Nat.mul_add_mod, Nat.mod_eq_of_lt (by omega)]
    rw [hc, List.cons_append] at hf hread ⊢
    cases fuel with
    | zero => cases hf
    | succ fuel =>
      have hmax : ut32Max = 4294967295 := rfl
      rw [decodeLoop, hsync.bias, hsync.i, hread]
      simp only [hlen, hdiv, hmod, hsync.n]
      rw [if_neg (by omega), show (st.n + (x.1 - st.n)) % 256 = x.1 by omega, insertAll]
      apply ih _ hrest
      · show st.h + 1 + xs.length ≤ 1048576
        omega
      · simp only [List.length_cons, List.length_append] at hf
        omega
      · refine ⟨rfl, rfl, ?_, ?_, ?_⟩
        · show adaptBias _ _ _ = adaptBias _ _ _
          rw [← hsteps, Nat.add_sub_cancel_left]
        · show _ ++ _ = _
          rw [hsync.dst, List.map_append, List.map_cons, List.map_take, List.map_drop]
        · show _ = st.h + 1
          simp only [List.length_append, List.length_take, List.length_cons, List.length_drop,
            hsync.count]
          omega

/-- The coding after a list of insertions. -/
def CodeState.after (st : CodeState) (xs : List (Nat × Nat)) : CodeState := xs.foldl CodeState.next st

theorem codeText_append (st : CodeState) (xs ys : List (Nat × Nat)) :
    codeText st (xs ++ ys) = codeText st xs ++ codeText (st.after xs) ys := by
  induction xs generalizing st with
  | nil => rfl
  | cons x xs ih =>
    rw [List.cons_append, codeText, ih, codeText, List.append_assoc]
    rfl

theorem inOrder_append (st : CodeState) (xs ys : List (Nat × Nat)) :
    InOrder st (xs ++ ys) ↔ InOrder st xs ∧ InOrder (st.after xs) ys := by
  induction xs generalizing st with
  | nil => simp [InOrder, CodeState.after]
  | cons x xs ih =>
    rw [List.cons_append, InOrder, ih, InOrder, and_assoc]
    rfl

theorem after_h (st : CodeState) (xs : List (Nat × Nat)) : (st.after xs).h = st.h + xs.length := by
  induction xs generalizing st with
  | nil => rfl
  | cons x xs ih =>
    show ((st.next x).after xs).h = _
    rw [ih, List.length_cons]
    show st.h + 1 + xs.length = _
    omega

/-- The coding has come as far as the place behind `seen` symbols in the round of `c`, with `left`
smaller symbols still ahead. -/
structure CodeState.At (st : CodeState) (c seen left : Nat) : Prop where
  low : 128 ≤ st.n
  symbol : st.n ≤ c
  byte : c ≤ 255
  count : seen + left = st.h
  order : st.n * (st.h + 1) + st.i ≤ c * (st.h + 1) + seen

theorem CodeState.At.ahead {st : CodeState} {c seen left : Nat} (h : st.At c seen left) :
    st.Ahead (c, seen) := by
  have hcount := h.count
  exact ⟨h.low, h.symbol, h.byte, by show seen ≤ st.h; omega, h.order⟩

theorem CodeState.At.found {st : CodeState} {c seen left : Nat} (h : st.At c seen left) :
    (st.next (c, seen)).At c (seen + 1) left := by
  have hcount := h.count
  refine ⟨Nat.le_trans h.low h.symbol, Nat.le_refl c, h.byte, ?_, Nat.le_refl _⟩
  show seen + 1 + left = st.h + 1
  omega

theorem CodeState.At.pass {st : CodeState} {c seen left : Nat} (h : st.At c seen (left + 1)) :
    st.At c (seen + 1) left := by
  have hcount := h.count
  have horder := h.order
  exact ⟨h.low, h.symbol, h.byte, by omega, by omega⟩

/-- The round of `c` is over. -/
theorem CodeState.At.round {st : CodeState} {c : Nat} (h : st.At c st.h 0) (hc : c + 1 ≤ 255) :
    st.At (c + 1) 0 st.h := by
  have horder := h.order
  have hsymbol := h.symbol
  refine ⟨h.low, by omega, hc, by omega, ?_⟩
  rw [Nat.add_mul]
  omega

theorem inOrder_placesOf {st : CodeState} {c seen : Nat} {s : List Nat}
    (h : st.At c seen (s.filter (· < c)).length) :
    InOrder st ((placesOf c s seen).map (fun pos => (c, pos))) ∧
    (st.after ((placesOf c s seen).map (fun pos => (c, pos)))).At c
      (st.after ((placesOf c s seen).map (fun pos => (c, pos)))).h 0 := by
  induction s generalizing st seen with
  | nil =>
    have hseen : seen = st.h := h.count
    rw [hseen] at h
    exact ⟨trivial, h⟩
  | cons x s ih =>
    rw [List.filter_cons] at h
    rw [placesOf_cons]
    rcases Nat.lt_trichotomy x c with hlt | heq | hgt
    · simp only [hlt, decide_true, if_true, List.length_cons] at h ⊢
      exact ih h.pass
    · have hnlt : ¬ x < c := by omega
      simp only [hnlt, decide_false, if_false, Bool.false_eq_true] at h ⊢
      rw [if_pos heq, List.map_cons]
      obtain ⟨hrest, hend⟩ := ih h.found
      exact ⟨⟨h.ahead, hrest⟩, hend⟩
    · have hnlt : ¬ x < c := by omega
      have hne : x ≠ c := by omega
      simp only [hnlt, decide_false, if_false, Bool.false_eq_true] at h ⊢
      rw [if_neg hne]
      exact ih h

/-- The insertions that make a string come in order. -/
theorem inOrder_insertionsOf {st : CodeState} {s : List Nat} {k c : Nat} (h : st.At c 0 st.h)
    (hh : st.h = (s.filter (· < c)).length) (hk : c + k ≤ 256) : InOrder st (insertionsOf s k c) := by
  induction k generalizing st c with
  | zero => exact trivial
  | succ k ih =>
    rw [insertionsOf, inOrder_append]
    obtain ⟨hone, hend⟩ := inOrder_placesOf (s := s) (hh ▸ h)
    refine ⟨hone, ?_⟩
    cases k with
    | zero => exact trivial
    | succ k =>
      apply ih (hend.round (by omega)) _ (by omega)
      rw [after_h, List.length_map, hh, ← length_placesOf c s 0, Nat.add_comm]

end Radare
