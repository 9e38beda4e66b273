import Radare.Util.Punycode

namespace Radare

open Framework

/-- A part of the encoder that writes `text` behind `dst`, or runs over the end of its block. -/
def Writes (cap : Nat) (dst text : List Ut8) (f : Except PunycodeFail PunycodeEncoder)
    (P : PunycodeEncoder → Prop) : Prop :=
  (dst.length + text.length ≤ cap → ∃ e, f = .ok e ∧ e.dst = dst ++ text ∧ P e) ∧
  (cap < dst.length + text.length → f = .error .overrun)

theorem Writes.bind {cap : Nat} {dst t1 t2 : List Ut8} {f : Except PunycodeFail PunycodeEncoder}
    {g : PunycodeEncoder → Except PunycodeFail PunycodeEncoder} {P Q : PunycodeEncoder → Prop}
    (hf : Writes cap dst t1 f P)
    (hg : ∀ e, e.dst = dst ++ t1 → e.dst.length ≤ cap → P e → Writes cap e.dst t2 (g e) Q) :
    Writes cap dst (t1 ++ t2) (f >>= g) Q := by
  have hlen : (dst ++ t1).length = dst.length + t1.length := List.length_append
  rw [Writes, List.length_append]
  constructor
  · intro hle
    obtain ⟨e, hfe, hdst, hP⟩ := hf.1 (by omega)
    obtain ⟨e', hge, hdst', hQ⟩ := (hg e hdst (by rw [hdst]; omega) hP).1 (by rw [hdst]; omega)
    refine ⟨e', ?_, by rw [hdst', hdst, List.append_assoc], hQ⟩
    rw [hfe]
    exact hge
  · intro hgt
    by_cases hfit : dst.length + t1.length ≤ cap
    · obtain ⟨e, hfe, hdst, hP⟩ := hf.1 hfit
      rw [hfe]
      exact (hg e hdst (by rw [hdst]; omega) hP).2 (by rw [hdst]; omega)
    · rw [hf.2 (by omega)]
      rfl

theorem Writes.nothing {cap : Nat} {e : PunycodeEncoder} {P : PunycodeEncoder → Prop} (hP : P e)
    (hfit : e.dst.length ≤ cap) : Writes cap e.dst [] (.ok e) P := by
  constructor
  · intro _
    exact ⟨e, rfl, (List.append_nil _).symm, hP⟩
  · intro hgt
    rw [List.length_nil] at hgt
    omega

/-- The encoder at a byte of its inner loop: `delta` counts the steps from the last insertion. -/
structure EncSync (b : Nat) (e : PunycodeEncoder) (st : CodeState) (c seen left : Nat) : Prop where
  bias : e.bias = st.bias
  h : e.h = st.h
  first : (e.h == b) = (st.i == 0)
  start : b ≤ e.h
  place : st.At c seen left
  steps : st.n * (st.h + 1) + st.i + e.delta = c * (st.h + 1) + seen

section

variable {b c seen left cap : Nat} {e : PunycodeEncoder} {st : CodeState} {x : Ut8}

theorem EncSync.delta_eq (hs : EncSync b e st c seen left) : e.delta = st.delta (c, seen) := by
  have hahead := hs.place.ahead.steps
  have hsteps := hs.steps
  obtain ⟨d, hd⟩ := Nat.exists_eq_add_of_le hs.place.symbol
  simp only [hd, Nat.add_sub_cancel_left] at hahead
  rw [hd, Nat.add_mul] at hsteps
  rw [hd]
  omega

theorem EncSync.delta_le (hs : EncSync b e st c seen left) :
    e.delta ≤ (c - 128) * (st.h + 1) + seen := by
  have hsteps := hs.steps
  have hlow := hs.place.low
  obtain ⟨d, hd⟩ := Nat.exists_eq_add_of_le (Nat.le_trans hlow hs.place.symbol)
  have hmul : 128 * (st.h + 1) ≤ st.n * (st.h + 1) := Nat.mul_le_mul_right _ hlow
  rw [hd, Nat.add_mul] at hsteps
  rw [hd, Nat.add_sub_cancel_left]
  omega

/-- A smaller symbol is passed. -/
theorem EncSync.pass (hs : EncSync b e st c seen (left + 1)) (hx : x.toNat < c)
    (hh : st.h ≤ 2097152) :
    encodeByte cap b c e x = .ok { e with delta := e.delta + 1 } ∧
    EncSync b { e with delta := e.delta + 1 } st c (seen + 1) left := by
  have hle := hs.delta_le
  have hcount := hs.place.count
  have hbyte := hs.place.byte
  have hmul : (c - 128) * (st.h + 1) ≤ 127 * (st.h + 1) := Nat.mul_le_mul_right _ (by omega)
  have hmax : ut32Max = 4294967295 := rfl
  constructor
  · rw [encodeByte, if_pos hx, if_neg (by omega)]
  · have hsteps := hs.steps
    refine ⟨hs.bias, hs.h, hs.first, hs.start, hs.place.pass, ?_⟩
    show _ + (e.delta + 1) = _
    omega

/-- The code point is found: its number is written and the coding moves on. -/
theorem EncSync.found (hs : EncSync b e st c seen left) (hx : x.toNat = c) :
    Writes cap e.dst (encodeVarInt st.bias (st.delta (c, seen))) (encodeByte cap b c e x)
      (fun e' => EncSync b e' (st.next (c, seen)) c (seen + 1) left) := by
  have hdelta := hs.delta_eq
  have hnlt : ¬ x.toNat < c := by omega
  constructor
  · intro hfit
    have hemit : emit cap e.dst (encodeVarInt e.bias e.delta) =
        .ok (e.dst ++ encodeVarInt e.bias e.delta) := by
      rw [hs.bias, hdelta]
      exact if_pos hfit
    refine ⟨⟨0, adaptBias e.delta (e.h + 1) (e.h == b), e.h + 1,
      e.dst ++ encodeVarInt e.bias e.delta⟩, ?_, ?_, ?_⟩
    · rw [encodeByte, if_neg hnlt, if_pos hx, hemit]
      rfl
    · show e.dst ++ encodeVarInt e.bias e.delta = _
      rw [hs.bias, hdelta]
    · have hstart := hs.start
      refine ⟨?_, ?_, ?_, ?_, hs.place.found, rfl⟩
      · show adaptBias _ _ _ = adaptBias _ _ _
        rw [hdelta, hs.h, ← hs.first, hs.h]
      · show e.h + 1 = st.h + 1
        rw [hs.h]
      · show (e.h + 1 == b) = (seen + 1 == 0)
        have h1 : (e.h + 1 == b) = false := by simp; omega
        have h2 : (seen + 1 == 0) = false := by simp
        rw [h1, h2]
      · show b ≤ e.h + 1
        omega
  · intro hover
    rw [encodeByte, if_neg hnlt, if_pos hx, emit, hs.bias, hdelta, if_neg (by omega)]
    rfl

end

/-- The inner loop writes the insertions of one symbol. -/
theorem EncSync.scan {b c cap seen : Nat} {rest : List Ut8} {e : PunycodeEncoder}
    {st : CodeState} (hs : EncSync b e st c seen ((codes rest).filter (· < c)).length)
    (hh : st.h + rest.length ≤ 2097152) (hfit : e.dst.length ≤ cap) :
    Writes cap e.dst (codeText st ((placesOf c (codes rest) seen).map (fun pos => (c, pos))))
      (rest.foldlM (encodeByte cap b c) e)
      (fun e' => ∃ st', st' = st.after ((placesOf c (codes rest) seen).map (fun pos => (c, pos))) ∧
        EncSync b e' st' c st'.h 0) := by
  induction rest generalizing seen e st with
  | nil =>
    refine Writes.nothing ⟨st, rfl, ?_⟩ hfit
    have hseen : seen = st.h := hs.place.count
    rw [← hseen]
    exact hs
  | cons x rest ih =>
    rw [List.length_cons] at hh
    have hcodes : codes (x :: rest) = x.toNat :: codes rest := rfl
    rw [hcodes, List.filter_cons] at hs
    rw [hcodes, placesOf_cons, List.foldlM_cons]
    rcases Nat.lt_trichotomy x.toNat c with hlt | heq | hgt
    · simp only [hlt, decide_true, if_true, List.length_cons] at hs ⊢
      obtain ⟨hstep, hnext⟩ := hs.pass hlt (by omega)
      rw [hstep]
      exact ih hnext (by omega) hfit
    · have hnlt : ¬ x.toNat < c := by omega
      simp only [hnlt, decide_false, if_false, Bool.false_eq_true] at hs ⊢
      rw [if_pos heq, List.map_cons, codeText]
      apply (hs.found heq).bind
      intro e' _ hfit' hs'
      apply ih hs' _ hfit'
      show st.h + 1 + rest.length ≤ 2097152
      omega
    · have hnlt : ¬ x.toNat < c := by omega
      have hne : x.toNat ≠ c := by omega
      have hstep : encodeByte cap b c e x = .ok e := by rw [encodeByte, if_neg hnlt, if_neg hne]
      simp only [hnlt, decide_false, if_false, Bool.false_eq_true] at hs ⊢
      rw [if_neg hne, hstep]
      exact ih hs (by omega) hfit

theorem nextCodePoint_fold (n : Nat) (src : List Ut8) (m : Nat) :
    ∃ r, src.foldl (fun m c => if c.toNat ≥ n ∧ c.toNat ≤ m then c.toNat else m) m = r ∧ r ≤ m ∧
      (r = m ∨ n ≤ r ∧ r ∈ codes src) ∧ ∀ x ∈ codes src, n ≤ x → r ≤ x := by
  induction src generalizing m with
  | nil => exact ⟨m, rfl, Nat.le_refl m, .inl rfl, fun x hx => absurd hx List.not_mem_nil⟩
  | cons c src ih =>
    rw [List.foldl_cons]
    obtain ⟨r, hr, hle, hmem, hmin⟩ := ih (if c.toNat ≥ n ∧ c.toNat ≤ m then c.toNat else m)
    refine ⟨r, hr, ?_, ?_, ?_⟩
    · split_ifs at hle <;> omega
    · rcases hmem with hm | ⟨hn, hm⟩
      · split_ifs at hm with hc
        · exact .inr ⟨by omega, by rw [hm]; exact List.mem_cons_self⟩
        · exact .inl hm
      · exact .inr ⟨hn, List.mem_cons_of_mem _ hm⟩
    · intro x hx hn
      rcases List.mem_cons.mp hx with rfl | hx
      · split_ifs at hle <;> omega
      · exact hmin x hx hn

theorem codes_le {src : List Ut8} {x : Nat} (hx : x ∈ codes src) : x ≤ 255 := by
  obtain ⟨c, _, rfl⟩ := List.mem_map.mp hx
  exact Nat.le_of_lt_succ c.isLt

/-- The next code point is the smallest of the string from `n` on. -/
theorem nextCodePoint_spec {n x : Nat} {src : List Ut8} (hx : x ∈ codes src) (hn : n ≤ x) :
    n ≤ nextCodePoint n src ∧ nextCodePoint n src ∈ codes src ∧
      ∀ y ∈ codes src, n ≤ y → nextCodePoint n src ≤ y := by
  obtain ⟨r, hr, hle, hmem, hmin⟩ := nextCodePoint_fold n src 255
  rw [nextCodePoint, hr]
  rcases hmem with hm | ⟨hnr, hm⟩
  · have hx255 := codes_le hx
    have hrx := hmin x hx hn
    have hxr : x = r := by omega
    subst hxr
    exact ⟨hn, hx, hmin⟩
  · exact ⟨hnr, hm, hmin⟩

section

variable {b n m cap : Nat} {e : PunycodeEncoder} {st : CodeState}

/-- The rounds without an insertion are made in one jump. -/
theorem EncSync.jump (hs : EncSync b e st n 0 st.h) (hnm : n ≤ m) (hm : m ≤ 255) :
    EncSync b { e with delta := e.delta + (m - n) * (e.h + 1) } st m 0 st.h := by
  obtain ⟨d, rfl⟩ := Nat.exists_eq_add_of_le hnm
  have hsteps := hs.steps
  have hsymbol := hs.place.symbol
  have horder := hs.place.order
  have hmul : (n + d) * (st.h + 1) = n * (st.h + 1) + d * (st.h + 1) := Nat.add_mul _ _ _
  refine ⟨hs.bias, hs.h, hs.first, hs.start, ⟨hs.place.low, by omega, hm, by omega, by omega⟩, ?_⟩
  show _ + (e.delta + (n + d - n) * (e.h + 1)) = _
  rw [Nat.add_sub_cancel_left, hs.h, hmul]
  omega

theorem EncSync.no_overflow (hs : EncSync b e st n 0 st.h) (hnm : n ≤ m) (hm : m ≤ 255)
    (hh : st.h ≤ 2097152) : ¬ m - n > (ut32Max - e.delta) / (e.h + 1) := by
  have hle : e.delta + (m - n) * (e.h + 1) ≤ (m - 128) * (st.h + 1) + 0 := (hs.jump hnm hm).delta_le
  have hmul : (m - 128) * (st.h + 1) ≤ 127 * (st.h + 1) := Nat.mul_le_mul_right _ (by omega)
  have hmax : ut32Max = 4294967295 := rfl
  rw [not_lt, Nat.le_div_iff_mul_le (by omega)]
  omega

theorem EncSync.round (hs : EncSync b e st m st.h 0) (hm : m + 1 ≤ 255) :
    EncSync b { e with delta := e.delta + 1 } st (m + 1) 0 st.h := by
  have hsteps := hs.steps
  refine ⟨hs.bias, hs.h, hs.first, hs.start, hs.place.round hm, ?_⟩
  show _ + (e.delta + 1) = _
  rw [Nat.add_mul]
  omega

theorem encodeRounds_done {src : List Ut8} (fuel : Nat) (he : ¬ e.h < src.length) :
    encodeRounds cap b src fuel n e = .ok e := by
  cases fuel with
  | zero => rfl
  | succ fuel => rw [encodeRounds, if_neg he]

end

/-- Before a round nothing but the symbols from `n` on is missing, and the rounds that are left add
them. -/
theorem encodeRounds_writes {b cap : Nat} {src : List Ut8} (hlen : src.length ≤ 1048576)
    (fuel : Nat) {n : Nat} {e : PunycodeEncoder} {st : CodeState} (hs : EncSync b e st n 0 st.h)
    (hh : st.h = ((codes src).filter (· < n)).length) (hfuel : 256 ≤ n + fuel)
    (hfit : e.dst.length ≤ cap) :
    Writes cap e.dst (codeText st (insertionsOf (codes src) (256 - n) n))
      (encodeRounds cap b src fuel n e) (fun _ => True) := by
  induction fuel generalizing n e st with
  | zero =>
    have hbyte := hs.place.byte
    omega
  | succ fuel ih =>
    have hcodes : (codes src).length = src.length := List.length_map _
    by_cases hlt : e.h < src.length
    · obtain ⟨x, hx, hxn⟩ := (filter_lt_length_lt (s := codes src) (n := n)).mp
        (by rw [← hh, ← hs.h]; omega)
      obtain ⟨hnm, hmem, hmin⟩ := nextCodePoint_spec hx hxn
      rw [encodeRounds, if_pos hlt]
      dsimp only
      generalize nextCodePoint n src = m at hnm hmem hmin
      have hm := codes_le hmem
      have hsmall : st.h ≤ src.length := by rw [← hs.h]; omega
      rw [if_neg (hs.no_overflow hnm hm (by omega))]
      have hskip : insertionsOf (codes src) (256 - n) n =
          (placesOf m (codes src) 0).map (fun pos => (m, pos)) ++
            insertionsOf (codes src) (256 - (m + 1)) (m + 1) := by
        rw [show 256 - n = (m - n) + (256 - (m + 1) + 1) by omega, insertionsOf_add,
          insertionsOf_absent, Nat.add_sub_cancel' hnm]
        · rfl
        · intro y hny hym hy
          have := hmin y hy hny
          omega
      have hh' : st.h = ((codes src).filter (· < m)).length := by
        rw [hh, filter_lt_congr hnm hmin]
      have hjump := hs.jump hnm hm
      rw [hh'] at hjump
      rw [hskip, codeText_append]
      apply (hjump.scan (by omega) hfit).bind
      rintro e' - hfit' ⟨st', hst', hs'⟩
      rw [← hst']
      have hcount : st'.h = ((codes src).filter (· < m + 1)).length := by
        rw [hst', after_h, List.length_map, hh', ← length_placesOf m (codes src) 0, Nat.add_comm]
      by_cases hmore : e'.h < src.length
      · obtain ⟨y, hy, hym⟩ := (filter_lt_length_lt (s := codes src) (n := m + 1)).mp
          (by rw [← hcount, ← hs'.h]; omega)
        have hy255 := codes_le hy
        rw [Nat.mod_eq_of_lt (by omega)]
        exact ih (hs'.round (by omega)) hcount (by omega) hfit'
      · rw [encodeRounds_done fuel (by exact hmore), insertionsOf_absent]
        · exact Writes.nothing (e := { e' with delta := e'.delta + 1 }) (P := fun _ => True) trivial hfit'
        · intro y hmy _ hy
          have hless := filter_lt_length_lt.mpr ⟨y, hy, hmy⟩
          rw [← hcount, ← hs'.h] at hless
          omega
    · rw [encodeRounds_done _ hlt, insertionsOf_absent]
      · exact Writes.nothing (P := fun _ => True) trivial hfit
      · intro y hny _ hy
        have hless := filter_lt_length_lt.mpr ⟨y, hy, hny⟩
        rw [← hh, ← hs.h] at hless
        omega

theorem start_sync (s : List Ut8) (dst : List Ut8) :
    EncSync (s.filter (fun c => c.toNat < 128)).length
      ⟨0, 72, (s.filter (fun c => c.toNat < 128)).length, dst⟩
      ⟨128, 0, (s.filter (fun c => c.toNat < 128)).length, 72⟩ 128 0
      (s.filter (fun c => c.toNat < 128)).length := by
  refine ⟨rfl, rfl, ?_, Nat.le_refl _, ⟨Nat.le_refl _, Nat.le_refl _, by decide, Nat.zero_add _, by simp⟩, rfl⟩
  simp

theorem filter_codes (s : List Ut8) (n : Nat) :
    (codes s).filter (· < n) = codes (s.filter (fun c => c.toNat < n)) := by
  rw [codes, List.filter_map]
  rfl

/-- The encoder writes the Punycode of its string, if there is room for it. -/
theorem rPunycodeEncode_eq {s : List Ut8} (hpos : 1 ≤ s.length) (hlen : s.length ≤ 1048576) :
    rPunycodeEncode s =
      if (punycodeText s).length ≤ 2 * s.length + 10 then .ok (punycodeText s)
      else .error .overrun := by
  have hbasic : (s.filter (fun c => c.toNat < 128)).length ≤ s.length := List.length_filter_le _ _
  rw [rPunycodeEncode, if_neg (by omega), punycodeText]
  dsimp only
  generalize hb : s.filter (fun c => c.toNat < 128) = basic at hbasic
  have hdash : (if basic.length > 0 then [(45 : Ut8)] else []).length ≤ 1 := by
    split_ifs <;> simp
  generalize hd : (if basic.length > 0 then [(45 : Ut8)] else []) = dash at hdash
  have hfit : (basic ++ dash).length ≤ 2 * s.length + 10 := by
    rw [List.length_append]
    omega
  have hemit : emit (2 * s.length + 10) [] basic = .ok basic := if_pos (by simp; omega)
  have hemit' : emit (2 * s.length + 10) basic dash = .ok (basic ++ dash) :=
    if_pos (by rw [← List.length_append]; exact hfit)
  have hsync := start_sync s (basic ++ dash)
  rw [hb] at hsync
  have hw := encodeRounds_writes hlen 256 hsync
    (by rw [filter_codes, codes, List.length_map, hb]) (by omega) hfit
  simp only [hemit, bind, Except.bind, hd, hemit']
  generalize codeText _ _ = text at hw
  have hall : (basic ++ dash ++ text).length = (basic ++ dash).length + text.length :=
    List.length_append
  rw [hall]
  split_ifs with hroom
  · obtain ⟨e, he, hdst, -⟩ := hw.1 hroom
    rw [he, ← hdst]
  · rw [hw.2 (Nat.lt_of_not_le hroom)]

theorem lastDash_skip {src : List Ut8} {p q : Nat} (hqp : q ≤ p)
    (hnone : ∀ j, q < j → j ≤ p → src[j]? ≠ some 45) : lastDash src p = lastDash src q := by
  induction p with
  | zero => rw [Nat.le_zero.mp hqp]
  | succ p ih =>
    by_cases heq : q = p + 1
    · rw [heq]
    · rw [lastDash, if_neg (hnone (p + 1) (by omega) (Nat.le_refl _))]
      exact ih (by omega) (fun j hj hjp => hnone j hj (by omega))

/-- The last dash stands behind the ASCII part, since no digit is a dash. -/
theorem lastDash_eq (basic : List Ut8) {text : List Ut8} (htext : ∀ c ∈ text, c ≠ 45) :
    let src := basic ++ (if basic.length > 0 then [45] else []) ++ text
    lastDash src (src.length - 1) = basic.length := by
  intro src
  by_cases hb : basic.length > 0
  · have hsrc : src = basic ++ 45 :: text := by
      show basic ++ (if basic.length > 0 then [45] else []) ++ text = _
      rw [if_pos hb, List.append_assoc]
      rfl
    have hlen : src.length = basic.length + (text.length + 1) := by
      rw [hsrc, List.length_append, List.length_cons]
    have hat : src[basic.length]? = some 45 := by
      rw [hsrc, List.getElem?_append_right (Nat.le_refl _), Nat.sub_self]
      rfl
    rw [lastDash_skip (q := basic.length) (by omega)]
    · obtain ⟨p, hp⟩ := Nat.exists_eq_add_of_le' hb
      rw [hp] at hat ⊢
      rw [lastDash, if_pos hat]
    · intro j hj _ hdash
      rw [hsrc, List.getElem?_append_right (by omega),
        show j - basic.length = (j - basic.length - 1) + 1 by omega, List.getElem?_cons_succ] at hdash
      exact htext _ (List.mem_of_getElem? hdash) rfl
  · have hnil : basic = [] := List.length_eq_zero_iff.mp (by omega)
    have hsrc : src = text := by
      show basic ++ (if basic.length > 0 then [45] else []) ++ text = _
      rw [if_neg hb, hnil]
      rfl
    rw [hsrc, lastDash_skip (Nat.zero_le _), hnil]
    · rfl
    · intro j _ _ hdash
      exact htext _ (List.mem_of_getElem? hdash) rfl

theorem codeText_bytes (st : CodeState) (xs : List (Nat × Nat)) :
    ∀ c ∈ codeText st xs, c.toNat < 128 ∧ c ≠ 45 := by
  induction xs generalizing st with
  | nil => intro c hc; cases hc
  | cons x xs ih =>
    intro c hc
    rw [codeText, List.mem_append] at hc
    rcases hc with hc | hc
    · exact encodeVarIntLoop_bytes st.bias (Nat.le_refl _) c hc
    · exact ih _ c hc

theorem length_codeText (st : CodeState) (xs : List (Nat × Nat)) :
    xs.length ≤ (codeText st xs).length := by
  induction xs generalizing st with
  | nil => exact Nat.le_refl _
  | cons x xs ih =>
    obtain ⟨c, cs, hc⟩ := encodeVarInt_ne_nil st.bias (st.delta x)
    have hrest := ih (st.next x)
    simp only [codeText, hc, List.length_append, List.length_cons]
    omega

theorem map_ofNat_codes (s : List Ut8) : (codes s).map (BitVec.ofNat 8) = s := by
  rw [codes, List.map_map]
  apply List.map_id''
  intro c
  simp

/-- What the decoder does with an ASCII part and the numbers behind it. -/
theorem decode_parts {basic text out : List Ut8} (hlow : ∀ c ∈ basic, c.toNat < 128)
    (hbytes : ∀ c ∈ text, c.toNat < 128 ∧ c ≠ 45) (hsome : 1 ≤ basic.length + text.length)
    (hloop : ∀ {fuel}, text.length ≤ fuel → decodeLoop fuel ⟨128, 0, 72, basic⟩ text = some out) :
    rPunycodeDecode (basic ++ (if basic.length > 0 then [45] else []) ++ text) = some out := by
  have hdash := lastDash_eq basic (fun c hc => (hbytes c hc).2)
  generalize hd : (if basic.length > 0 then [(45 : Ut8)] else []) = dash at hdash
  have hdlen : dash.length = if basic.length > 0 then 1 else 0 := by
    rw [← hd]
    split_ifs <;> rfl
  have hascii : ∀ c ∈ basic ++ dash ++ text, c.toNat < 128 := by
    intro c hc
    rcases List.mem_append.mp hc with hc | hc
    · rcases List.mem_append.mp hc with hc | hc
      · exact hlow c hc
      · rw [← hd] at hc
        split_ifs at hc
        · rw [List.mem_singleton.mp hc]
          decide
        · cases hc
    · exact (hbytes c hc).1
  have hany : ¬ (basic ++ dash ++ text).any (fun c => c.toNat ≥ 128) = true := by
    rw [List.any_eq_true]
    rintro ⟨c, hc, hge⟩
    have hlt := hascii c hc
    simp only [ge_iff_le, decide_eq_true_eq] at hge
    omega
  have hlen : (basic ++ dash ++ text).length = basic.length + dash.length + text.length := by
    simp only [List.length_append]
  have hdrop : (basic ++ dash ++ text).drop (basic.length + dash.length) = text := by
    rw [← List.length_append, List.drop_left]
  have htake : (basic ++ dash ++ text).take basic.length = basic := by
    rw [List.append_assoc, List.take_left]
  rw [rPunycodeDecode, if_neg (by omega), if_neg hany, hdash]
  dsimp only
  rw [← hdlen, hdrop, htake]
  exact hloop (by omega)

/-- The decoder reads every Punycode text back. -/
theorem rPunycodeDecode_punycodeText {s : List Ut8} (hpos : 1 ≤ s.length)
    (hlen : s.length ≤ 1048576) : rPunycodeDecode (punycodeText s) = some s := by
  have hmake := insertAll_insertionsOf (codes s) 128 128
  have hall : (codes s).filter (· < 128 + 128) = codes s := by
    apply List.filter_eq_self.mpr
    intro x hx
    have hx255 := codes_le hx
    simpa using (show x < 256 by omega)
  rw [hall] at hmake
  have hbasic := filter_codes s 128
  have hord := inOrder_insertionsOf (s := codes s) (k := 128) (start_sync s []).place
    (by rw [hbasic, codes, List.length_map]) (Nat.le_refl _)
  have hcount := congrArg List.length hmake
  rw [length_insertAll] at hcount
  rw [hbasic] at hmake hcount
  simp only [codes, List.length_map] at hcount
  have hlow : ∀ c ∈ s.filter (fun c => c.toNat < 128), c.toNat < 128 := by
    intro c hc
    simpa using (List.mem_filter.mp hc).2
  rw [punycodeText]
  generalize s.filter (fun c => c.toNat < 128) = basic at *
  change InOrder ⟨128, 0, basic.length, 72⟩ (insertionsOf (codes s) 128 128) at hord
  change basic.length + (insertionsOf (codes s) 128 128).length = s.length at hcount
  generalize insertionsOf (codes s) 128 128 = xs at *
  have hbytes := codeText_bytes ⟨128, 0, basic.length, 72⟩ xs
  have hmany := length_codeText ⟨128, 0, basic.length, 72⟩ xs
  have hsync : DecSync ⟨128, 0, 72, basic⟩ ⟨128, 0, basic.length, 72⟩ (codes basic) :=
    ⟨rfl, rfl, rfl, (map_ofNat_codes basic).symm, List.length_map _⟩
  have hloop : ∀ {fuel}, (codeText ⟨128, 0, basic.length, 72⟩ xs).length ≤ fuel →
      decodeLoop fuel ⟨128, 0, 72, basic⟩ (codeText ⟨128, 0, basic.length, 72⟩ xs) = some s := by
    intro fuel hf
    rw [decodeLoop_codeText hsync hord (by show basic.length + xs.length ≤ 1048576; omega) hf,
      hmake, map_ofNat_codes]
  exact decode_parts hlow hbytes (by omega) hloop

/-- The decoder gives the string back when the encoder has room for its Punycode. -/
theorem punycode_roundTrip_iff {s : List Ut8} (hpos : 1 ≤ s.length) (hlen : s.length ≤ 1048576) :
    (∃ out, rPunycodeEncode s = .ok out ∧ rPunycodeDecode out = some s) ↔
      (punycodeText s).length ≤ 2 * s.length + 10 := by
  rw [rPunycodeEncode_eq hpos hlen]
  constructor
  · rintro ⟨out, hout, -⟩
    split_ifs at hout with hroom
    exact hroom
  · intro hroom
    rw [if_pos hroom]
    exact ⟨_, rfl, rPunycodeDecode_punycodeText hpos hlen⟩

theorem punycode_roundTrip_iff_umlaut :
    ∃ out, rPunycodeEncode [98, 252, 99] = .ok out ∧ rPunycodeDecode out = some [98, 252, 99] := by
  apply (punycode_roundTrip_iff (by decide) (by decide)).mpr
  decide +kernel

/-- Bytes whose insertions lie far apart: many of their numbers take three digits. -/
def scatteredBytes : List Ut8 :=
  [210, 153, 171, 196, 160, 156, 181, 174, 191, 141, 178, 132, 196, 186, 182, 234, 214, 97, 176,
   185, 191, 183, 184, 170, 234, 161, 214, 128, 138, 250, 151, 169, 205, 179, 250, 230, 218, 173,
   162, 143, 157, 241, 168, 163, 177, 230, 226, 222, 205, 218, 180, 175, 135, 167, 164, 226, 172,
   222, 181, 166, 165, 97, 185, 182, 154, 184, 253, 183, 149, 200, 178, 145, 147, 174, 171, 237,
   209, 176, 158, 97, 200, 97, 179, 97, 237]

/-- The encoder writes behind its block of `2 * srclen + 10` bytes. -/
theorem punycode_overruns : ¬ ∀ s : List Ut8, 1 ≤ s.length → s.length ≤ 1048576 →
    ∃ out, rPunycodeEncode s = .ok out ∧ rPunycodeDecode out = some s := by
  intro hall
  obtain ⟨out, hout, -⟩ := hall scatteredBytes (by decide) (by decide)
  have hlong : ¬ (punycodeText scatteredBytes).length ≤ 2 * scatteredBytes.length + 10 := by decide +kernel
  rw [rPunycodeEncode_eq (by decide) (by decide), if_neg hlong] at hout
  cases hout

end Radare
