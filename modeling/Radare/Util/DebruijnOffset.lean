import Radare.Framework.CString
import Radare.Framework.Windows
import Radare.Util.Debruijn
import Radare.Util.Endian

namespace Radare

open Framework Framework.CString

/-- The bytes of a text in the characters of ASCII. -/
def asciiBytes (s : List Char) : List Ut8 := s.map fun c => BitVec.ofNat 8 c.toNat

/-- `r_debruijn_offset`. -/
def rDebruijnOffset (value : Ut64) (isBigEndian : Bool) : Int :=
  if value = 0 then -1
  else
    let pattern := asciiBytes ((rDebruijnPattern 0x10000 0 (some debruijnCharset)).getD [])
    let buf := orient isBigEndian (leBytes 8 value.toNat)
    let needle := (buf.dropWhile (· = 0)).takeWhile (· ≠ 0)
    match strstr needle pattern with
    | some pch => pattern.length - pch.length
    | none => -1

theorem leBytes_leNat {bs : List Ut8} {n : Nat} (h : bs.length ≤ n) :
    leBytes n (leNat bs) = bs ++ List.replicate (n - bs.length) 0 := by
  apply leNat_inj
  · rw [leBytes_length, List.length_append, List.length_replicate]
    omega
  · rw [leNat_leBytes, leNat_append_zeros]
    exact Nat.mod_eq_of_lt ((leNat_lt bs).trans_le (Nat.pow_le_pow_right (by decide) h))

theorem dropWhile_zeros (k : Nat) {bs : List Ut8} (h : ∀ b ∈ bs, b ≠ 0) (hne : bs ≠ []) (rest : List Ut8) :
    (List.replicate k 0 ++ (bs ++ rest)).dropWhile (· = 0) = bs ++ rest := by
  rw [List.dropWhile_append_of_pos (by simp [List.mem_replicate])]
  cases bs with
  | nil => exact absurd rfl hne
  | cons b bs =>
    rw [List.cons_append, List.dropWhile_cons_of_neg]
    rw [decide_eq_true_eq]
    exact h b List.mem_cons_self

/-- The bytes of a value without a zero among them, in either order, are the needle. -/
theorem needle_eq (be : Bool) {bs : List Ut8} (h : ∀ b ∈ bs, b ≠ 0) (hne : bs ≠ []) (hlen : bs.length ≤ 8) :
    ((orient be (leBytes 8 (leNat (orient be bs)))).dropWhile (· = 0)).takeWhile (· ≠ 0) = bs := by
  have hall : ∀ b ∈ bs, decide (b ≠ 0) = true := fun b hb => decide_eq_true (h b hb)
  rw [leBytes_leNat (by rw [orient_length]; exact hlen), orient_length]
  cases be with
  | false =>
    have hdrop := dropWhile_zeros 0 h hne (List.replicate (8 - bs.length) 0)
    rw [List.replicate_zero, List.nil_append] at hdrop
    simp only [orient, Bool.false_eq_true, if_false]
    rw [hdrop, List.takeWhile_append_of_pos hall]
    cases hk : 8 - bs.length with
    | zero => rw [List.replicate_zero, List.takeWhile_nil, List.append_nil]
    | succ k => rw [List.replicate_succ, List.takeWhile_cons_of_neg (by simp), List.append_nil]
  | true =>
    have hdrop := dropWhile_zeros (8 - bs.length) h hne []
    rw [List.append_nil] at hdrop
    simp only [orient, if_true, List.reverse_append, List.reverse_reverse, List.reverse_replicate]
    rw [hdrop, List.takeWhile_eq_self_iff.mpr hall]

theorem debruijnCharset_eq : debruijnCharset = ['A', 'B', 'C', 'D', 'E', 'F', 'G', 'H', 'I', 'J', 'K', 'L', 'M', 'N', 'O',
    'P', 'Q', 'R', 'S', 'T', 'U', 'V', 'W', 'X', 'Y', 'Z', 'a', 'b', 'c', 'd', 'e', 'f', 'g', 'h', 'i', 'j', 'k', 'l',
    'm', 'n', 'o', 'p', 'q', 'r', 's', 't', 'u', 'v', 'w', 'x', 'y', 'z', '1', '2', '3', '4', '5', '6', '7', '8', '9',
    '0'] := String.toList_ofList

theorem charset_bounds {c : Char} (hc : c ∈ debruijnCharset) : 0 < c.toNat ∧ c.toNat < 256 := by
  have hall : debruijnCharset.all (fun c => 0 < c.toNat && c.toNat < 256) = true := by
    rw [debruijnCharset_eq]
    rfl
  simpa using List.all_eq_true.mp hall c hc

theorem charset_ascii {c : Char} (hc : c ∈ debruijnCharset) :
    BitVec.ofNat 8 c.toNat ≠ 0 ∧ Char.ofNat (BitVec.ofNat 8 c.toNat).toNat = c := by
  obtain ⟨hpos, hlt⟩ := charset_bounds hc
  have hbyte : (BitVec.ofNat 8 c.toNat).toNat = c.toNat := by rw [BitVec.toNat_ofNat, Nat.mod_eq_of_lt hlt]
  refine ⟨fun hzero => ?_, by rw [hbyte, Char.ofNat_toNat]⟩
  rw [hzero] at hbyte
  exact hpos.ne hbyte

theorem charset_nodup : debruijnCharset.Nodup := by
  rw [debruijnCharset_eq]
  decide

theorem charset_length : debruijnCharset.length = 62 := by
  rw [debruijnCharset_eq]
  rfl

theorem charset_zero : '\x00' ∉ debruijnCharset := by
  rw [debruijnCharset_eq]
  decide

theorem asciiBytes_back {s : List Char} (hs : ∀ c ∈ s, c ∈ debruijnCharset) :
    (asciiBytes s).map (fun b => Char.ofNat b.toNat) = s := by
  rw [asciiBytes, List.map_map]
  calc s.map _ = s.map id := List.map_congr_left fun c hc => (charset_ascii (hs c hc)).2
    _ = s := List.map_id s

theorem asciiBytes_inj {s t : List Char} (hs : ∀ c ∈ s, c ∈ debruijnCharset) (ht : ∀ c ∈ t, c ∈ debruijnCharset)
    (h : asciiBytes s = asciiBytes t) : s = t := by
  rw [← asciiBytes_back hs, h, asciiBytes_back ht]

theorem asciiBytes_window (s : List Char) (i n : Nat) : asciiBytes (window s i n) = window (asciiBytes s) i n := by
  rw [window, window, asciiBytes, asciiBytes, List.map_take, List.map_drop]

theorem leNat_ne_zero {bs : List Ut8} {b : Ut8} (hb : b ∈ bs) (hne : b ≠ 0) : leNat bs ≠ 0 := by
  intro h
  have hzeros : bs = List.replicate bs.length 0 := by
    apply leNat_inj
    · rw [List.length_replicate]
    · rw [h]
      exact (leNat_append_zeros [] bs.length).symm
  rw [hzeros] at hb
  exact hne (List.eq_of_mem_replicate hb)

theorem mem_orient (be : Bool) {bs : List Ut8} {b : Ut8} : b ∈ orient be bs ↔ b ∈ bs := by
  cases be <;> simp [orient]

/-- A part of three characters or more does not stand before its place. -/
theorem window_first {s : List Char} (hs : ∀ c ∈ s, c ∈ debruijnCharset)
    (hunique : ∀ i j, i + 3 ≤ s.length → j + 3 ≤ s.length → i ≠ j → window3 s i ≠ window3 s j) {p m : Nat}
    (hm : 3 ≤ m) (hp : p + m ≤ s.length) : ∀ j < p, ¬asciiBytes (window s p m) <+: (asciiBytes s).drop j := by
  intro j hj hpre
  have hlength : (window s p m).length = m := length_window hp
  have htake : asciiBytes (window s p m) = asciiBytes (window s j m) := by
    rw [List.prefix_iff_eq_take] at hpre
    have hsame : (asciiBytes (window s p m)).length = m := by rw [asciiBytes, List.length_map, hlength]
    rw [hpre, hsame, asciiBytes_window s j m, window]
  have hpart : ∀ i, ∀ c ∈ window s i m, c ∈ debruijnCharset := fun i c hc =>
    hs c (List.mem_of_mem_drop (List.mem_of_mem_take hc))
  have heq : window s p m = window s j m := asciiBytes_inj (hpart p) (hpart j) htake
  have hthree : ∀ i, window3 s i = (window s i m).take 3 := by
    intro i
    rw [window3, window, List.take_take, min_eq_left hm]
  exact hunique p j (by omega) (by omega) (by omega) (by rw [hthree, hthree, heq])

/-- What `r_debruijn_pattern` makes is a part of what `r_debruijn_offset` looks in. -/
theorem rDebruijnPattern_window {size : Int} (hsize : size ≤ 0x10000) {start : Nat} {t : List Char}
    (h : rDebruijnPattern size start none = some t) :
    t = window (deBruijnText debruijnCharset 3 0x10000) start (size.toNat - start) := by
  have hpat : deBruijnText debruijnCharset 3 size.toNat = (deBruijnText debruijnCharset 3 0x10000).take size.toNat :=
    deBruijnText_take (by rw [charset_length]; decide) charset_zero (by omega)
  rw [rDebruijnPattern, Option.getD_none, deBruijn, if_neg (show ¬ size.toNat + 1 > 2147483647 by omega),
    hpat] at h
  split_ifs at h with hbig hstart
  · rw [Option.map_some, Option.some.injEq] at h
    rw [← h, hstart, window, List.drop_zero, Nat.sub_zero]
  · rw [Option.map_some, Option.some.injEq] at h
    rw [← h, window, List.drop_take, List.take_take, min_self]

theorem debruijn_offset_finds {size : Int} (hsize : size ≤ 0x10000) {start : Nat} {t : List Char}
    (h : rDebruijnPattern size start none = some t) (isBigEndian : Bool) {p m : Nat} (hm : 3 ≤ m) (hm' : m ≤ 8)
    (hp : p + m ≤ t.length) :
    rDebruijnOffset (BitVec.ofNat 64 (leNat (orient isBigEndian (window (asciiBytes t) p m)))) isBigEndian =
      start + p := by
  obtain ⟨-, hmem, hunique⟩ := deBruijnText_windows debruijnCharset (by rw [charset_length]; decide) charset_nodup charset_zero 0x10000
  have hpattern : (rDebruijnPattern 0x10000 0 (some debruijnCharset)).getD [] = deBruijnText debruijnCharset 3 0x10000 := by
    have hsize : (0x10000 : Int).toNat = 0x10000 := by omega
    rw [rDebruijnPattern, if_neg (by omega), hsize, Option.getD_some, deBruijn, if_neg (by omega),
      Option.map_some, if_pos rfl, Option.getD_some]
  obtain ⟨s, hs⟩ : ∃ s, s = deBruijnText debruijnCharset 3 0x10000 := ⟨_, rfl⟩
  have ht := rDebruijnPattern_window hsize h
  rw [← hs] at hmem hunique hpattern ht
  have hlength : start + p + m ≤ s.length := by
    rw [ht, window, List.length_take, List.length_drop] at hp
    omega
  have hwindow : window t p m = window s (start + p) m := by
    rw [ht, window, window, window, List.drop_take, List.drop_drop, List.take_take, min_eq_left]
    rw [ht, window, List.length_take, List.length_drop] at hp
    omega
  have hneedle : window (asciiBytes t) p m = asciiBytes (window s (start + p) m) := by
    rw [← asciiBytes_window, hwindow]
  obtain ⟨bs, hbs⟩ : ∃ bs, bs = asciiBytes (window s (start + p) m) := ⟨_, rfl⟩
  have hlen : bs.length = m := by
    rw [hbs, asciiBytes, List.length_map, length_window hlength]
  have hnonzero : ∀ b ∈ bs, b ≠ 0 := by
    intro b hb
    rw [hbs, asciiBytes] at hb
    obtain ⟨c, hc, rfl⟩ := List.mem_map.mp hb
    exact (charset_ascii (hmem c (List.mem_of_mem_drop (List.mem_of_mem_take hc)))).1
  have hne : bs ≠ [] := List.ne_nil_of_length_pos (by omega)
  have hsmall : leNat (orient isBigEndian bs) < 2 ^ 64 := by
    have hlt := leNat_lt (orient isBigEndian bs)
    rw [orient_length, hlen] at hlt
    exact hlt.trans_le (Nat.pow_le_pow_right (by decide) hm' : 256 ^ m ≤ 256 ^ 8)
  have hvalue : (BitVec.ofNat 64 (leNat (orient isBigEndian bs))).toNat = leNat (orient isBigEndian bs) := by
    rw [BitVec.toNat_ofNat, Nat.mod_eq_of_lt hsmall]
  have hpos : BitVec.ofNat 64 (leNat (orient isBigEndian bs)) ≠ 0 := by
    obtain ⟨b, hb⟩ := List.exists_mem_of_ne_nil bs hne
    intro hzero
    rw [hzero] at hvalue
    exact leNat_ne_zero ((mem_orient isBigEndian).mpr hb) (hnonzero b hb) hvalue.symm
  have hfound : strstr bs (asciiBytes s) = some ((asciiBytes s).drop (start + p)) := by
    apply strstr_first hne
    · rw [hbs, asciiBytes_window]
      exact List.take_prefix m _
    · rw [hbs]
      exact window_first hmem hunique hm hlength
  rw [hneedle, ← hbs, rDebruijnOffset, if_neg hpos]
  simp only [hpattern, hvalue, needle_eq isBigEndian hnonzero hne (hlen.trans_le hm'), hfound]
  rw [List.length_drop, asciiBytes, List.length_map]
  omega

theorem debruijn_offset_finds_word : ∃ t, rDebruijnPattern 8 2 none = some t ∧ t.length = 6 ∧
    rDebruijnOffset (BitVec.ofNat 64 (leNat (orient false (window (asciiBytes t) 1 4)))) false = 3 := by
  obtain ⟨hlength, -, -⟩ := deBruijnText_windows debruijnCharset (by rw [charset_length]; decide) charset_nodup charset_zero 8
  have hpattern : rDebruijnPattern 8 2 none = some (((deBruijnText debruijnCharset 3 8).drop 2).take 6) := by
    have hsize : (8 : Int).toNat = 8 := by omega
    rw [rDebruijnPattern, if_neg (by omega), hsize, Option.getD_none, deBruijn, if_neg (by omega),
      Option.map_some, if_neg (by omega)]
  have hsix : (((deBruijnText debruijnCharset 3 8).drop 2).take 6).length = 6 := by
    rw [List.length_take, List.length_drop, hlength, charset_length]
    rfl
  exact ⟨_, hpattern, hsix, debruijn_offset_finds (by omega) hpattern false (by omega) (by omega) (by rw [hsix]; omega)⟩

end Radare
