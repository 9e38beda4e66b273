import Radare.Framework.MachineInt
import Radare.Framework.SeparatedRanges

namespace Radare

/-- `RRangeTiny`, `pairs` ranges with their ends one after another in `ranges`. -/
structure RRangeTiny where
  pairs : Int
  count : Int
  ranges : List Ut64
  deriving DecidableEq

def rTinyrangeInit : RRangeTiny := ⟨0, 0, []⟩

/-- `ranges[i]`; `none` outside the array. -/
def loadRange (ranges : List Ut64) (i : Int) : Option Ut64 := if 0 ≤ i then ranges[i.toNat]? else none

def storeRange (ranges : List Ut64) (i : Int) (v : Ut64) : Option (List Ut64) :=
  if 0 ≤ i ∧ i < ranges.length then some (ranges.set i.toNat v) else none

/-- `realloc` for `n` elements; a size that came from a negative `int` is none, and what is new is
unknown and set to zero here. -/
def reallocRanges (ranges : List Ut64) (n : Int) : Option (List Ut64) :=
  if n < 0 then none else some (ranges.take n.toNat ++ List.replicate (n.toNat - ranges.length) 0)

/-- `idx--` on an odd index. -/
def evenBelow (idx : Int) : Int := if idx % 2 = 0 then idx else idx - 1

def evenAbove (idx : Int) : Int := if idx % 2 = 0 then idx else idx + 1

/-- The loop of `r_tinyrange_in`. -/
def tinyrangeLoop (bbr : RRangeTiny) (at_ : Ut64) : Nat → Int → Int → Option Bool
  | 0, _, _ => none
  | fuel + 1, lastIndex, idx =>
    if idx ≤ lastIndex + 1 ∧ 0 ≤ idx then do
      let lo ← loadRange bbr.ranges idx
      let hit ← if lo ≤ at_ then (loadRange bbr.ranges (idx + 1)).map (fun hi => decide (at_ < hi))
        else some false
      if hit then some true
      else if idx ≠ 0 ∧ idx < lastIndex then
        if at_ < lo then tinyrangeLoop bbr at_ fuel idx (evenBelow (idx - idx / 2))
        else tinyrangeLoop bbr at_ fuel lastIndex (evenAbove (idx + (lastIndex - idx) / 2))
      else some false
    else some false

def rTinyrangeIn (fuel : Nat) (bbr : RRangeTiny) (at_ : Ut64) : Option Bool :=
  if 0 < bbr.pairs then do
    let lastIndex := wrapInt ((bbr.pairs - 1) * 2)
    let first ← loadRange bbr.ranges 0
    if at_ < first then some false
    else do
      let last ← loadRange bbr.ranges (wrapInt (lastIndex + 1))
      if last < at_ then some false
      else tinyrangeLoop bbr at_ fuel lastIndex (evenBelow (lastIndex / 2))
  else some false

/-- `r_tinyrange_add`; `none` for an index behind the array. -/
def rTinyrangeAdd (bbr : RRangeTiny) (from_ to_ : Ut64) : Option RRangeTiny :=
  if to_ ≤ from_ then some bbr
  else if 0 < bbr.pairs then do
    let idx := wrapInt ((bbr.pairs - 1) * 2)
    let last ← loadRange bbr.ranges (wrapInt (idx + 1))
    if from_ = last then do
      let ranges ← storeRange bbr.ranges (wrapInt (idx + 1)) to_
      some { bbr with ranges := ranges, count := wrapInt (bbr.count + 1) }
    else
      let pairs := wrapInt (bbr.pairs + 1)
      let idx := wrapInt (idx + 2)
      match reallocRanges bbr.ranges (pairs * 2) with
      | none => some bbr
      | some ranges => do
        let ranges ← storeRange ranges idx from_
        let ranges ← storeRange ranges (wrapInt (idx + 1)) to_
        some ⟨pairs, wrapInt (bbr.count + 1), ranges⟩
  else some ⟨1, wrapInt (bbr.count + 1), [from_, to_]⟩

end Radare

namespace Radare

open Framework

/-- The ends of ranges one after another. -/
def flat (ps : List (Nat × Nat)) : List Nat := ps.flatMap (fun p => [p.1, p.2])

/-- The array holds these ranges. -/
structure RRangeTiny.Holds (bbr : RRangeTiny) (ps : List (Nat × Nat)) : Prop where
  pairs : bbr.pairs = ps.length
  ranges : bbr.ranges.map BitVec.toNat = flat ps

variable {bbr : RRangeTiny} {ps : List (Nat × Nat)}

theorem length_flat (ps : List (Nat × Nat)) : (flat ps).length = 2 * ps.length := by
  induction ps with
  | nil => rfl
  | cons p ps ih =>
    show (flat ps).length + 1 + 1 = 2 * (ps.length + 1)
    omega

theorem flat_getElem? (ps : List (Nat × Nat)) (k : Nat) :
    (flat ps)[2 * k]? = ps[k]?.map Prod.fst ∧ (flat ps)[2 * k + 1]? = ps[k]?.map Prod.snd := by
  induction ps generalizing k with
  | nil => exact ⟨rfl, rfl⟩
  | cons p ps ih =>
    have hcons : flat (p :: ps) = p.1 :: p.2 :: flat ps := rfl
    cases k with
    | zero => exact ⟨rfl, rfl⟩
    | succ k =>
      rw [hcons, show 2 * (k + 1) = 2 * k + 1 + 1 from rfl, List.getElem?_cons_succ, List.getElem?_cons_succ,
        List.getElem?_cons_succ, List.getElem?_cons_succ, List.getElem?_cons_succ]
      exact ih k

theorem flat_injective {ps qs : List (Nat × Nat)} (h : flat ps = flat qs) : ps = qs := by
  refine List.ext_getElem? (fun k => ?_)
  have hp := flat_getElem? ps k
  have hq := flat_getElem? qs k
  rw [h, hq.1, hq.2] at hp
  cases hpk : ps[k]? with
  | none =>
    cases hqk : qs[k]? with
    | none => rfl
    | some q => simp [hpk, hqk] at hp
  | some p =>
    cases hqk : qs[k]? with
    | none => simp [hpk, hqk] at hp
    | some q =>
      simp only [hpk, hqk, Option.map_some, Option.some.injEq] at hp
      rw [Prod.ext hp.1 hp.2]

theorem flat_snoc (ps : List (Nat × Nat)) (p : Nat × Nat) : flat (ps ++ [p]) = flat ps ++ [p.1, p.2] := by
  simp [flat]

/-- Both ends of a range are read where they stand. -/
theorem RRangeTiny.Holds.load (h : bbr.Holds ps) {k : Nat} (hk : k < ps.length) :
    (∃ lo, loadRange bbr.ranges (2 * k) = some lo ∧ lo.toNat = ps[k].1) ∧
      ∃ hi, loadRange bbr.ranges (2 * k + 1) = some hi ∧ hi.toNat = ps[k].2 := by
  have hflat := flat_getElem? ps k
  rw [← h.ranges, List.getElem?_map, List.getElem?_map, List.getElem?_eq_getElem hk] at hflat
  obtain ⟨lo, hlo, hlo'⟩ := Option.map_eq_some_iff.mp hflat.1
  obtain ⟨hi, hhi, hhi'⟩ := Option.map_eq_some_iff.mp hflat.2
  refine ⟨⟨lo, ?_, hlo'⟩, ⟨hi, ?_, hhi'⟩⟩
  · rw [loadRange, if_pos (by omega), show (2 * (k : Int)).toNat = 2 * k by omega]
    exact hlo
  · rw [loadRange, if_pos (by omega), show (2 * (k : Int) + 1).toNat = 2 * k + 1 by omega]
    exact hhi

section Add

theorem length_addRange_le (ps : List (Nat × Nat)) (r : Nat × Nat) : ps.length ≤ (addRange ps r).length := by
  rcases List.eq_nil_or_concat ps with rfl | ⟨qs, p, rfl⟩
  · exact Nat.zero_le _
  · rw [List.concat_eq_append, addRange_snoc]
    split_ifs
    · simp
    · simp

/-- The last two elements of the array. -/
theorem RRangeTiny.Holds.split {qs : List (Nat × Nat)} {p : Nat × Nat} (h : bbr.Holds (qs ++ [p])) :
    ∃ front lo hi, bbr.ranges = front ++ [lo, hi] ∧ front.map BitVec.toNat = flat qs ∧ lo.toNat = p.1 ∧
      hi.toNat = p.2 := by
  have hr := h.ranges
  rw [flat_snoc] at hr
  obtain ⟨front, back, hrange, hfront, hback⟩ := List.map_eq_append_iff.mp hr
  obtain ⟨lo, back', rfl, hlo, hback'⟩ := List.map_eq_cons_iff.mp hback
  obtain ⟨hi, back'', rfl, hhi, hnil⟩ := List.map_eq_cons_iff.mp hback'
  rw [List.map_eq_nil_iff] at hnil
  rw [hnil] at hrange
  exact ⟨front, lo, hi, hrange, hfront, hlo, hhi⟩

theorem loadRange_append (front : List Ut64) (lo hi : Ut64) {i : Int} (hi' : i = front.length + 1) :
    loadRange (front ++ [lo, hi]) i = some hi := by
  rw [loadRange, if_pos (by omega), hi', show ((front.length : Int) + 1).toNat = front.length + 1 by omega,
    List.getElem?_append_right (by omega), Nat.add_sub_cancel_left]
  rfl

theorem storeRange_append (front : List Ut64) (a b v : Ut64) {i : Int} (hi : i = front.length) :
    storeRange (front ++ [a, b]) i v = some (front ++ [v, b]) := by
  rw [storeRange, if_pos (by rw [List.length_append]; exact ⟨by omega, by simp only [List.length_cons]; omega⟩), hi,
    Int.toNat_natCast, List.set_append_right _ _ (Nat.le_refl _), Nat.sub_self]
  rfl

theorem storeRange_append_succ (front : List Ut64) (a b v : Ut64) {i : Int} (hi : i = front.length + 1) :
    storeRange (front ++ [a, b]) i v = some (front ++ [a, v]) := by
  rw [storeRange, if_pos (by rw [List.length_append]; exact ⟨by omega, by simp only [List.length_cons]; omega⟩), hi,
    show ((front.length : Int) + 1).toNat = front.length + 1 by omega,
    List.set_append_right _ _ (by omega), Nat.add_sub_cancel_left]
  rfl

/-- `r_tinyrange_add`, while there is an index for what it stores. -/
theorem tinyrangeAdd_spec (h : bbr.Holds ps) (hps : ps.length ≤ 1073741824) {from_ to_ : Ut64}
    (hlt : from_.toNat < to_.toNat) :
    if (addRange ps (from_.toNat, to_.toNat)).length ≤ 1073741824 then
      ∃ bbr', rTinyrangeAdd bbr from_ to_ = some bbr' ∧ bbr'.Holds (addRange ps (from_.toNat, to_.toNat))
    else rTinyrangeAdd bbr from_ to_ = none := by
  have hge : ¬to_ ≤ from_ := by
    rw [BitVec.le_def]
    omega
  rcases List.eq_nil_or_concat ps with rfl | ⟨qs, p, rfl⟩
  · rw [addRange_nil, if_pos (by simp)]
    have hpairs : ¬0 < bbr.pairs := by
      rw [h.pairs]
      simp
    rw [rTinyrangeAdd, if_neg hge, if_neg hpairs]
    exact ⟨_, rfl, rfl, rfl⟩
  · rw [List.concat_eq_append] at h hps ⊢
    obtain ⟨front, lo, hi, hranges, hfront, hlo, hhi⟩ := h.split
    rw [List.length_append, List.length_singleton] at hps
    have hpairs : bbr.pairs = qs.length + 1 := by
      rw [h.pairs, List.length_append, List.length_singleton]
      rfl
    have hlen : front.length = 2 * qs.length := by rw [← length_flat, ← hfront, List.length_map]
    have hidx : wrapInt ((bbr.pairs - 1) * 2) = front.length := by
      rw [wrapInt_of_range (by omega) (by omega)]
      omega
    have hidx1 : wrapInt ((front.length : Int) + 1) = front.length + 1 :=
      wrapInt_of_range (by omega) (by omega)
    have hadd : rTinyrangeAdd bbr from_ to_ =
        if from_ = hi then some { bbr with ranges := front ++ [lo, to_], count := wrapInt (bbr.count + 1) }
        else
          (storeRange (front ++ [lo, hi] ++ [0, 0]) (wrapInt ((front.length : Int) + 2)) from_).bind (fun ranges =>
            (storeRange ranges (wrapInt (wrapInt ((front.length : Int) + 2) + 1)) to_).bind (fun ranges =>
              some ⟨wrapInt (bbr.pairs + 1), wrapInt (bbr.count + 1), ranges⟩)) := by
      have hrealloc : reallocRanges (front ++ [lo, hi]) (wrapInt (bbr.pairs + 1) * 2) =
          some (front ++ [lo, hi] ++ [0, 0]) := by
        have hn : (wrapInt (bbr.pairs + 1) * 2).toNat = (front ++ [lo, hi]).length + 2 := by
          rw [wrapInt_of_range (by omega) (by omega), List.length_append]
          simp only [List.length_cons, List.length_nil]
          omega
        rw [reallocRanges, if_neg (by omega), hn, List.take_of_length_le (by omega), Nat.add_sub_cancel_left]
        rfl
      rw [rTinyrangeAdd, if_neg hge, if_pos (by omega)]
      simp only [hidx, hidx1, hranges, hrealloc, loadRange_append front lo hi rfl,
        storeRange_append_succ front lo hi to_ rfl, Option.bind_eq_bind, Option.bind_some]
    rw [addRange_snoc, hadd]
    by_cases he : p.2 = from_.toNat
    · have heq : from_ = hi := BitVec.eq_of_toNat_eq (by omega)
      simp only [he, heq, if_true]
      rw [if_pos (by simpa using hps)]
      refine ⟨_, rfl, ?_, ?_⟩
      · rw [hpairs, List.length_append, List.length_singleton]
        rfl
      · simp only [List.map_append, List.map_cons, List.map_nil, flat_snoc, hfront, hlo]
    · have hne : ¬from_ = hi := by
        intro heq
        rw [heq] at he
        exact he hhi.symm
      simp only [he, hne, if_false]
      by_cases hroom : (qs ++ [p] ++ [(from_.toNat, to_.toNat)]).length ≤ 1073741824
      · rw [if_pos hroom]
        simp only [List.length_append, List.length_singleton] at hroom
        rw [wrapInt_of_range (by omega) (by omega), wrapInt_of_range (by omega) (by omega),
          wrapInt_of_range (by omega) (by omega),
          storeRange_append _ 0 0 from_ (by simp), Option.bind_some,
          storeRange_append_succ _ from_ 0 to_ (by simp), Option.bind_some]
        refine ⟨_, rfl, ?_, ?_⟩
        · simp only [hpairs, List.length_append, List.length_singleton]
          push_cast
          rfl
        · simp only [List.map_append, List.map_cons, List.map_nil, flat_snoc, hfront, hlo, hhi]
      · rw [if_neg hroom]
        simp only [List.length_append, List.length_singleton] at hroom
        have hover : wrapInt ((front.length : Int) + 2) = -2147483648 := by
          have hfull : front.length = 2147483646 := by omega
          rw [hfull]
          rfl
        rw [hover, storeRange, if_neg (by omega), Option.bind_none]

end Add

section Search

/-- What holds while the loop of `r_tinyrange_in` looks at the range `i`, bounded by the range `l`. -/
structure Searching (ps : List (Nat × Nat)) (x l i : Nat) : Prop where
  bound : l < ps.length
  le : i ≤ l
  above : l + 1 = ps.length ∨ ∀ q ∈ ps[l]?, x < q.1
  first : i = 0 → ∀ k (hk : k < ps.length), 0 < k → x < ps[k].1
  last : i = l → ∀ k (hk : k < ps.length), k < l → ps[k].2 ≤ x

/-- When the loop gives up, no range holds the address. -/
theorem Searching.stop (hs : Separated ps) {x l i : Nat} (h : Searching ps x l i) (hi : i < ps.length)
    (hmiss : ¬(ps[i].1 ≤ x ∧ x < ps[i].2)) (hend : i = 0 ∨ i = l) : ¬Covered ps x := by
  rw [covered_iff_getElem]
  intro hc
  obtain ⟨k, hk, hx⟩ := hc
  rcases hend with h0 | hl
  · by_cases hk0 : k = 0
    · subst hk0
      subst h0
      exact hmiss hx
    · have hlt := h.first h0 k hk (by omega)
      omega
  · rcases lt_trichotomy k l with hkl | hkl | hkl
    · have hle := h.last hl k hk hkl
      omega
    · subst hkl
      subst hl
      exact hmiss hx
    · rcases h.above with hab | hab
      · omega
      · have hlt := hab ps[l] (by rw [List.getElem?_eq_getElem h.bound]; rfl)
        have hgap := hs.lt h.bound hk hkl
        have hne := hs.nonempty ps[l] (List.getElem_mem h.bound)
        omega

theorem Searching.left (hs : Separated ps) {x l i : Nat} (h : Searching ps x l i) (hi : i < ps.length)
    (hx : x < ps[i].1) (h0 : i ≠ 0) : Searching ps x i (i / 2) := by
  refine ⟨hi, by omega, Or.inr ?_, ?_, fun hl => absurd hl (by omega)⟩
  · intro q hq
    rw [List.getElem?_eq_getElem hi, Option.mem_some_iff] at hq
    rw [← hq]
    exact hx
  · intro hz k hk hpos
    have h1 : i = 1 := by omega
    subst h1
    rcases Nat.eq_or_lt_of_le hpos with hk1 | hk1
    · subst hk1
      exact hx
    · have hgap := hs.lt hi hk hk1
      have hne := hs.nonempty ps[1] (List.getElem_mem hi)
      omega

theorem Searching.right (hs : Separated ps) {x l i : Nat} (h : Searching ps x l i) (hi : i < ps.length)
    (hx : ps[i].2 ≤ x) (hl : i < l) : Searching ps x l (i + (l - i + 1) / 2) := by
  refine ⟨h.bound, by omega, h.above, fun hz => absurd hz (by omega), ?_⟩
  intro heq k hk hkl
  rcases Nat.eq_or_lt_of_le (show k ≤ i by omega) with hki | hki
  · subst hki
    exact hx
  · have hgap := hs.lt hk hi hki
    have hne := hs.nonempty ps[i] (List.getElem_mem hi)
    omega

/-- One turn of the loop, in terms of the ranges. -/
theorem tinyrangeLoop_succ (h : bbr.Holds ps) (at_ : Ut64) (m : Nat) {l i : Nat} (hi : i < ps.length)
    (hle : i ≤ l) :
    tinyrangeLoop bbr at_ (m + 1) (2 * l : Nat) (2 * i : Nat) =
      if ps[i].1 ≤ at_.toNat ∧ at_.toNat < ps[i].2 then some true
      else if i ≠ 0 ∧ i < l then
        if at_.toNat < ps[i].1 then tinyrangeLoop bbr at_ m (2 * i : Nat) (2 * (i / 2) : Nat)
        else tinyrangeLoop bbr at_ m (2 * l : Nat) (2 * (i + (l - i + 1) / 2) : Nat)
      else some false := by
  obtain ⟨⟨lo, hlo, hlo'⟩, ⟨hi', hhi, hhi'⟩⟩ := h.load hi
  have hbelow : evenBelow (2 * (i : Int) - 2 * (i : Int) / 2) = 2 * ((i / 2 : Nat) : Int) := by
    unfold evenBelow
    split_ifs <;> omega
  have habove : i < l → evenAbove (2 * (i : Int) + (2 * (l : Int) - 2 * (i : Int)) / 2) =
      2 * ((i + (l - i + 1) / 2 : Nat) : Int) := by
    intro hl
    unfold evenAbove
    split_ifs <;> omega
  have hmid : (2 * (i : Int) ≠ 0 ∧ 2 * (i : Int) < 2 * l) ↔ (i ≠ 0 ∧ i < l) := by omega
  rw [tinyrangeLoop, if_pos (by omega)]
  simp only [Nat.cast_mul, Nat.cast_ofNat, hlo, hhi, Option.bind_eq_bind, Option.bind_some, Option.map_some,
    BitVec.le_def, BitVec.lt_def, hlo', hhi', hmid]
  by_cases hge : ps[i].1 ≤ at_.toNat
  · by_cases hlt : at_.toNat < ps[i].2
    · simp [hge, hlt]
    · have hnot : ¬at_.toNat < ps[i].1 := by omega
      by_cases hm : i ≠ 0 ∧ i < l
      · simp [hge, hlt, hnot, hm, habove hm.2]
      · simp only [hge, hlt, hm, if_true, if_false, decide_false, and_false, Bool.false_eq_true]
  · have hnot : at_.toNat < ps[i].1 := by omega
    simp only [hge, hnot, hbelow, if_true, if_false, false_and, Bool.false_eq_true]

/-- The loop ends with the right answer, whatever fuel is left over. -/
theorem tinyrangeLoop_spec (h : bbr.Holds ps) (hs : Separated ps) (at_ : Ut64) (n : Nat) {l i : Nat}
    (hn : l * (ps.length + 1) + (l - i) < n) (hsearch : Searching ps at_.toNat l i) :
    ∀ fuel, n ≤ fuel → tinyrangeLoop bbr at_ fuel (2 * l : Nat) (2 * i : Nat) =
      some (decide (Covered ps at_.toNat)) := by
  induction n generalizing l i with
  | zero => omega
  | succ n ih =>
    intro fuel hfuel
    obtain ⟨m, rfl⟩ : ∃ m, fuel = m + 1 := ⟨fuel - 1, by omega⟩
    have hile := hsearch.le
    have hlen := hsearch.bound
    have hi : i < ps.length := by omega
    rw [tinyrangeLoop_succ h at_ m hi hile]
    by_cases hhit : ps[i].1 ≤ at_.toNat ∧ at_.toNat < ps[i].2
    · rw [if_pos hhit, decide_eq_true ((covered_iff_getElem ps _).mpr ⟨i, hi, hhit⟩)]
    · rw [if_neg hhit]
      by_cases hmid : i ≠ 0 ∧ i < l
      · rw [if_pos hmid]
        by_cases hlt : at_.toNat < ps[i].1
        · rw [if_pos hlt]
          -- the bound moves down to the range that was looked at
          refine ih ?_ (hsearch.left hs hi hlt hmid.1) m (by omega)
          have hmul : (i + 1) * (ps.length + 1) ≤ l * (ps.length + 1) := Nat.mul_le_mul_right _ hmid.2
          rw [Nat.add_mul] at hmul
          omega
        · rw [if_neg hlt]
          exact ih (by omega) (hsearch.right hs hi (by omega) hmid.2) m (by omega)
      · rw [if_neg hmid, decide_eq_false (hsearch.stop hs hi hhit (by omega))]

/-- The ranges that `r_tinyrange_in` gets to: of two it only looks at the first. -/
def searchedRanges (ps : List (Nat × Nat)) : List (Nat × Nat) := if ps.length = 2 then ps.take 1 else ps

theorem searchedRanges_subset : ∀ p ∈ searchedRanges ps, p ∈ ps := by
  intro p hp
  unfold searchedRanges at hp
  split_ifs at hp
  · exact List.mem_of_mem_take hp
  · exact hp

/-- Where the search starts: in the middle, or at the first of two. -/
theorem Searching.start (h0 : 0 < ps.length) (h2 : ps.length ≠ 2) (x : Nat) :
    Searching ps x (ps.length - 1) ((ps.length - 1) / 2) := by
  refine ⟨by omega, by omega, Or.inl (by omega), ?_, ?_⟩
  · intro hz k hk hpos
    omega
  · intro he k hk hlt
    omega

theorem tinyrangeIn_spec (h : bbr.Holds ps) (hs : Separated ps) (hlen : ps.length ≤ 1073741824) (at_ : Ut64) :
    ∃ n, ∀ fuel, n ≤ fuel →
      rTinyrangeIn fuel bbr at_ = some (decide (Covered (searchedRanges ps) at_.toNat)) := by
  by_cases h0 : ps.length = 0
  · have hnil := List.length_eq_zero_iff.mp h0
    subst hnil
    refine ⟨0, fun fuel _ => ?_⟩
    have hpairs : ¬0 < bbr.pairs := by
      rw [h.pairs]
      simp
    rw [rTinyrangeIn, if_neg hpairs]
    rfl
  · have hpos : 0 < ps.length := by omega
    have hlast : ps.length - 1 < ps.length := by omega
    have hidx : wrapInt ((bbr.pairs - 1) * 2) = (2 * (ps.length - 1) : Nat) := by
      rw [h.pairs, wrapInt_of_range (by omega) (by omega)]
      omega
    have hidx1 : wrapInt (((2 * (ps.length - 1) : Nat) : Int) + 1) = 2 * ((ps.length - 1 : Nat) : Int) + 1 := by
      rw [wrapInt_of_range (by omega) (by omega)]
      omega
    have hstart : evenBelow (((2 * (ps.length - 1) : Nat) : Int) / 2) = (2 * ((ps.length - 1) / 2) : Nat) := by
      unfold evenBelow
      split_ifs <;> omega
    obtain ⟨⟨lo, hlo, hlo'⟩, -⟩ := h.load hpos
    obtain ⟨-, ⟨hi, hhi, hhi'⟩⟩ := h.load hlast
    rw [Nat.cast_zero, Int.mul_zero] at hlo
    have hin : ∀ fuel, rTinyrangeIn fuel bbr at_ =
        if at_.toNat < ps[0].1 then some false
        else if ps[ps.length - 1].2 < at_.toNat then some false
        else tinyrangeLoop bbr at_ fuel (2 * (ps.length - 1) : Nat) (2 * ((ps.length - 1) / 2) : Nat) := by
      intro fuel
      rw [rTinyrangeIn, if_pos (by rw [h.pairs]; omega)]
      simp only [hidx, hidx1, hstart, hlo, hhi, Option.bind_eq_bind, Option.bind_some, BitVec.lt_def, hlo', hhi']
    by_cases hbefore : at_.toNat < ps[0].1
    · refine ⟨0, fun fuel _ => ?_⟩
      rw [hin, if_pos hbefore, decide_eq_false]
      intro hc
      obtain ⟨p, hp, hx⟩ := hc
      have hle := hs.first_le hpos p (searchedRanges_subset p hp)
      omega
    · by_cases hbehind : ps[ps.length - 1].2 < at_.toNat
      · refine ⟨0, fun fuel _ => ?_⟩
        rw [hin, if_neg hbefore, if_pos hbehind, decide_eq_false]
        intro hc
        obtain ⟨p, hp, hx⟩ := hc
        have hle := hs.le_last hlast p (searchedRanges_subset p hp)
        omega
      · by_cases h2 : ps.length = 2
        · -- the middle of two is the first, and the loop ends there
          refine ⟨1, fun fuel hfuel => ?_⟩
          obtain ⟨m, rfl⟩ : ∃ m, fuel = m + 1 := ⟨fuel - 1, by omega⟩
          have hloop := tinyrangeLoop_succ h at_ m hpos (show 0 ≤ 1 by omega)
          rw [hin, if_neg hbefore, if_neg hbehind, h2]
          rw [hloop, searchedRanges, if_pos h2]
          have hcov : Covered (ps.take 1) at_.toNat ↔ ps[0].1 ≤ at_.toNat ∧ at_.toNat < ps[0].2 := by
            obtain ⟨p, q, rfl⟩ := List.length_eq_two.mp h2
            simp [Covered]
          by_cases hhit : ps[0].1 ≤ at_.toNat ∧ at_.toNat < ps[0].2
          · rw [if_pos hhit, decide_eq_true (hcov.mpr hhit)]
          · rw [if_neg hhit, if_neg (by omega), decide_eq_false (fun hc => hhit (hcov.mp hc))]
        · refine ⟨(ps.length - 1) * (ps.length + 1) + ps.length + 1, fun fuel hfuel => ?_⟩
          rw [hin, if_neg hbefore, if_neg hbehind, searchedRanges, if_neg h2]
          exact tinyrangeLoop_spec h hs at_ _ (by omega) (Searching.start hpos h2 _) fuel hfuel

end Search

end Radare
