import Radare.Framework.MachineInt
import Radare.Util.RListData
import Mathlib.Algebra.GroupWithZero.Nat
import Mathlib.Data.Set.Card
import Radare.Framework.RangeHull
import Radare.Framework.RangeSweep

namespace Radare

/-- `RRangeItem`; its data belongs to other calls. -/
structure RRangeItem where
  fr : Ut64
  to_ : Ut64
  deriving DecidableEq

/-- `RRange`, with the items of its list in their order and the `sorted` flag of the list. -/
structure RRange where
  ranges : List RRangeItem
  sorted : Bool
  changed : Bool
  deriving DecidableEq

def rRangeNew : RRange := ⟨[], false, false⟩

def rNumMinmaxSwap (a b : Ut64) : Ut64 × Ut64 := if b < a then (b, a) else (a, b)

/-- The locals of the loop of `r_range_add`: `ret` is the place of the item it points to. -/
structure RangeAdd where
  ret : Option Nat
  add : Bool

/-- One item in the loop of `r_range_add`. -/
def rangeAddItem (fr to_ : Ut64) (i : Nat) (r : RRangeItem) (st : RangeAdd) : RRangeItem × RangeAdd :=
  if r.fr = fr ∧ r.to_ = to_ then (r, { st with add := false })
  else if r.fr ≤ fr ∧ r.fr ≤ to_ ∧ fr ≤ r.to_ ∧ r.to_ ≤ to_ then ({ r with to_ := to_ }, ⟨some i, false⟩)
  else if fr ≤ r.fr ∧ r.fr ≤ to_ ∧ fr ≤ r.to_ ∧ to_ ≤ r.to_ then ({ r with fr := fr }, ⟨some i, false⟩)
  else if r.fr ≤ fr ∧ r.fr ≤ to_ ∧ fr ≤ r.to_ ∧ to_ ≤ r.to_ then (r, { st with add := false })
  else if fr ≤ r.fr ∧ r.fr ≤ to_ ∧ fr ≤ r.to_ ∧ r.to_ ≤ to_ then (⟨fr, to_⟩, ⟨some i, false⟩)
  else (r, st)

def rangeAddLoop (fr to_ : Ut64) : Nat → List RRangeItem → RangeAdd → List RRangeItem × RangeAdd
  | _, [], st => ([], st)
  | i, r :: rs, st =>
    let turn := rangeAddItem fr to_ i r st
    let out := rangeAddLoop fr to_ (i + 1) rs turn.2
    (turn.1 :: out.1, out.2)

/-- `r_range_add`; the item it returns is given by its place in the list. -/
def rRangeAdd (rgs : RRange) (fr to_ : Ut64) (rw_ : Bool) : RRange × Option Nat :=
  let (fr, to_) := rNumMinmaxSwap fr to_
  let (ranges, st) := rangeAddLoop fr to_ 0 rgs.ranges ⟨none, true⟩
  if rw_ ∧ st.add then (⟨ranges ++ [⟨fr, to_⟩], false, true⟩, some ranges.length)
  else ({ rgs with ranges := ranges }, st.ret)

def rRangeSize (rgs : RRange) : Ut64 := rgs.ranges.foldl (fun sum r => sum + (r.to_ - r.fr)) 0

def rangeTrim (fr to_ : Ut64) (r : RRangeItem) : RRangeItem :=
  if r.fr < fr ∧ r.fr < to_ ∧ fr < r.to_ ∧ r.to_ < to_ then { r with to_ := fr }
  else if fr < r.fr ∧ r.fr < to_ ∧ fr < r.to_ ∧ to_ < r.to_ then { r with fr := to_ }
  else r

/-- The loop of `r_range_sub` over the items behind `seen`, and whether it goes to `__reloop`. -/
def rangeSubScan (rgs : RRange) (fr to_ : Ut64) (seen : List RRangeItem) : List RRangeItem → RRange × Bool
  | [] => ({ rgs with ranges := seen }, false)
  | r :: rest =>
    let r := rangeTrim fr to_ r
    if fr < r.fr ∧ r.fr < to_ ∧ fr < r.to_ ∧ r.to_ < to_ then
      ({ rgs with ranges := seen ++ rest, changed := true }, true)
    else if r.fr < fr ∧ r.fr < to_ ∧ fr < r.to_ ∧ to_ < r.to_ then
      -- `r->to` is overwritten before it is an argument of `r_range_add`
      let r := { r with to_ := fr }
      ((rRangeAdd { rgs with ranges := seen ++ r :: rest } to_ r.to_ true).1, true)
    else rangeSubScan rgs fr to_ (seen ++ [r]) rest

def rangeSubLoop (fr to_ : Ut64) : Nat → RRange → Option RRange
  | 0, _ => none
  | fuel + 1, rgs =>
    let scan := rangeSubScan rgs fr to_ [] rgs.ranges
    if scan.2 then rangeSubLoop fr to_ fuel scan.1 else some scan.1

/-- `r_range_sub`, with fuel for the passes over the list. -/
def rRangeSub (fuel : Nat) (rgs : RRange) (fr to_ : Ut64) : Option RRange :=
  let (fr, to_) := rNumMinmaxSwap fr to_
  rangeSubLoop fr to_ fuel rgs

def cmpRanges (first second : RRangeItem) : Int := if first.fr > second.fr then 1 else 0

def rRangeSort (rgs : RRange) : Option (RRange × Bool) :=
  let ch := rgs.sorted
  if rgs.changed = false then some (rgs, false)
  else do
    let (ranges, sorted) ← sortData cmpRanges rgs.ranges rgs.sorted
    let changed := decide (ch ≠ sorted)
    some (⟨ranges, sorted, changed⟩, changed)

/-- The loop of `r_range_inverse`, with `fr` as the bound that moves. -/
def rangeInverseLoop (to_ : Ut64) : List RRangeItem → Ut64 → RRange → RRange × Ut64
  | [], fr, newrgs => (newrgs, fr)
  | r :: rs, fr, newrgs =>
    if fr < r.fr ∧ r.fr < to_ then rangeInverseLoop to_ rs r.to_ (rRangeAdd newrgs fr r.fr true).1
    else rangeInverseLoop to_ rs fr newrgs

/-- `r_range_inverse`: the ranges as they are sorted now, and the new ones. -/
def rRangeInverse (rgs : RRange) (fr to_ : Ut64) : Option (RRange × RRange) := do
  let (rgs, _) ← rRangeSort rgs
  let (newrgs, fr) := rangeInverseLoop to_ rgs.ranges fr rRangeNew
  some (rgs, if fr < to_ then (rRangeAdd newrgs fr to_ true).1 else newrgs)

def RRangeItem.Covers (r : RRangeItem) (a : Ut64) : Prop := r.fr ≤ a ∧ a < r.to_

instance (r : RRangeItem) (a : Ut64) : Decidable (r.Covers a) := inferInstanceAs (Decidable (_ ∧ _))

/-- The address is in some item. -/
def RRange.Covers (rgs : RRange) (a : Ut64) : Prop := ∃ r ∈ rgs.ranges, r.Covers a

/-- No two items have an address in common. -/
def RRange.Disjoint (rgs : RRange) : Prop :=
  rgs.ranges.Pairwise (fun r s => ∀ a, ¬(r.Covers a ∧ s.Covers a))

end Radare

namespace Radare

open Framework

variable {rgs : RRange} {fr to_ : Ut64}

/-- The ends of an item. -/
def RRangeItem.span (r : RRangeItem) : Nat × Nat := (r.fr.toNat, r.to_.toNat)

def RRange.spans (rgs : RRange) : List (Nat × Nat) := rgs.ranges.map RRangeItem.span

theorem covers_iff (rgs : RRange) (a : Ut64) : rgs.Covers a ↔ Covered rgs.spans a.toNat := by
  constructor
  · intro h
    obtain ⟨r, hr, hlo, hhi⟩ := h
    exact ⟨r.span, List.mem_map_of_mem hr, BitVec.le_def.mp hlo, BitVec.lt_def.mp hhi⟩
  · intro h
    obtain ⟨p, hp, hlo, hhi⟩ := h
    obtain ⟨r, hr, rfl⟩ := List.mem_map.mp hp
    exact ⟨r, hr, BitVec.le_def.mpr hlo, BitVec.lt_def.mpr hhi⟩

theorem disjoint_iff (rgs : RRange) : rgs.Disjoint ↔ Apart rgs.spans := by
  rw [Apart, RRange.spans, List.pairwise_map]
  refine List.Pairwise.iff (fun r s => ?_)
  constructor
  · intro h x hx
    have hlt : x < 2 ^ 64 := hx.1.2.trans r.to_.isLt
    have hx' : (BitVec.ofNat 64 x).toNat = x := by rw [BitVec.toNat_ofNat, Nat.mod_eq_of_lt hlt]
    refine h (BitVec.ofNat 64 x) ?_
    simp only [RRangeItem.Covers, BitVec.le_def, BitVec.lt_def, hx']
    exact hx
  · intro h a ha
    simp only [RRangeItem.Covers, BitVec.le_def, BitVec.lt_def] at ha
    exact h a.toNat ha

/-- Of two items that are not empty and have no address in common, one ends before the other begins. -/
theorem disjoint_ends {r s : RRangeItem} (hr : r.fr < r.to_) (hs : s.fr < s.to_)
    (h : ∀ a, ¬(r.Covers a ∧ s.Covers a)) : r.to_ ≤ s.fr ∨ s.to_ ≤ r.fr := by
  have hfr := h r.fr
  have hfr' := h s.fr
  simp only [RRangeItem.Covers, BitVec.le_def, BitVec.lt_def] at hr hs hfr hfr' ⊢
  omega

theorem disjoint_of_ends (h : rgs.ranges.Pairwise (fun r s => r.to_ ≤ s.fr ∨ s.to_ ≤ r.fr)) :
    rgs.Disjoint := by
  refine h.imp ?_
  intro r s hrs a ha
  simp only [RRangeItem.Covers, BitVec.le_def, BitVec.lt_def] at hrs ha
  omega

theorem minmaxSwap_fst (a b : Ut64) : (rNumMinmaxSwap a b).1.toNat = min a.toNat b.toNat := by
  unfold rNumMinmaxSwap
  split_ifs with h
  · exact (Nat.min_eq_right (BitVec.lt_def.mp h).le).symm
  · exact (Nat.min_eq_left (not_lt.mp (fun hlt => h (BitVec.lt_def.mpr hlt)))).symm

theorem minmaxSwap_snd (a b : Ut64) : (rNumMinmaxSwap a b).2.toNat = max a.toNat b.toNat := by
  unfold rNumMinmaxSwap
  split_ifs with h
  · exact (Nat.max_eq_left (BitVec.lt_def.mp h).le).symm
  · exact (Nat.max_eq_right (not_lt.mp (fun hlt => h (BitVec.lt_def.mpr hlt)))).symm

/-- An item that touches the range becomes the hull of both. -/
theorem rangeAddItem_touches {r : RRangeItem} (i : Nat) (st : RangeAdd)
    (ht : Touches r.span (fr.toNat, to_.toNat)) :
    (rangeAddItem fr to_ i r st).1.span = hull r.span (fr.toNat, to_.toNat) ∧
      (rangeAddItem fr to_ i r st).2.add = false := by
  obtain ⟨h1, h2⟩ : r.fr.toNat ≤ to_.toNat ∧ fr.toNat ≤ r.to_.toNat := ht
  simp only [rangeAddItem, RRangeItem.span, hull, BitVec.le_def, ← BitVec.toNat_inj]
  split_ifs
  · exact ⟨Prod.ext (by simp only; omega) (by simp only; omega), rfl⟩
  · exact ⟨Prod.ext (by simp only; omega) (by simp only; omega), rfl⟩
  · exact ⟨Prod.ext (by simp only; omega) (by simp only; omega), rfl⟩
  · exact ⟨Prod.ext (by simp only; omega) (by simp only; omega), rfl⟩
  · exact ⟨Prod.ext (by simp only; omega) (by simp only; omega), rfl⟩
  · omega

theorem rangeAddItem_apart {r : RRangeItem} (hle : fr ≤ to_) (i : Nat) (st : RangeAdd)
    (ht : ¬Touches r.span (fr.toNat, to_.toNat)) : rangeAddItem fr to_ i r st = (r, st) := by
  have hout : ¬(r.fr.toNat ≤ to_.toNat ∧ fr.toNat ≤ r.to_.toNat) := ht
  have hle' := BitVec.le_def.mp hle
  simp only [rangeAddItem, BitVec.le_def, ← BitVec.toNat_inj]
  rw [if_neg (by omega), if_neg (by omega), if_neg (by omega), if_neg (by omega), if_neg (by omega)]

theorem rangeAddLoop_spec (hle : fr ≤ to_) (rs : List RRangeItem) (i : Nat) (st : RangeAdd) :
    (rangeAddLoop fr to_ i rs st).1.map RRangeItem.span =
        (rs.map RRangeItem.span).map
          (fun p => if Touches p (fr.toNat, to_.toNat) then hull p (fr.toNat, to_.toNat) else p) ∧
      (rangeAddLoop fr to_ i rs st).2.add =
        (st.add && !decide (∃ p ∈ rs.map RRangeItem.span, Touches p (fr.toNat, to_.toNat))) := by
  induction rs generalizing i st with
  | nil => simp [rangeAddLoop]
  | cons r rs ih =>
    by_cases ht : Touches r.span (fr.toNat, to_.toNat)
    · obtain ⟨hspan, hadd⟩ := rangeAddItem_touches i st ht
      obtain ⟨hspans, hadds⟩ := ih (i + 1) (rangeAddItem fr to_ i r st).2
      refine ⟨?_, ?_⟩
      · simp only [rangeAddLoop, List.map_cons, hspan, hspans, if_pos ht]
      · simp only [rangeAddLoop, hadds, hadd]
        simp [ht]
    · have hkeep := rangeAddItem_apart hle i st ht
      obtain ⟨hspans, hadds⟩ := ih (i + 1) st
      refine ⟨?_, ?_⟩
      · simp only [rangeAddLoop, List.map_cons, hkeep, hspans, if_neg ht]
      · simp only [rangeAddLoop, hkeep, hadds]
        simp [ht]

/-- With `rw` set, `r_range_add` puts the range between the two numbers into the list of spans. -/
theorem rangeAdd_spans (rgs : RRange) (fr to_ : Ut64) :
    (rRangeAdd rgs fr to_ true).1.spans =
      absorb rgs.spans (min fr.toNat to_.toNat, max fr.toNat to_.toNat) := by
  have hle : (rNumMinmaxSwap fr to_).1 ≤ (rNumMinmaxSwap fr to_).2 := by
    rw [BitVec.le_def, minmaxSwap_fst, minmaxSwap_snd]
    omega
  obtain ⟨hspans, hadd⟩ := rangeAddLoop_spec hle rgs.ranges 0 ⟨none, true⟩
  rw [minmaxSwap_fst, minmaxSwap_snd] at hspans hadd
  rw [← RRange.spans] at hspans hadd
  unfold absorb
  split_ifs with h
  · rw [decide_eq_true h] at hadd
    simp only [rRangeAdd, hadd, Bool.true_and, Bool.not_true, Bool.false_eq_true, and_false, if_false]
    exact hspans
  · rw [decide_eq_false h] at hadd
    simp only [rRangeAdd, hadd, Bool.true_and, Bool.not_false, and_true, if_true]
    have hid : rgs.spans.map (fun p => if Touches p (min fr.toNat to_.toNat, max fr.toNat to_.toNat) then
        hull p (min fr.toNat to_.toNat, max fr.toNat to_.toNat) else p) = rgs.spans := by
      refine (List.map_congr_left ?_).trans (List.map_id _)
      intro p hp
      rw [if_neg (fun ht => h ⟨p, hp, ht⟩)]
      rfl
    rw [RRange.spans, List.map_append, hspans]
    show rgs.spans.map _ ++ [_] = _
    rw [hid, RRangeItem.span, minmaxSwap_fst, minmaxSwap_snd]

theorem spans_lt (rgs : RRange) : ∀ p ∈ rgs.spans, p.2 ≤ 18446744073709551615 := by
  intro p hp
  obtain ⟨r, _, rfl⟩ := List.mem_map.mp hp
  have hlt := r.to_.isLt
  exact Nat.le_of_lt_succ hlt

theorem ncard_covers (rgs : RRange) :
    Set.ncard {a | rgs.Covers a} = Set.ncard {x | Covered rgs.spans x} := by
  rw [← Set.ncard_image_of_injective _ (BitVec.toNat_injective (n := 64))]
  congr 1
  ext x
  constructor
  · intro hx
    obtain ⟨a, ha, rfl⟩ := hx
    exact (covers_iff rgs a).mp ha
  · intro hx
    have hlt := covered_lt (spans_lt rgs) hx
    have hx' : (BitVec.ofNat 64 x).toNat = x := by
      rw [BitVec.toNat_ofNat, Nat.mod_eq_of_lt (hlt.trans (by decide))]
    refine ⟨BitVec.ofNat 64 x, (covers_iff rgs _).mpr ?_, hx'⟩
    rw [hx']
    exact hx

theorem rangeSize_loop {rs : List RRangeItem} (hrs : ∀ r ∈ rs, r.fr ≤ r.to_) (sum : Ut64) :
    (rs.foldl (fun sum r => sum + (r.to_ - r.fr)) sum).toNat =
      (sum.toNat + ((rs.map RRangeItem.span).map (fun p => p.2 - p.1)).sum) % 2 ^ 64 := by
  induction rs generalizing sum with
  | nil => exact (Nat.mod_eq_of_lt sum.isLt).symm
  | cons r rs ih =>
    have hr := hrs r List.mem_cons_self
    rw [List.foldl_cons, ih (fun s hs => hrs s (List.mem_cons_of_mem _ hs)), BitVec.toNat_add,
      BitVec.toNat_sub_of_le hr, Nat.mod_add_mod, Nat.add_assoc]
    rfl

theorem rangeSize_eq (rgs : RRange) (hrs : ∀ r ∈ rgs.ranges, r.fr ≤ r.to_) :
    (rRangeSize rgs).toNat = (rgs.spans.map (fun p => p.2 - p.1)).sum % 2 ^ 64 := by
  have h := rangeSize_loop hrs 0
  rwa [show (0 : Ut64).toNat = 0 from rfl, Nat.zero_add] at h

/-- The sizes of items with no address in common add up to the number of addresses. -/
theorem rangeSize_disjoint (hrs : ∀ r ∈ rgs.ranges, r.fr ≤ r.to_) (hd : rgs.Disjoint) :
    (rRangeSize rgs).toNat = Set.ncard {a | rgs.Covers a} := by
  have ha := (disjoint_iff rgs).mp hd
  have hle := ncard_covered_le (spans_lt rgs)
  rw [ncard_covers, rangeSize_eq rgs hrs, ← ncard_covered (spans_lt rgs) ha]
  exact Nat.mod_eq_of_lt (hle.trans_lt (by decide))

/-- What `r_range_add` is for: the addresses of both, in ordered items, and still apart if they were. -/
structure RRange.Adds (rgs : RRange) (fr to_ : Ut64) (out : RRange) : Prop where
  union : ∀ a, out.Covers a ↔
    rgs.Covers a ∨ (min fr.toNat to_.toNat ≤ a.toNat ∧ a.toNat < max fr.toNat to_.toNat)
  ordered : ∀ r ∈ out.ranges, r.fr ≤ r.to_
  apart : rgs.Disjoint → out.Disjoint
  counted : rgs.Disjoint → (rRangeSize out).toNat = Set.ncard {a | out.Covers a}

/-- The item has a point in common with the range between the numbers when the ends count. -/
def RRangeItem.Meets (fr to_ : Ut64) (r : RRangeItem) : Prop :=
  r.fr.toNat ≤ max fr.toNat to_.toNat ∧ min fr.toNat to_.toNat ≤ r.to_.toNat

instance (fr to_ : Ut64) (r : RRangeItem) : Decidable (r.Meets fr to_) :=
  inferInstanceAs (Decidable (_ ∧ _))

theorem rangeAdd_covers (rgs : RRange) (fr to_ a : Ut64) :
    (rRangeAdd rgs fr to_ true).1.Covers a ↔
      rgs.Covers a ∨ (min fr.toNat to_.toNat ≤ a.toNat ∧ a.toNat < max fr.toNat to_.toNat) := by
  rw [covers_iff, covers_iff, rangeAdd_spans]
  exact covered_absorb _ _ _

theorem ordered_iff (rgs : RRange) : (∀ r ∈ rgs.ranges, r.fr ≤ r.to_) ↔ ∀ p ∈ rgs.spans, p.1 ≤ p.2 := by
  simp only [RRange.spans, List.forall_mem_map, RRangeItem.span, BitVec.le_def]

theorem rangeAdd_ordered (hrs : ∀ r ∈ rgs.ranges, r.fr ≤ r.to_) (fr to_ : Ut64) :
    ∀ r ∈ (rRangeAdd rgs fr to_ true).1.ranges, r.fr ≤ r.to_ := by
  rw [ordered_iff, rangeAdd_spans]
  exact absorb_ordered ((ordered_iff rgs).mp hrs) (min_le_max)

/-- Items apart stay so exactly when the new range is empty or at most one of them meets it. -/
theorem rangeAdd_disjoint_iff (fr to_ : Ut64) (hd : rgs.Disjoint) :
    (rRangeAdd rgs fr to_ true).1.Disjoint ↔
      fr = to_ ∨ rgs.ranges.Pairwise (fun r s => ¬(r.Meets fr to_ ∧ s.Meets fr to_)) := by
  have hempty : min fr.toNat to_.toNat = max fr.toNat to_.toNat ↔ fr = to_ := by
    rw [← BitVec.toNat_inj]
    omega
  rw [disjoint_iff, rangeAdd_spans, apart_absorb_iff min_le_max ((disjoint_iff rgs).mp hd), hempty,
    RRange.spans, List.pairwise_map]
  rfl

/-- `r_range_add` always covers the right addresses with ordered items; it keeps the items apart exactly
when the range is empty or at most one item meets it. -/
theorem rangeAdd_iff (rgs : RRange) (hrs : ∀ r ∈ rgs.ranges, r.fr ≤ r.to_) (fr to_ : Ut64) :
    rgs.Adds fr to_ (rRangeAdd rgs fr to_ true).1 ↔
      (rgs.Disjoint →
        fr = to_ ∨ rgs.ranges.Pairwise (fun r s => ¬(r.Meets fr to_ ∧ s.Meets fr to_))) := by
  have hord := rangeAdd_ordered hrs fr to_
  constructor
  · intro h hd
    exact (rangeAdd_disjoint_iff fr to_ hd).mp (h.apart hd)
  · intro h
    have hapart : rgs.Disjoint → (rRangeAdd rgs fr to_ true).1.Disjoint :=
      fun hd => (rangeAdd_disjoint_iff fr to_ hd).mpr (h hd)
    exact ⟨rangeAdd_covers rgs fr to_, hord, hapart, fun hd => rangeSize_disjoint hord (hapart hd)⟩

theorem rangeAdd_iff_between : RRange.Adds ⟨[⟨0, 10⟩, ⟨20, 30⟩], false, true⟩ 15 12
    (rRangeAdd ⟨[⟨0, 10⟩, ⟨20, 30⟩], false, true⟩ 15 12 true).1 :=
  (rangeAdd_iff _ (by decide) 15 12).mpr (fun _ => Or.inr (by decide))

/-- A range over the gap between two items makes both grow over each other. -/
theorem rangeAdd_bridges : (∀ r ∈ [⟨0, 10⟩, (⟨20, 30⟩ : RRangeItem)], r.fr ≤ r.to_) ∧
    RRange.Disjoint ⟨[⟨0, 10⟩, ⟨20, 30⟩], false, true⟩ ∧
    (rRangeAdd ⟨[⟨0, 10⟩, ⟨20, 30⟩], false, true⟩ 5 25 true).1 = ⟨[⟨0, 25⟩, ⟨5, 30⟩], false, true⟩ ∧
    ¬RRange.Adds ⟨[⟨0, 10⟩, ⟨20, 30⟩], false, true⟩ 5 25
      (rRangeAdd ⟨[⟨0, 10⟩, ⟨20, 30⟩], false, true⟩ 5 25 true).1 := by
  have hd : RRange.Disjoint ⟨[⟨0, 10⟩, ⟨20, 30⟩], false, true⟩ := disjoint_of_ends (by decide)
  refine ⟨by decide, hd, by decide, ?_⟩
  intro h
  exact absurd ((rangeAdd_disjoint_iff 5 25 hd).mp (h.apart hd)) (by decide)

end Radare

namespace Radare

open Framework

variable {rgs : RRange} {fr to_ : Ut64}

theorem cmpRanges_le (r s : RRangeItem) : cmpRanges r s ≤ 0 ↔ r.fr.toNat ≤ s.fr.toNat := by
  unfold cmpRanges
  split_ifs with h
  · rw [gt_iff_lt, BitVec.lt_def] at h
    omega
  · rw [gt_iff_lt, BitVec.lt_def] at h
    omega

theorem cmpRanges_preorder : TotalPreorder cmpRanges := by
  refine ⟨fun r s => ?_, fun r s t hrs hst => ?_⟩
  · rw [cmpRanges_le, cmpRanges_le]
    exact Nat.le_total _ _
  · rw [cmpRanges_le] at hrs hst ⊢
    exact hrs.trans hst

/-- `r_range_sort` puts the items in order when something has changed and the list is not marked as
sorted; otherwise it leaves them. -/
theorem rangeSort_spec (rgs : RRange) : ∃ out, rRangeSort rgs = some out ∧
    out.1.ranges.Perm rgs.ranges ∧
    (¬(rgs.changed = true ∧ rgs.sorted = false) → out.1.ranges = rgs.ranges) ∧
    (rgs.changed = true ∧ rgs.sorted = false →
      out.1.ranges.Pairwise (fun r s => r.fr.toNat ≤ s.fr.toNat)) := by
  obtain ⟨ys, hsort, hperm, hkeep, hord⟩ := sortData_spec cmpRanges rgs.ranges rgs.sorted
  cases hch : rgs.changed with
  | false =>
    refine ⟨(rgs, false), by rw [rRangeSort, if_pos hch], List.Perm.refl _, fun _ => rfl, ?_⟩
    intro h
    cases h.1
  | true =>
    refine ⟨(⟨ys, true, decide (rgs.sorted ≠ true)⟩, decide (rgs.sorted ≠ true)), ?_, hperm, ?_, ?_⟩
    · rw [rRangeSort, if_neg (by rw [hch]; decide), hsort]
      rfl
    · intro h
      apply hkeep
      by_contra hs
      exact h ⟨rfl, by simpa using hs⟩
    · intro h
      refine (hord h.2 cmpRanges_preorder).imp ?_
      intro r s hrs
      exact (cmpRanges_le r s).mp hrs

/-- What the sweep of `r_range_inverse` covers in the end. -/
theorem rangeInverseLoop_covers (rs : List RRangeItem) (fr to_ : Ut64) (newrgs : RRange) (a : Ut64) :
    RRange.Covers (if (rangeInverseLoop to_ rs fr newrgs).2 < to_ then
        (rRangeAdd (rangeInverseLoop to_ rs fr newrgs).1 (rangeInverseLoop to_ rs fr newrgs).2 to_ true).1
      else (rangeInverseLoop to_ rs fr newrgs).1) a ↔
      newrgs.Covers a ∨ Covered (gapsFrom to_.toNat (rs.map RRangeItem.span) fr.toNat) a.toNat := by
  induction rs generalizing fr newrgs with
  | nil =>
    simp only [rangeInverseLoop, List.map_nil, gapsFrom, BitVec.lt_def]
    split_ifs with h
    · rw [rangeAdd_covers, covered_cons, min_eq_left h.le, max_eq_right h.le,
        or_iff_left (not_covered_nil a.toNat)]
    · exact (or_iff_left (not_covered_nil a.toNat)).symm
  | cons r rs ih =>
    by_cases htake : fr < r.fr ∧ r.fr < to_
    · have htake' : fr.toNat < r.span.1 ∧ r.span.1 < to_.toNat :=
        ⟨BitVec.lt_def.mp htake.1, BitVec.lt_def.mp htake.2⟩
      have hle : fr.toNat ≤ r.fr.toNat := htake'.1.le
      simp only [rangeInverseLoop, if_pos htake]
      rw [ih, rangeAdd_covers, List.map_cons, gapsFrom_take htake', covered_cons, or_assoc,
        min_eq_left hle, max_eq_right hle]
      rfl
    · have htake' : ¬(fr.toNat < r.span.1 ∧ r.span.1 < to_.toNat) :=
        fun h => htake ⟨BitVec.lt_def.mpr h.1, BitVec.lt_def.mpr h.2⟩
      simp only [rangeInverseLoop, if_neg htake]
      rw [ih, List.map_cons, gapsFrom_skip htake']

theorem forall_addr_iff {P : Nat → Prop} (h : ∀ x, 2 ^ 64 ≤ x → P x) :
    (∀ x, P x) ↔ ∀ a : Ut64, P a.toNat := by
  constructor
  · intro hp a
    exact hp a.toNat
  · intro hp x
    rcases lt_or_ge x (2 ^ 64) with hlt | hge
    · have hx := hp (BitVec.ofNat 64 x)
      rwa [BitVec.toNat_ofNat, Nat.mod_eq_of_lt hlt] at hx
    · exact h x hge

theorem mem_spans {p : Nat × Nat} : p ∈ rgs.spans ↔ ∃ r ∈ rgs.ranges, r.span = p := List.mem_map

theorem spans_nonempty (hne : ∀ r ∈ rgs.ranges, r.fr < r.to_) : ∀ p ∈ rgs.spans, p.1 < p.2 := by
  intro p hp
  obtain ⟨r, hr, rfl⟩ := mem_spans.mp hp
  exact BitVec.lt_def.mp (hne r hr)

/-- The free addresses are exactly the gaps that the sweep over the sorted items reports. -/
theorem rangeInverse_sweeps {rgs' : RRange} (hne : ∀ r ∈ rgs'.ranges, r.fr < r.to_) (fr to_ : Ut64) :
    (∀ a, Covered (gapsFrom to_.toNat rgs'.spans fr.toNat) a.toNat ↔
        (fr ≤ a ∧ a < to_) ∧ ¬rgs'.Covers a) ↔ SweepsAll to_.toNat rgs'.spans fr.toNat := by
  have hlast : ∀ x, 2 ^ 64 ≤ x → (Covered (gapsFrom to_.toNat rgs'.spans fr.toNat) x ↔
      (fr.toNat ≤ x ∧ x < to_.toNat) ∧ ¬Covered rgs'.spans x) := by
    intro x hx
    have hto := to_.isLt
    constructor
    · intro h
      have hb := gapsFrom_bounds (spans_nonempty hne) h
      omega
    · intro h
      omega
  rw [SweepsAll, forall_addr_iff hlast]
  simp only [covers_iff, BitVec.le_def, BitVec.lt_def]

/-- What `r_range_inverse` needs of the ranges: no item holds the first address, none that begins behind
it ends where another begins before the end, and those that begin inside are in order, or will be. -/
structure RRange.Sweepable (rgs : RRange) (fr to_ : Ut64) : Prop where
  start : ∀ r ∈ rgs.ranges, ¬r.Covers fr
  apart : ∀ r ∈ rgs.ranges, ∀ s ∈ rgs.ranges, fr < r.fr → s.fr < to_ → r.to_ ≠ s.fr
  order : (rgs.changed = true ∧ rgs.sorted = false) ∨
    (rgs.ranges.filter (fun r => decide (fr < r.fr ∧ r.fr < to_))).Pairwise (fun r s => r.fr ≤ s.fr)

theorem filter_spans (rs : List RRangeItem) (fr to_ : Ut64) :
    (rs.map RRangeItem.span).filter (beginsIn fr.toNat to_.toNat) =
      (rs.filter (fun r => decide (fr < r.fr ∧ r.fr < to_))).map RRangeItem.span := List.filter_map

theorem perm_disjoint {rgs' : RRange} (hd : rgs.Disjoint) (hperm : rgs'.ranges.Perm rgs.ranges) :
    rgs'.Disjoint := by
  refine (hperm.pairwise_iff ?_).mpr hd
  intro r s hrs a ha
  exact hrs a ha.symm

theorem perm_covers {rgs' : RRange} (hperm : rgs'.ranges.Perm rgs.ranges) (a : Ut64) :
    rgs'.Covers a ↔ rgs.Covers a := by
  simp only [RRange.Covers, hperm.mem_iff]

/-- The sorted items can be swept exactly when the ranges meet the condition. -/
theorem sweepable_iff {rgs' : RRange} (hne : ∀ r ∈ rgs.ranges, r.fr < r.to_) (hd : rgs.Disjoint)
    (hperm : rgs'.ranges.Perm rgs.ranges)
    (hkeep : ¬(rgs.changed = true ∧ rgs.sorted = false) → rgs'.ranges = rgs.ranges)
    (hord : rgs.changed = true ∧ rgs.sorted = false →
      rgs'.ranges.Pairwise (fun r s => r.fr.toNat ≤ s.fr.toNat)) (fr to_ : Ut64) :
    Sweepable to_.toNat rgs'.spans fr.toNat ↔ rgs.Sweepable fr to_ := by
  have hne' : ∀ r ∈ rgs'.ranges, r.fr < r.to_ := fun r hr => hne r (hperm.mem_iff.mp hr)
  have ha := (disjoint_iff rgs').mp (perm_disjoint hd hperm)
  have hstart : (∀ p ∈ rgs'.spans, ¬(p.1 ≤ fr.toNat ∧ fr.toNat < p.2)) ↔
      ∀ r ∈ rgs.ranges, ¬r.Covers fr := by
    simp only [RRange.spans, List.forall_mem_map, hperm.mem_iff, RRangeItem.Covers, BitVec.le_def,
      BitVec.lt_def, RRangeItem.span]
  have hapart : (∀ p ∈ rgs'.spans, ∀ q ∈ rgs'.spans, fr.toNat < p.1 → q.1 < to_.toNat → p.2 ≠ q.1) ↔
      ∀ r ∈ rgs.ranges, ∀ s ∈ rgs.ranges, fr < r.fr → s.fr < to_ → r.to_ ≠ s.fr := by
    simp only [RRange.spans, List.forall_mem_map, hperm.mem_iff, BitVec.lt_def, RRangeItem.span, ne_eq,
      BitVec.toNat_inj]
  have horder : (rgs'.spans.filter (beginsIn fr.toNat to_.toNat)).Pairwise (fun p q => p.1 ≤ q.1) ↔
      (rgs.changed = true ∧ rgs.sorted = false) ∨
        (rgs.ranges.filter (fun r => decide (fr < r.fr ∧ r.fr < to_))).Pairwise (fun r s => r.fr ≤ s.fr) := by
    rw [RRange.spans, filter_spans, List.pairwise_map]
    by_cases hrun : rgs.changed = true ∧ rgs.sorted = false
    · exact ⟨fun _ => Or.inl hrun, fun _ => (hord hrun).sublist List.filter_sublist⟩
    · rw [hkeep hrun]
      simp only [hrun, false_or, BitVec.le_def]
      rfl
  constructor
  · intro h
    obtain ⟨hmeet, hasc⟩ := (sweepable_gaps_iff (spans_nonempty hne') ha).mp h.gaps
    exact ⟨hstart.mp h.start, hapart.mp hmeet, horder.mp hasc⟩
  · intro h
    exact ⟨hstart.mpr h.start,
      (sweepable_gaps_iff (spans_nonempty hne') ha).mpr ⟨hapart.mpr h.apart, horder.mpr h.order⟩⟩

/-- `r_range_inverse` covers exactly the free addresses when no item holds the first one, no two items
meet inside and the items are in order or will be sorted. -/
theorem rangeInverse_iff (rgs : RRange) (hne : ∀ r ∈ rgs.ranges, r.fr < r.to_) (hd : rgs.Disjoint)
    (fr to_ : Ut64) (hlt : fr < to_) :
    ∃ rgs' newrgs, rRangeInverse rgs fr to_ = some (rgs', newrgs) ∧
      ((∀ a, newrgs.Covers a ↔ (fr ≤ a ∧ a < to_) ∧ ¬rgs.Covers a) ↔ rgs.Sweepable fr to_) := by
  obtain ⟨out, hsort, hperm, hkeep, hord⟩ := rangeSort_spec rgs
  have hne' : ∀ r ∈ out.1.ranges, r.fr < r.to_ := fun r hr => hne r (hperm.mem_iff.mp hr)
  have ha := (disjoint_iff out.1).mp (perm_disjoint hd hperm)
  refine ⟨out.1, _, by rw [rRangeInverse, hsort]; rfl, ?_⟩
  have hcovers := rangeInverseLoop_covers out.1.ranges fr to_ rRangeNew
  have hnew : ∀ a, ¬rRangeNew.Covers a := by
    intro a h
    obtain ⟨r, hr, _⟩ := h
    cases hr
  simp only [hcovers, hnew, false_or]
  rw [← RRange.spans, ← sweepable_iff hne hd hperm hkeep hord, ← sweepsAll_iff
    (BitVec.lt_def.mp hlt) (spans_nonempty hne') ha, ← rangeInverse_sweeps hne']
  simp only [perm_covers hperm]

theorem rangeInverse_iff_unsorted : ∃ rgs' newrgs,
    rRangeInverse ⟨[⟨20, 30⟩, ⟨5, 10⟩], false, true⟩ 0 25 = some (rgs', newrgs) ∧
      ∀ a, newrgs.Covers a ↔ (0 ≤ a ∧ a < 25) ∧ ¬RRange.Covers ⟨[⟨20, 30⟩, ⟨5, 10⟩], false, true⟩ a := by
  obtain ⟨rgs', newrgs, hrun, hiff⟩ := rangeInverse_iff ⟨[⟨20, 30⟩, ⟨5, 10⟩], false, true⟩ (by decide)
    (disjoint_of_ends (by decide)) 0 25 (by decide)
  exact ⟨rgs', newrgs, hrun, hiff.mpr ⟨by decide, by decide, Or.inl ⟨rfl, rfl⟩⟩⟩

/-- An item that holds the first address does not move the bound: all of it counts as free. -/
theorem rangeInverse_covers_start : (∀ r ∈ [(⟨0, 10⟩ : RRangeItem)], r.fr < r.to_) ∧
    RRange.Disjoint ⟨[⟨0, 10⟩], false, true⟩ ∧
    rRangeInverse ⟨[⟨0, 10⟩], false, true⟩ 5 20 =
      some (⟨[⟨0, 10⟩], true, true⟩, ⟨[⟨5, 20⟩], false, true⟩) ∧
    ¬∀ a, RRange.Covers ⟨[⟨5, 20⟩], false, true⟩ a ↔
      (5 ≤ a ∧ a < 20) ∧ ¬RRange.Covers ⟨[⟨0, 10⟩], false, true⟩ a := by
  refine ⟨by decide, List.pairwise_singleton _ _, by decide, ?_⟩
  intro h
  have h7 := (h 7).mp ⟨⟨5, 20⟩, List.mem_singleton_self _, by decide⟩
  exact h7.2 ⟨⟨0, 10⟩, List.mem_singleton_self _, by decide⟩

end Radare
