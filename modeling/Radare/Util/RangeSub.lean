import Radare.Util.Range

namespace Radare

open Framework

variable {rgs : RRange} {fr to_ : Ut64} {r : RRangeItem}

/-- The item begins and ends inside the range. -/
def RRangeItem.Inside (fr to_ : Ut64) (r : RRangeItem) : Prop := fr < r.fr ∧ r.to_ < to_

/-- The range begins and ends inside the item. -/
def RRangeItem.Around (fr to_ : Ut64) (r : RRangeItem) : Prop := r.fr < fr ∧ to_ < r.to_

instance (fr to_ : Ut64) (r : RRangeItem) : Decidable (r.Inside fr to_) := inferInstanceAs (Decidable (_ ∧ _))

instance (fr to_ : Ut64) (r : RRangeItem) : Decidable (r.Around fr to_) := inferInstanceAs (Decidable (_ ∧ _))

/-- What the passes of `r_range_sub` leave of an item that is not around the range. -/
def rangeCut (fr to_ : Ut64) (r : RRangeItem) : Option RRangeItem :=
  if r.Inside fr to_ then none else some (rangeTrim fr to_ r)

theorem rangeTrim_nonempty (fr to_ : Ut64) (hr : r.fr < r.to_) :
    (rangeTrim fr to_ r).fr < (rangeTrim fr to_ r).to_ := by
  unfold rangeTrim
  split_ifs with h1 h2
  · exact h1.1
  · exact h2.2.2.2
  · exact hr

/-- An item that no test of `r_range_sub` applies to. -/
theorem rangeTrim_outside (h : r.to_ ≤ fr ∨ to_ ≤ r.fr) : rangeTrim fr to_ r = r := by
  unfold rangeTrim
  simp only [BitVec.lt_def, BitVec.le_def] at h ⊢
  rw [if_neg (by omega), if_neg (by omega)]

/-- What is trimmed ends where the range begins or begins where it ends. -/
theorem rangeTrim_cases (fr to_ : Ut64) (r : RRangeItem) :
    rangeTrim fr to_ r = r ∨ (rangeTrim fr to_ r).to_ ≤ fr ∨ to_ ≤ (rangeTrim fr to_ r).fr := by
  unfold rangeTrim
  split_ifs
  · exact Or.inr (Or.inl (BitVec.le_refl _))
  · exact Or.inr (Or.inr (BitVec.le_refl _))
  · exact Or.inl rfl

theorem rangeTrim_idem (fr to_ : Ut64) (r : RRangeItem) :
    rangeTrim fr to_ (rangeTrim fr to_ r) = rangeTrim fr to_ r := by
  rcases rangeTrim_cases fr to_ r with h | h
  · rw [h, h]
  · exact rangeTrim_outside h

theorem rangeTrim_inside_iff (fr to_ : Ut64) (r : RRangeItem) :
    (rangeTrim fr to_ r).Inside fr to_ ↔ r.Inside fr to_ := by
  unfold rangeTrim RRangeItem.Inside
  simp only [BitVec.lt_def]
  split_ifs
  · simp only
    omega
  · simp only
    omega
  · exact Iff.rfl

theorem rangeTrim_around (h : ¬r.Around fr to_) : ¬(rangeTrim fr to_ r).Around fr to_ := by
  unfold rangeTrim
  simp only [RRangeItem.Around, BitVec.lt_def] at h ⊢
  split_ifs
  · simp only
    omega
  · simp only
    omega
  · exact h

theorem rangeTrim_around_self (h : r.Around fr to_) : rangeTrim fr to_ r = r := by
  unfold rangeTrim
  simp only [RRangeItem.Around, BitVec.lt_def] at h ⊢
  rw [if_neg (by omega), if_neg (by omega)]

theorem delete_test_iff (hr : r.fr < r.to_) :
    (fr < r.fr ∧ r.fr < to_ ∧ fr < r.to_ ∧ r.to_ < to_) ↔ r.Inside fr to_ := by
  unfold RRangeItem.Inside
  simp only [BitVec.lt_def] at hr ⊢
  omega

theorem split_test_iff (hlt : fr < to_) :
    (r.fr < fr ∧ r.fr < to_ ∧ fr < r.to_ ∧ to_ < r.to_) ↔ r.Around fr to_ := by
  unfold RRangeItem.Around
  simp only [BitVec.lt_def] at hlt ⊢
  omega

/-- A pass over items of which none is around the range: it comes to the end with all of them trimmed, or
it deletes the first that is inside. -/
theorem rangeSubScan_spec (rgs : RRange) (hlt : fr < to_) {rest : List RRangeItem} (hne : ∀ r ∈ rest, r.fr < r.to_)
    (hna : ∀ r ∈ rest, ¬r.Around fr to_) (seen : List RRangeItem) :
    ((∀ r ∈ rest, ¬r.Inside fr to_) ∧
      rangeSubScan rgs fr to_ seen rest = ({ rgs with ranges := seen ++ rest.map (rangeTrim fr to_) }, false)) ∨
    ∃ pre r post, rest = pre ++ r :: post ∧ (∀ s ∈ pre, ¬s.Inside fr to_) ∧ r.Inside fr to_ ∧
      rangeSubScan rgs fr to_ seen rest =
        ({ rgs with ranges := seen ++ pre.map (rangeTrim fr to_) ++ post, changed := true }, true) := by
  induction rest generalizing seen with
  | nil => exact Or.inl ⟨by simp, by rw [rangeSubScan, List.map_nil, List.append_nil]⟩
  | cons r rest ih =>
    have htrim := rangeTrim_nonempty fr to_ (hne r List.mem_cons_self)
    have haround := rangeTrim_around (hna r List.mem_cons_self)
    by_cases hin : r.Inside fr to_
    · refine Or.inr ⟨[], r, rest, rfl, by simp, hin, ?_⟩
      simp only [rangeSubScan, delete_test_iff htrim, rangeTrim_inside_iff, if_pos hin, List.map_nil,
        List.append_nil]
    · have hstep : rangeSubScan rgs fr to_ seen (r :: rest) =
          rangeSubScan rgs fr to_ (seen ++ [rangeTrim fr to_ r]) rest := by
        simp only [rangeSubScan, delete_test_iff htrim, rangeTrim_inside_iff, if_neg hin,
          split_test_iff hlt, if_neg haround]
      rw [hstep]
      rcases ih (fun s hs => hne s (List.mem_cons_of_mem r hs)) (fun s hs => hna s (List.mem_cons_of_mem r hs))
        (seen ++ [rangeTrim fr to_ r]) with ⟨hnone, hscan⟩ | ⟨pre, s, post, rfl, hpre, hs, hscan⟩
      · refine Or.inl ⟨List.forall_mem_cons.mpr ⟨hin, hnone⟩, ?_⟩
        rw [hscan, List.append_assoc]
        rfl
      · refine Or.inr ⟨r :: pre, s, post, rfl, List.forall_mem_cons.mpr ⟨hin, hpre⟩, hs, ?_⟩
        rw [hscan, List.map_cons, List.append_assoc seen]
        rfl

theorem rangeCut_trim (fr to_ : Ut64) (r : RRangeItem) :
    rangeCut fr to_ (rangeTrim fr to_ r) = rangeCut fr to_ r := by
  simp only [rangeCut, rangeTrim_inside_iff, rangeTrim_idem]

theorem filterMap_cut_trim (fr to_ : Ut64) (rs : List RRangeItem) :
    (rs.map (rangeTrim fr to_)).filterMap (rangeCut fr to_) = rs.filterMap (rangeCut fr to_) := by
  rw [List.filterMap_map]
  congr 1
  funext r
  exact rangeCut_trim fr to_ r

theorem filterMap_cut_none {rs : List RRangeItem} (h : ∀ r ∈ rs, ¬r.Inside fr to_) :
    rs.filterMap (rangeCut fr to_) = rs.map (rangeTrim fr to_) := by
  induction rs with
  | nil => rfl
  | cons r rs ih =>
    rw [List.filterMap_cons, rangeCut, if_neg (h r List.mem_cons_self), List.map_cons,
      ih (fun s hs => h s (List.mem_cons_of_mem r hs))]

/-- Where no item is around the range, the loop ends and has cut every item. -/
theorem rangeSubLoop_spec (hlt : fr < to_) {fuel : Nat} (hne : ∀ r ∈ rgs.ranges, r.fr < r.to_)
    (hna : ∀ r ∈ rgs.ranges, ¬r.Around fr to_) (hfuel : rgs.ranges.length < fuel) :
    ∃ out, rangeSubLoop fr to_ fuel rgs = some out ∧
      out.ranges = rgs.ranges.filterMap (rangeCut fr to_) := by
  induction fuel generalizing rgs with
  | zero => omega
  | succ fuel ih =>
    rcases rangeSubScan_spec rgs hlt hne hna [] with
      ⟨hnone, hscan⟩ | ⟨pre, r, post, hsplit, hpre, hr, hscan⟩
    · refine ⟨_, by simp only [rangeSubLoop, hscan]; rfl, ?_⟩
      exact (filterMap_cut_none hnone).symm
    · have hmem : ∀ s ∈ pre.map (rangeTrim fr to_) ++ post, s.fr < s.to_ ∧ ¬s.Around fr to_ := by
        intro s hs
        rcases List.mem_append.mp hs with hs | hs
        · obtain ⟨t, ht, rfl⟩ := List.mem_map.mp hs
          have ht' : t ∈ rgs.ranges := hsplit ▸ List.mem_append_left _ ht
          exact ⟨rangeTrim_nonempty fr to_ (hne t ht'), rangeTrim_around (hna t ht')⟩
        · have hs' : s ∈ rgs.ranges := hsplit ▸ List.mem_append_right _ (List.mem_cons_of_mem r hs)
          exact ⟨hne s hs', hna s hs'⟩
      have hlen : (pre.map (rangeTrim fr to_) ++ post).length < fuel := by
        rw [hsplit, List.length_append, List.length_cons] at hfuel
        rw [List.length_append, List.length_map]
        omega
      obtain ⟨out, hout, hranges⟩ :=
        @ih { rgs with ranges := pre.map (rangeTrim fr to_) ++ post, changed := true }
          (fun s hs => (hmem s hs).1) (fun s hs => (hmem s hs).2) hlen
      refine ⟨out, ?_, ?_⟩
      · simp only [rangeSubLoop, hscan, List.nil_append, if_true]
        exact hout
      · rw [hranges, hsplit, List.filterMap_append, filterMap_cut_trim, List.filterMap_append,
          List.filterMap_cons]
        simp only [rangeCut, if_pos hr]

/-- An item with no end in common with the range, and not around it, loses just the range. -/
theorem rangeCut_covers (hr : r.fr < r.to_) (hfr : r.fr ≠ fr) (hto : r.to_ ≠ to_) (hna : ¬r.Around fr to_)
    (a : Ut64) : (∃ s ∈ rangeCut fr to_ r, s.Covers a) ↔ r.Covers a ∧ ¬(fr ≤ a ∧ a < to_) := by
  rw [← BitVec.toNat_inj.ne] at hfr hto
  unfold rangeCut
  split_ifs with hin
  · simp only [Option.mem_def, reduceCtorEq, false_and, exists_false, false_iff]
    simp only [RRangeItem.Inside, RRangeItem.Covers, BitVec.lt_def, BitVec.le_def] at hin ⊢
    omega
  · simp only [Option.mem_def, Option.some.injEq, exists_eq_left']
    simp only [RRangeItem.Inside, RRangeItem.Around, BitVec.lt_def] at hr hin hna
    unfold rangeTrim
    simp only [RRangeItem.Covers, BitVec.lt_def, BitVec.le_def]
    split_ifs
    · simp only
      omega
    · simp only
      omega
    · omega

/-- The tests are strict: an item that begins or ends with the range stays whole. -/
theorem rangeCut_edge (h : r.fr = fr ∨ r.to_ = to_) : rangeCut fr to_ r = some r := by
  rw [← BitVec.toNat_inj, ← BitVec.toNat_inj] at h
  unfold rangeCut rangeTrim RRangeItem.Inside
  simp only [BitVec.lt_def]
  rw [if_neg (by omega), if_neg (by omega), if_neg (by omega)]

/-- An item with an end in common with the range has an address in it. -/
theorem edge_covers (hlt : fr < to_) (hr : r.fr < r.to_) (h : r.fr = fr ∨ r.to_ = to_) :
    ∃ a, r.Covers a ∧ fr ≤ a ∧ a < to_ := by
  simp only [RRangeItem.Covers, BitVec.lt_def, BitVec.le_def] at hlt hr ⊢
  rcases h with rfl | rfl
  · exact ⟨r.fr, ⟨Nat.le_refl _, hr⟩, Nat.le_refl _, hlt⟩
  · have hlast : (BitVec.ofNat 64 (r.to_.toNat - 1)).toNat = r.to_.toNat - 1 := by
      rw [BitVec.toNat_ofNat]
      omega
    refine ⟨BitVec.ofNat 64 (r.to_.toNat - 1), ?_, ?_⟩
    · omega
    · omega

theorem cut_covers_iff (hlt : fr < to_) {rs : List RRangeItem} (hne : ∀ r ∈ rs, r.fr < r.to_)
    (hna : ∀ r ∈ rs, ¬r.Around fr to_) :
    (∀ a, (∃ s ∈ rs.filterMap (rangeCut fr to_), s.Covers a) ↔
        (∃ r ∈ rs, r.Covers a) ∧ ¬(fr ≤ a ∧ a < to_)) ↔
      ∀ r ∈ rs, r.fr ≠ fr ∧ r.to_ ≠ to_ := by
  constructor
  · intro h r hr
    by_contra hedge
    have hedge' : r.fr = fr ∨ r.to_ = to_ := by
      by_contra hnone
      exact hedge ⟨fun he => hnone (Or.inl he), fun he => hnone (Or.inr he)⟩
    obtain ⟨a, ha, hin⟩ := edge_covers hlt (hne r hr) hedge'
    have hmem : r ∈ rs.filterMap (rangeCut fr to_) := List.mem_filterMap.mpr ⟨r, hr, rangeCut_edge hedge'⟩
    exact ((h a).mp ⟨r, hmem, ha⟩).2 hin
  · intro h a
    constructor
    · intro hs
      obtain ⟨s, hs, ha⟩ := hs
      obtain ⟨r, hr, hcut⟩ := List.mem_filterMap.mp hs
      obtain ⟨hra, hout⟩ :=
        (rangeCut_covers (hne r hr) (h r hr).1 (h r hr).2 (hna r hr) a).mp ⟨s, hcut, ha⟩
      exact ⟨⟨r, hr, hra⟩, hout⟩
    · intro hboth
      obtain ⟨⟨r, hr, ha⟩, hout⟩ := hboth
      obtain ⟨s, hcut, hs⟩ :=
        (rangeCut_covers (hne r hr) (h r hr).1 (h r hr).2 (hna r hr) a).mpr ⟨ha, hout⟩
      exact ⟨s, List.mem_filterMap.mpr ⟨r, hr, hcut⟩, hs⟩

theorem span_injective : Function.Injective RRangeItem.span := by
  intro r s h
  obtain ⟨hfr, hto⟩ := Prod.mk.inj h
  cases r
  cases s
  exact congr_arg₂ RRangeItem.mk (BitVec.toNat_inj.mp hfr) (BitVec.toNat_inj.mp hto)

/-- Items a pass goes by. -/
theorem rangeSubScan_outside (hlt : fr < to_) {pre : List RRangeItem}
    (h : ∀ s ∈ pre, s.to_ < fr ∨ to_ < s.fr) (seen rest : List RRangeItem) :
    rangeSubScan rgs fr to_ seen (pre ++ rest) = rangeSubScan rgs fr to_ (seen ++ pre) rest := by
  induction pre generalizing seen with
  | nil => rw [List.nil_append, List.append_nil]
  | cons s pre ih =>
    have hs := h s List.mem_cons_self
    have hkeep := rangeTrim_outside (hs.imp BitVec.le_of_lt BitVec.le_of_lt)
    have hlt' := BitVec.lt_def.mp hlt
    simp only [BitVec.lt_def] at hs
    rw [List.cons_append, rangeSubScan]
    simp only [hkeep, BitVec.lt_def]
    rw [if_neg (by omega), if_neg (by omega), ih (fun t ht => h t (List.mem_cons_of_mem s ht)),
      List.append_assoc]
    rfl

/-- The split hands the new end to `r_range_add`, which gives the item the range back. -/
theorem rangeSub_split (rgs : RRange) (hlt : fr < to_) {pre post : List RRangeItem} (hr : r.fr < fr)
    (hout : ∀ s ∈ pre ++ post, s.to_ < fr ∨ to_ < s.fr) :
    (rRangeAdd { rgs with ranges := pre ++ { r with to_ := fr } :: post } to_ fr true).1.ranges =
      pre ++ ⟨r.fr, to_⟩ :: post := by
  have hlt' := BitVec.lt_def.mp hlt
  have hr' := BitVec.lt_def.mp hr
  have hmin : min to_.toNat fr.toNat = fr.toNat := by omega
  have hmax : max to_.toNat fr.toNat = to_.toNat := by omega
  have hmid : Touches (r.fr.toNat, fr.toNat) (fr.toNat, to_.toNat) := ⟨by simp only; omega, by simp only; omega⟩
  have hskip : ∀ s ∈ pre ++ post, (if Touches s.span (fr.toNat, to_.toNat) then
      hull s.span (fr.toNat, to_.toNat) else s.span) = s.span := by
    intro s hs
    refine if_neg (fun ht => ?_)
    have hends : s.fr.toNat ≤ to_.toNat ∧ fr.toNat ≤ s.to_.toNat := ht
    have hs' := hout s hs
    simp only [BitVec.lt_def] at hs'
    omega
  have hgrow : (if Touches (r.fr.toNat, fr.toNat) (fr.toNat, to_.toNat) then
      hull (r.fr.toNat, fr.toNat) (fr.toNat, to_.toNat) else (r.fr.toNat, fr.toNat)) =
        (r.fr.toNat, to_.toNat) := by
    rw [if_pos hmid, hull, Nat.min_eq_left hr'.le, Nat.max_eq_right hlt'.le]
  apply List.map_injective_iff.mpr span_injective
  have hspans := rangeAdd_spans { rgs with ranges := pre ++ { r with to_ := fr } :: post } to_ fr
  rw [hmin, hmax, absorb, if_pos ⟨(r.fr.toNat, fr.toNat), by simp [RRange.spans, RRangeItem.span], hmid⟩]
    at hspans
  rw [← RRange.spans, hspans]
  simp only [RRange.spans, List.map_append, List.map_cons, List.map_map]
  congr 1
  · exact List.map_congr_left (fun s hs => hskip s (List.mem_append_left _ hs))
  · exact congr_arg₂ List.cons hgrow
      (List.map_congr_left (fun s hs => hskip s (List.mem_append_right _ hs)))

/-- The other items are not near a range that an item is around. -/
theorem around_outside (hne : ∀ r ∈ rgs.ranges, r.fr < r.to_) (hd : rgs.Disjoint)
    {pre post : List RRangeItem} (hsplit : rgs.ranges = pre ++ r :: post) (hr : r.Around fr to_) :
    ∀ s ∈ pre ++ post, s.to_ < fr ∨ to_ < s.fr := by
  rw [RRange.Disjoint, hsplit, List.pairwise_append] at hd
  obtain ⟨-, htail, hcross⟩ := hd
  have hpost := (List.pairwise_cons.mp htail).1
  intro s hs
  have hs' : s ∈ rgs.ranges := by
    rw [hsplit, List.mem_append, List.mem_cons]
    exact (List.mem_append.mp hs).imp id Or.inr
  have hapart : ∀ a, ¬(r.Covers a ∧ s.Covers a) := by
    rcases List.mem_append.mp hs with hs | hs
    · intro a ha
      exact hcross s hs r List.mem_cons_self a ha.symm
    · exact hpost s hs
  have hr' := hne r (by rw [hsplit]; exact List.mem_append_right _ List.mem_cons_self)
  have hends := disjoint_ends hr' (hne s hs') hapart
  simp only [RRangeItem.Around, BitVec.lt_def, BitVec.le_def] at hr hends ⊢
  omega

/-- With an item around the range there is one split, and the range stays covered. -/
theorem rangeSubLoop_around (hlt : fr < to_) (hne : ∀ r ∈ rgs.ranges, r.fr < r.to_) (hd : rgs.Disjoint)
    {pre post : List RRangeItem} (hsplit : rgs.ranges = pre ++ r :: post) (hr : r.Around fr to_) {fuel : Nat}
    (hfuel : rgs.ranges.length + 1 < fuel) :
    ∃ out, rangeSubLoop fr to_ fuel rgs = some out ∧ out.Covers fr := by
  have hout := around_outside hne hd hsplit hr
  obtain ⟨n, rfl⟩ : ∃ n, fuel = n + 1 := ⟨fuel - 1, by omega⟩
  have hscan : rangeSubScan rgs fr to_ [] rgs.ranges =
      ((rRangeAdd { rgs with ranges := pre ++ { r with to_ := fr } :: post } to_ fr true).1, true) := by
    rw [hsplit, rangeSubScan_outside hlt (fun s hs => hout s (List.mem_append_left _ hs)), List.nil_append,
      rangeSubScan]
    have hnot : ¬r.Inside fr to_ := by
      simp only [RRangeItem.Around, RRangeItem.Inside, BitVec.lt_def] at hr ⊢
      omega
    have hr' := hne r (by rw [hsplit]; exact List.mem_append_right _ List.mem_cons_self)
    simp only [rangeTrim_around_self hr, delete_test_iff hr', split_test_iff hlt, if_neg hnot, if_pos hr]
  have hranges := rangeSub_split rgs hlt hr.1 hout
  generalize (rRangeAdd { rgs with ranges := pre ++ { r with to_ := fr } :: post } to_ fr true).1 = mid
    at hscan hranges
  have hmid : ∀ s ∈ mid.ranges, s.fr < s.to_ ∧ ¬s.Around fr to_ := by
    intro s hs
    rw [hranges, List.mem_append, List.mem_cons, or_left_comm, ← List.mem_append] at hs
    rcases hs with rfl | hs
    · exact ⟨BitVec.lt_trans hr.1 hlt, fun h => BitVec.lt_irrefl _ h.2⟩
    · have hs' : s ∈ rgs.ranges := by
        rw [hsplit, List.mem_append, List.mem_cons]
        exact (List.mem_append.mp hs).imp id Or.inr
      refine ⟨hne s hs', fun h => ?_⟩
      have hs'' := hout s hs
      simp only [RRangeItem.Around, BitVec.lt_def] at h hs''
      have hlt' := BitVec.lt_def.mp hlt
      omega
  have hlen : mid.ranges.length < n := by
    have hsame : mid.ranges.length = rgs.ranges.length := by simp [hranges, hsplit]
    omega
  obtain ⟨out, hloop, hcut⟩ :=
    rangeSubLoop_spec hlt (fun s hs => (hmid s hs).1) (fun s hs => (hmid s hs).2) hlen
  refine ⟨out, ?_, ⟨r.fr, to_⟩, ?_, BitVec.le_of_lt hr.1, hlt⟩
  · rw [rangeSubLoop, hscan]
    exact hloop
  · rw [hcut, hranges]
    exact List.mem_filterMap.mpr ⟨⟨r.fr, to_⟩, by simp, rangeCut_edge (Or.inr rfl)⟩

theorem minmaxSwap_of_lt (hlt : fr < to_) : rNumMinmaxSwap fr to_ = (fr, to_) := by
  rw [BitVec.lt_def] at hlt
  rw [rNumMinmaxSwap, if_neg (by rw [BitVec.lt_def]; omega)]

theorem rangeSubLoop_mono {fuel fuel' : Nat} {out : RRange} (h : rangeSubLoop fr to_ fuel rgs = some out)
    (hle : fuel ≤ fuel') : rangeSubLoop fr to_ fuel' rgs = some out := by
  induction fuel generalizing fuel' rgs with
  | zero => cases h
  | succ fuel ih =>
    obtain ⟨n, rfl⟩ : ∃ n, fuel' = n + 1 := ⟨fuel' - 1, by omega⟩
    rw [rangeSubLoop] at h ⊢
    by_cases hscan : (rangeSubScan rgs fr to_ [] rgs.ranges).2 = true
    · simp only [hscan, if_true] at h ⊢
      exact ih h (by omega)
    · simp only [hscan] at h ⊢
      exact h

/-- `r_range_sub` always ends; it takes exactly the range away when no item begins or ends with the
range and none is around it. -/
theorem rangeSub_iff (rgs : RRange) (hne : ∀ r ∈ rgs.ranges, r.fr < r.to_) (hd : rgs.Disjoint)
    (fr to_ : Ut64) (hlt : fr < to_) :
    ∃ out, (∀ fuel, rgs.ranges.length + 1 < fuel → rRangeSub fuel rgs fr to_ = some out) ∧
      ((∀ a, out.Covers a ↔ rgs.Covers a ∧ ¬(fr ≤ a ∧ a < to_)) ↔
        ∀ r ∈ rgs.ranges, r.fr ≠ fr ∧ r.to_ ≠ to_ ∧ ¬(r.fr < fr ∧ to_ < r.to_)) := by
  have hswap := minmaxSwap_of_lt hlt
  by_cases hna : ∀ r ∈ rgs.ranges, ¬r.Around fr to_
  · obtain ⟨out, hout, hcut⟩ := rangeSubLoop_spec hlt hne hna (Nat.lt_succ_self _)
    refine ⟨out, ?_, ?_⟩
    · intro fuel hfuel
      rw [rRangeSub, hswap]
      exact rangeSubLoop_mono hout (by omega)
    · have hcovers : ∀ a, out.Covers a ↔ ∃ s ∈ rgs.ranges.filterMap (rangeCut fr to_), s.Covers a := by
        intro a
        rw [RRange.Covers, hcut]
      simp only [hcovers]
      refine (cut_covers_iff hlt hne hna).trans (forall₂_congr (fun r hr => ?_))
      rw [← and_assoc]
      exact (and_iff_left (hna r hr)).symm
  · push Not at hna
    obtain ⟨r, hr, haround⟩ := hna
    obtain ⟨pre, post, hsplit⟩ := List.append_of_mem hr
    obtain ⟨out, hout, hcov⟩ := rangeSubLoop_around hlt hne hd hsplit haround (Nat.lt_succ_self _)
    refine ⟨out, ?_, ?_⟩
    · intro fuel hfuel
      rw [rRangeSub, hswap]
      exact rangeSubLoop_mono hout (by omega)
    · constructor
      · intro h
        exact absurd ⟨BitVec.le_refl _, hlt⟩ ((h fr).mp hcov).2
      · intro h
        exact absurd haround (h r hr).2.2

theorem rangeSub_iff_both_sides : ∃ out, (∀ fuel, 4 < fuel →
      rRangeSub fuel ⟨[⟨0, 10⟩, ⟨12, 14⟩, ⟨20, 30⟩], false, true⟩ 5 25 = some out) ∧
    ∀ a, out.Covers a ↔ RRange.Covers ⟨[⟨0, 10⟩, ⟨12, 14⟩, ⟨20, 30⟩], false, true⟩ a ∧ ¬(5 ≤ a ∧ a < 25) := by
  obtain ⟨out, hout, hiff⟩ := rangeSub_iff ⟨[⟨0, 10⟩, ⟨12, 14⟩, ⟨20, 30⟩], false, true⟩ (by decide)
    (disjoint_of_ends (by decide)) 5 25 (by decide)
  exact ⟨out, hout, hiff.mpr (by decide)⟩

/-- The middle of an item is not taken out: what is behind it goes. -/
theorem rangeSub_split_fails : (∀ r ∈ [(⟨0, 10⟩ : RRangeItem)], r.fr < r.to_) ∧
    RRange.Disjoint ⟨[⟨0, 10⟩], false, true⟩ ∧
    rRangeSub 3 ⟨[⟨0, 10⟩], false, true⟩ 3 5 = some ⟨[⟨0, 5⟩], false, true⟩ ∧
    ¬∀ a, RRange.Covers ⟨[⟨0, 5⟩], false, true⟩ a ↔
      RRange.Covers ⟨[⟨0, 10⟩], false, true⟩ a ∧ ¬(3 ≤ a ∧ a < 5) := by
  refine ⟨by decide, List.pairwise_singleton _ _, by decide, ?_⟩
  intro h
  have h7 := (h 7).mpr ⟨⟨⟨0, 10⟩, List.mem_singleton_self _, by decide, by decide⟩, by decide⟩
  obtain ⟨r, hr, hcov⟩ := h7
  rw [List.mem_singleton.mp hr] at hcov
  exact absurd hcov.2 (by decide)

end Radare
