import Radare.Framework.MachineInt
import Radare.Framework.Windows

namespace Radare

open Framework

variable {haystack needle : List Ut8}

/-- `!memcmp (haystack + i, needle, n)`; `none` outside either buffer. -/
def memEqual (haystack : List Ut8) (i : Int) (needle : List Ut8) (n : Int) : Option Bool :=
  if 0 ≤ i ∧ i + n ≤ haystack.length ∧ n ≤ needle.length then
    some (decide (window haystack i.toNat n.toNat = needle.take n.toNat))
  else none

/-- The loop of `r_mem_mem` and of `r_mem_mem_aligned`, for `i` by steps of `align`: the offset of the
first hit, or `NULL`. -/
def memMemLoop (haystack needle : List Ut8) (nlen end_ align : Int) : Nat → Int → Option (Option Int)
  | 0, _ => none
  | fuel + 1, i =>
    if i < end_ then do
      let same ← memEqual haystack i needle nlen
      if same then some (some i) else memMemLoop haystack needle nlen end_ align fuel (wrapInt (i + align))
    else some none

def rMemMem (fuel : Nat) (haystack : List Ut8) (hlen : Int) (needle : List Ut8) (nlen : Int) :
    Option (Option Int) :=
  let end_ := wrapInt (wrapInt (hlen - nlen) + 1)
  if hlen < 1 ∨ nlen < 1 then some none
  else memMemLoop haystack needle nlen end_ 1 fuel 0

def rMemMemAligned (fuel : Nat) (haystack : List Ut8) (hlen : Int) (needle : List Ut8) (nlen align : Int) :
    Option (Option Int) :=
  let end_ := wrapInt (wrapInt (hlen - nlen) + 1)
  let align := if align < 1 then 1 else align
  if hlen < 1 ∨ nlen < 1 then some none
  else
    let end_ := if 1 < align then wrapInt (end_ - end_.tmod align) else end_
    memMemLoop haystack needle nlen end_ align fuel 0

/-- The needle stands at an offset that is aligned. -/
structure HitAt (haystack needle : List Ut8) (align i : Nat) : Prop where
  aligned : align ∣ i
  inside : i + needle.length ≤ haystack.length
  same : window haystack i needle.length = needle

/-- The lowest aligned offset of the needle, and `NULL` only when there is none. -/
structure LowestHit (haystack needle : List Ut8) (align : Nat) (res : Option Int) : Prop where
  found : ∀ r, res = some r → ∃ i : Nat, r = i ∧ HitAt haystack needle align i ∧
    ∀ j < i, ¬HitAt haystack needle align j
  null : res = none → ∀ i, ¬HitAt haystack needle align i

/-- One comparison in the haystack. -/
theorem memEqual_at {i : Nat} (h : i + needle.length ≤ haystack.length) :
    memEqual haystack i needle needle.length = some (decide (window haystack i needle.length = needle)) := by
  rw [memEqual, if_pos ⟨by omega, by omega, Int.le_refl _⟩, Int.toNat_natCast, Int.toNat_natCast,
    List.take_length]

/-- The loop from an aligned offset up to an aligned end finds the first hit between them, or there is
none. -/
theorem memMemLoop_spec {align end_ : Nat} (ha : 0 < align) (hend : align ∣ end_)
    (hin : end_ + needle.length ≤ haystack.length + 1) (hlt : end_ < 2147483648) {fuel i : Nat}
    (hi : align ∣ i) (hle : i ≤ end_) (hfuel : end_ - i < fuel) :
    ∃ res, memMemLoop haystack needle needle.length end_ align fuel i = some res ∧
      ((∃ j : Nat, res = some (j : Int) ∧ i ≤ j ∧ j < end_ ∧ HitAt haystack needle align j ∧
          ∀ k, i ≤ k → k < j → ¬HitAt haystack needle align k) ∨
        (res = none ∧ ∀ k, i ≤ k → k < end_ → ¬HitAt haystack needle align k)) := by
  induction fuel generalizing i with
  | zero => omega
  | succ fuel ih =>
    rcases Nat.eq_or_lt_of_le hle with rfl | hlt'
    · refine ⟨none, ?_, Or.inr ⟨rfl, fun k hik hki => by omega⟩⟩
      rw [memMemLoop, if_neg (Int.lt_irrefl _)]
    · have hroom : i + needle.length ≤ haystack.length := by omega
      have hcmp := memEqual_at hroom
      by_cases hsame : window haystack i needle.length = needle
      · refine ⟨some i, ?_, Or.inl ⟨i, rfl, Nat.le_refl _, hlt', ⟨hi, hroom, hsame⟩, fun k hik hki => by omega⟩⟩
        rw [memMemLoop, if_pos (by omega), hcmp, decide_eq_true hsame]
        rfl
      · have hnext : i + align ≤ end_ := by
          obtain ⟨p, rfl⟩ := hi
          obtain ⟨q, rfl⟩ := hend
          have hpq : p < q := Nat.lt_of_mul_lt_mul_left hlt'
          calc
            align * p + align = align * (p + 1) := (Nat.mul_succ align p).symm
            _ ≤ align * q := Nat.mul_le_mul_left align hpq
        have hmiss : ∀ k, i ≤ k → k < i + align → ¬HitAt haystack needle align k := by
          intro k hik hki hit
          obtain ⟨d, hd⟩ := (Nat.dvd_sub hit.aligned hi)
          have hd0 : d = 0 := by
            by_contra hpos
            have := Nat.le_mul_of_pos_right align (Nat.pos_of_ne_zero hpos)
            omega
          rw [hd0, Nat.mul_zero] at hd
          exact hsame ((show k = i by omega) ▸ hit.same)
        obtain ⟨res, hres, hspec⟩ := ih (Nat.dvd_add hi (Nat.dvd_refl _)) hnext (by omega)
        refine ⟨res, ?_, ?_⟩
        · rw [memMemLoop, if_pos (by omega), hcmp, decide_eq_false hsame]
          show memMemLoop haystack needle needle.length end_ align fuel (wrapInt ((i : Int) + align)) = _
          rw [wrapInt_of_range (by omega) (by omega), ← Int.natCast_add]
          exact hres
        · rcases hspec with ⟨j, hj, hij, hje, hit, hfirst⟩ | ⟨hnone, hfree⟩
          · refine Or.inl ⟨j, hj, by omega, hje, hit, ?_⟩
            intro k hik hkj
            rcases Nat.lt_or_ge k (i + align) with hk | hk
            · exact hmiss k hik hk
            · exact hfirst k hk hkj
          · refine Or.inr ⟨hnone, ?_⟩
            intro k hik hke
            rcases Nat.lt_or_ge k (i + align) with hk | hk
            · exact hmiss k hik hk
            · exact hfree k hk hke

theorem memMemLoop_mono {nlen end_ align : Int} {fuel fuel' : Nat} {i : Int} {res : Option Int}
    (h : memMemLoop haystack needle nlen end_ align fuel i = some res) (hle : fuel ≤ fuel') :
    memMemLoop haystack needle nlen end_ align fuel' i = some res := by
  induction fuel generalizing fuel' i with
  | zero => cases h
  | succ fuel ih =>
    obtain ⟨n, rfl⟩ : ∃ n, fuel' = n + 1 := ⟨fuel' - 1, by omega⟩
    rw [memMemLoop] at h ⊢
    by_cases hlt : i < end_
    · rw [if_pos hlt] at h ⊢
      obtain ⟨same, hcmp, h⟩ := Option.bind_eq_some_iff.mp h
      refine Option.bind_eq_some_iff.mpr ⟨same, hcmp, ?_⟩
      cases same with
      | false => exact ih h (by omega)
      | true => exact h
    · rw [if_neg hlt] at h ⊢
      exact h

/-- The end of the aligned loop, rounded down. -/
def alignedEnd (haystack needle : List Ut8) (align : Nat) : Nat :=
  haystack.length + 1 - needle.length - (haystack.length + 1 - needle.length) % align

/-- At and behind the rounded end there is at most one offset to try. -/
theorem hit_ge_alignedEnd {align i : Nat} (ha : 0 < align) (hit : HitAt haystack needle align i)
    (hge : alignedEnd haystack needle align ≤ i) :
    i = alignedEnd haystack needle align ∧ ¬align ∣ haystack.length + 1 - needle.length := by
  have hin := hit.inside
  have hdvd : align ∣ alignedEnd haystack needle align := Nat.dvd_sub_mod _
  have hmod := Nat.mod_lt (haystack.length + 1 - needle.length) ha
  unfold alignedEnd at hge hdvd ⊢
  have hsub := Nat.dvd_sub hit.aligned hdvd
  have heq : i = haystack.length + 1 - needle.length - (haystack.length + 1 - needle.length) % align := by
    have hzero := Nat.eq_zero_of_dvd_of_lt hsub (by omega)
    omega
  refine ⟨heq, fun h => ?_⟩
  rw [Nat.mod_eq_zero_of_dvd h] at heq
  omega

/-- What the loop finds below the rounded end is the lowest hit unless the only one is at that end. -/
theorem lowestHit_iff {align : Nat} (ha : 0 < align) {res : Option Int}
    (h : (∃ j : Nat, res = some (j : Int) ∧ j < alignedEnd haystack needle align ∧
        HitAt haystack needle align j ∧ ∀ k < j, ¬HitAt haystack needle align k) ∨
      (res = none ∧ ∀ k < alignedEnd haystack needle align, ¬HitAt haystack needle align k)) :
    LowestHit haystack needle align res ↔
      align ∣ haystack.length + 1 - needle.length ∨
        ¬HitAt haystack needle align (alignedEnd haystack needle align) ∨
        ∃ j < alignedEnd haystack needle align, HitAt haystack needle align j := by
  rcases h with ⟨j, rfl, hj, hit, hfirst⟩ | ⟨rfl, hfree⟩
  · refine ⟨fun _ => Or.inr (Or.inr ⟨j, hj, hit⟩), fun _ => ⟨?_, by simp⟩⟩
    intro r hr
    exact ⟨j, (Option.some.inj hr).symm, hit, hfirst⟩
  · constructor
    · intro hlow
      exact Or.inr (Or.inl (hlow.null rfl _))
    · intro hcond
      refine ⟨by simp, fun _ i hit => ?_⟩
      rcases Nat.lt_or_ge i (alignedEnd haystack needle align) with hlt | hge
      · exact hfree i hlt hit
      · obtain ⟨hi, hnot⟩ := hit_ge_alignedEnd ha hit hge
        rcases hcond with hdvd | hmiss | ⟨j, hj, hjit⟩
        · exact hnot hdvd
        · exact hmiss (hi ▸ hit)
        · exact hfree j hj hjit

/-- The rounded end as the code computes it. -/
theorem alignedEnd_eq {align : Nat} (ha : 0 < align) (hh : haystack.length < 2147483648)
    (hn : 0 < needle.length) (hle : needle.length ≤ haystack.length + 1) :
    (let end_ := wrapInt (wrapInt ((haystack.length : Int) - needle.length) + 1)
      if 1 < (align : Int) then wrapInt (end_ - end_.tmod align) else end_) =
      (alignedEnd haystack needle align : Int) := by
  have hend : wrapInt (wrapInt ((haystack.length : Int) - needle.length) + 1) =
      ((haystack.length + 1 - needle.length : Nat) : Int) := by
    rw [wrapInt_of_range (x := (haystack.length : Int) - needle.length) (by omega) (by omega),
      wrapInt_of_range (by omega) (by omega)]
    omega
  have hmod : (((haystack.length + 1 - needle.length : Nat) : Int)).tmod align =
      (((haystack.length + 1 - needle.length) % align : Nat) : Int) := Int.ofNat_tmod _ _
  have hle' := Nat.mod_le (haystack.length + 1 - needle.length) align
  simp only [hend, hmod, alignedEnd]
  split_ifs with h1
  · rw [wrapInt_of_range (by omega) (by omega)]
    omega
  · have hone : align = 1 := by omega
    rw [hone, Nat.mod_one, Nat.sub_zero]

theorem memMemLoop_past {end_ align : Int} (hend : end_ ≤ 0) {fuel : Nat} (hfuel : 0 < fuel) :
    memMemLoop haystack needle needle.length end_ align fuel 0 = some none := by
  obtain ⟨n, rfl⟩ : ∃ n, fuel = n + 1 := ⟨fuel - 1, by omega⟩
  rw [memMemLoop, if_neg (by omega)]

/-- A needle that is longer than the haystack leaves nothing to compare. -/
theorem end_nonpos {align : Nat} (hn : needle.length < 2147483648)
    (hgt : haystack.length + 1 < needle.length) :
    (let end_ := wrapInt (wrapInt ((haystack.length : Int) - needle.length) + 1)
      if 1 < (align : Int) then wrapInt (end_ - end_.tmod align) else end_) ≤ 0 := by
  obtain ⟨m, hm⟩ : ∃ m : Nat, wrapInt (wrapInt ((haystack.length : Int) - needle.length) + 1) = -(m : Int) ∧
      m < 2147483648 := by
    refine ⟨needle.length - haystack.length - 1, ?_, by omega⟩
    rw [wrapInt_of_range (x := (haystack.length : Int) - needle.length) (by omega) (by omega),
      wrapInt_of_range (by omega) (by omega)]
    omega
  have hmod : (-(m : Int)).tmod align = -((m % align : Nat) : Int) := by
    rw [Int.neg_tmod, Int.ofNat_tmod]
  have hle := Nat.mod_le m align
  simp only [hm.1, hmod]
  split_ifs
  · rw [wrapInt_of_range (by omega) (by omega)]
    omega
  · omega

theorem rMemMemAligned_eq {align : Nat} (ha : 1 ≤ align) (hh : 0 < haystack.length) (hn : 0 < needle.length)
    (fuel : Nat) : rMemMemAligned fuel haystack haystack.length needle needle.length align =
      memMemLoop haystack needle needle.length
        (let end_ := wrapInt (wrapInt ((haystack.length : Int) - needle.length) + 1)
          if 1 < (align : Int) then wrapInt (end_ - end_.tmod align) else end_) align fuel 0 := by
  simp only [rMemMemAligned]
  rw [if_neg (show ¬(align : Int) < 1 by omega), if_neg (by omega)]

/-- The call comes to an end without a read outside, and has tried all offsets below the rounded end. -/
theorem memMemAligned_run {align : Nat} (hh : haystack.length < 2147483648) (hn : 1 ≤ needle.length)
    (hn' : needle.length < 2147483648) (ha : 1 ≤ align) :
    ∃ res, (∀ fuel, haystack.length < fuel →
        rMemMemAligned fuel haystack haystack.length needle needle.length align = some res) ∧
      ((∃ j : Nat, res = some (j : Int) ∧ j < alignedEnd haystack needle align ∧
          HitAt haystack needle align j ∧ ∀ k < j, ¬HitAt haystack needle align k) ∨
        (res = none ∧ ∀ k < alignedEnd haystack needle align, ¬HitAt haystack needle align k)) := by
  have hshort : haystack.length < needle.length → ∀ k, ¬HitAt haystack needle align k := by
    intro hlt k hit
    have hin := hit.inside
    omega
  rcases Nat.eq_zero_or_pos haystack.length with hzero | hpos
  · refine ⟨none, fun fuel _ => ?_, Or.inr ⟨rfl, fun k _ => hshort (by omega) k⟩⟩
    simp only [rMemMemAligned]
    rw [if_pos (by omega)]
  · rcases Nat.lt_or_ge (haystack.length + 1) needle.length with hgt | hle
    · refine ⟨none, fun fuel hfuel => ?_, Or.inr ⟨rfl, fun k _ => hshort (by omega) k⟩⟩
      rw [rMemMemAligned_eq ha hpos hn]
      exact memMemLoop_past (end_nonpos hn' hgt) (by omega)
    · have hend : align ∣ alignedEnd haystack needle align := Nat.dvd_sub_mod _
      have hsub : alignedEnd haystack needle align ≤ haystack.length + 1 - needle.length := Nat.sub_le _ _
      have hin : alignedEnd haystack needle align + needle.length ≤ haystack.length + 1 := by omega
      have hfuel : alignedEnd haystack needle align - 0 < haystack.length + 1 := by omega
      obtain ⟨res, hloop, hspec⟩ := memMemLoop_spec ha hend hin (by omega) (Nat.dvd_zero align)
        (Nat.zero_le _) hfuel
      refine ⟨res, fun fuel hfuel => ?_, ?_⟩
      · rw [rMemMemAligned_eq ha hpos hn, alignedEnd_eq ha hh hn hle]
        exact memMemLoop_mono hloop hfuel
      · rcases hspec with ⟨j, hj, -, hje, hit, hfirst⟩ | ⟨hnone, hfree⟩
        · exact Or.inl ⟨j, hj, hje, hit, fun k hk => hfirst k (Nat.zero_le k) hk⟩
        · exact Or.inr ⟨hnone, fun k hk => hfree k (Nat.zero_le k) hk⟩

theorem rMemMem_eq_aligned (fuel : Nat) (haystack : List Ut8) (hlen : Int) (needle : List Ut8) (nlen : Int) :
    rMemMem fuel haystack hlen needle nlen = rMemMemAligned fuel haystack hlen needle nlen 1 := by
  simp [rMemMem, rMemMemAligned]

/-- `r_mem_mem_aligned` stays in the buffers and is `r_mem_mem` for an alignment of one; it finds the
lowest aligned hit unless that is at the end that the rounding cuts off. -/
theorem memMemAligned_iff (haystack needle : List Ut8) (align : Nat) (hh : haystack.length < 2147483648)
    (hn : 1 ≤ needle.length) (hn' : needle.length < 2147483648) (ha : 1 ≤ align) :
    ∃ res, (∀ fuel, haystack.length < fuel →
        rMemMemAligned fuel haystack haystack.length needle needle.length align = some res ∧
          (align = 1 → rMemMem fuel haystack haystack.length needle needle.length = some res)) ∧
      (LowestHit haystack needle align res ↔
        align ∣ haystack.length + 1 - needle.length ∨
          ¬HitAt haystack needle align (alignedEnd haystack needle align) ∨
          ∃ j < alignedEnd haystack needle align, HitAt haystack needle align j) := by
  obtain ⟨res, hrun, hspec⟩ := memMemAligned_run hh hn hn' ha
  refine ⟨res, fun fuel hfuel => ⟨hrun fuel hfuel, fun h => ?_⟩, lowestHit_iff ha hspec⟩
  rw [rMemMem_eq_aligned, ← hrun fuel hfuel, h]
  rfl

theorem memMemAligned_iff_first : ∃ res, (∀ fuel, 4 < fuel →
      rMemMemAligned fuel [1, 2, 7, 7] 4 [1, 2] 2 2 = some res) ∧
    LowestHit [1, 2, 7, 7] [1, 2] 2 res := by
  obtain ⟨res, hrun, hiff⟩ :=
    memMemAligned_iff [1, 2, 7, 7] [1, 2] 2 (by decide) (by decide) (by decide) (by decide)
  refine ⟨res, fun fuel hfuel => (hrun fuel hfuel).1, hiff.mpr (Or.inr (Or.inr ⟨0, by decide, ?_⟩))⟩
  exact ⟨Nat.dvd_zero 2, by decide, by decide⟩

/-- A haystack that is the needle is not searched at all. -/
theorem memMemAligned_skips_last : rMemMemAligned 5 [1, 2, 3, 4] 4 [1, 2, 3, 4] 4 4 = some none ∧
    HitAt [1, 2, 3, 4] [1, 2, 3, 4] 4 0 ∧ ¬LowestHit [1, 2, 3, 4] [1, 2, 3, 4] 4 none := by
  have hit : HitAt [1, 2, 3, 4] [1, 2, 3, 4] 4 0 := ⟨Nat.dvd_zero 4, by decide, by decide⟩
  exact ⟨by decide, hit, fun h => h.null rfl 0 hit⟩

end Radare
