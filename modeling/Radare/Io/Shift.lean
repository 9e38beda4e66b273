import Radare.Framework.Memory

namespace Radare

/-- `r_num_abs` of an `st64`. -/
def rNumAbs (x : Ut64) : Ut64 := if 0 < x.toInt then x else -x

/-- The loop of `r_io_shift`; `none` where the rounds run out before the bytes. -/
def rIoShiftLoop (move : Ut64) (rounds : Nat) (mem : Ut64 → Ut8) (rest src chunksize : Ut64) :
    Option (Ut64 → Ut8) :=
  if rest > 0 then
    match rounds with
    | 0 => none
    | rounds + 1 =>
      let chunksize := if chunksize > rest then rest else chunksize
      let src := if 0 < move.toInt then src - chunksize else src
      let mem := memWrite mem (src + move) (memRead mem src chunksize.toNat)
      let src := if move.toInt < 0 then src + chunksize else src
      rIoShiftLoop move rounds mem (rest - chunksize) src chunksize
  else some mem

/-- `r_io_shift` over a memory whose reads and writes are exact. -/
def rIoShift (mem : Ut64 → Ut8) (start stop move : Ut64) : Option (Bool × (Ut64 → Ut8)) :=
  let shiftsize := rNumAbs move
  if shiftsize = 0 ∨ stop - start ≤ shiftsize then some (false, mem)
  else
    let rest := stop - start - shiftsize
    let src := if 0 < move.toInt then stop - shiftsize else start + shiftsize
    (rIoShiftLoop move rest.toNat mem rest src 0x10000).map ((true, ·))

/-- The addresses from `lo` up to below `hi` hold what stood `move` below them, all others hold what
they held. -/
def Shifted (move : Ut64) (old mem : Ut64 → Ut8) (lo hi : Nat) : Prop :=
  ∀ x, mem x = if lo ≤ x.toNat ∧ x.toNat < hi then old (x - move) else old x

section Rounds

variable {move src dst : Ut64} {old mem : Ut64 → Ut8} {lo hi n : Nat}

theorem shifted_nothing (move : Ut64) (old : Ut64 → Ut8) (lo : Nat) : Shifted move old old lo lo := by
  intro x
  rw [if_neg (by omega)]

/-- A block that is read where nothing has been written yet holds the old bytes. -/
theorem shifted_block (h : Shifted move old mem lo hi) (hsrc : src.toNat + n ≤ 18446744073709551616)
    (hapart : src.toNat + n ≤ lo ∨ hi ≤ src.toNat) (hdst : dst = src + move)
    (hfit : dst.toNat + n ≤ 18446744073709551616) (x : Ut64) :
    memWrite mem dst (memRead mem src n) x =
      if dst.toNat ≤ x.toNat ∧ x.toNat < dst.toNat + n then old (x - move) else mem x := by
  have hlen : (memRead mem src n).length = n := memRead_length mem src n
  have hx := x.isLt
  by_cases hin : dst.toNat ≤ x.toNat ∧ x.toNat < dst.toNat + n
  · obtain ⟨hle, hlt⟩ := hin
    have hd : (x - dst).toNat = x.toNat - dst.toNat := BitVec.toNat_sub_of_le hle
    have hplace : src + BitVec.ofNat 64 (x - dst).toNat = x - move := by
      rw [BitVec.ofNat_toNat, BitVec.setWidth_eq, hdst]
      bv_omega
    have hread : (x - move).toNat = src.toNat + (x.toNat - dst.toNat) := by
      rw [← hplace, toNat_add_ofNat (by omega), hd]
    rw [if_pos ⟨hle, hlt⟩, memWrite_apply _ _ _ _ (by omega), memRead_getElem? _ _ _ _ (by omega), hplace,
      Option.getD_some, h, if_neg (by omega)]
  · rw [if_neg hin, memWrite_frame _ _ _ _ (by omega)]
    rw [hlen, BitVec.toNat_sub]
    omega

/-- Upwards the block comes below what is written. -/
theorem shifted_down_to (h : Shifted move old mem lo hi) (hsrc : src.toNat + n ≤ lo) (hdst : dst = src + move)
    (hlo : dst.toNat + n = lo) (hle : lo ≤ hi) (hhi : hi ≤ 18446744073709551616) :
    Shifted move old (memWrite mem dst (memRead mem src n)) dst.toNat hi := by
  intro x
  rw [shifted_block h (by omega) (Or.inl hsrc) hdst (by omega), h x]
  by_cases hx : lo ≤ x.toNat
  · rw [if_neg (by omega)]
    by_cases hxhi : x.toNat < hi
    · rw [if_pos ⟨hx, hxhi⟩, if_pos (by omega)]
    · rw [if_neg (by omega), if_neg (by omega)]
  · by_cases hxd : dst.toNat ≤ x.toNat
    · rw [if_pos (by omega), if_pos (by omega)]
    · rw [if_neg (by omega), if_neg (by omega), if_neg (by omega)]

/-- Downwards the block comes above what is written. -/
theorem shifted_up_to (h : Shifted move old mem lo hi) (hsrc : hi ≤ src.toNat)
    (hend : src.toNat + n ≤ 18446744073709551616) (hdst : dst = src + move) (hle : lo ≤ hi)
    (hhi : dst.toNat = hi) (hfit : dst.toNat + n ≤ 18446744073709551616) :
    Shifted move old (memWrite mem dst (memRead mem src n)) lo (dst.toNat + n) := by
  intro x
  rw [shifted_block h hend (Or.inr hsrc) hdst hfit, h x]
  by_cases hx : x.toNat < hi
  · rw [if_neg (by omega)]
    by_cases hxlo : lo ≤ x.toNat
    · rw [if_pos ⟨hxlo, hx⟩, if_pos (by omega)]
    · rw [if_neg (by omega), if_neg (by omega)]
  · by_cases hxd : x.toNat < dst.toNat + n
    · rw [if_pos (by omega), if_pos (by omega)]
    · rw [if_neg (by omega), if_neg (by omega), if_neg (by omega)]

end Rounds

section Loop

variable {move : Ut64}

theorem toNat_of_toInt_pos (h : 0 < move.toInt) : move.toNat = move.toInt.natAbs := by
  have hlt := move.isLt
  rw [BitVec.toInt_eq_toNat_cond] at h ⊢
  split at h <;> rename_i hcond
  · rw [if_pos hcond, Int.natAbs_natCast]
  · omega

theorem toNat_of_toInt_neg (h : move.toInt < 0) : move.toNat + move.toInt.natAbs = 18446744073709551616 := by
  have hlt := move.isLt
  rw [BitVec.toInt_eq_toNat_cond] at h ⊢
  split at h <;> rename_i hcond
  · omega
  · rw [if_neg hcond]
    omega

theorem toNat_rNumAbs (move : Ut64) : (rNumAbs move).toNat = move.toInt.natAbs := by
  by_cases hpos : 0 < move.toInt
  · rw [rNumAbs, if_pos hpos, toNat_of_toInt_pos hpos]
  · rw [rNumAbs, if_neg hpos, BitVec.toNat_neg]
    rcases Int.lt_or_eq_of_le (Int.not_lt.mp hpos) with hneg | hzero
    · have hlt := move.isLt
      have hnat := toNat_of_toInt_neg hneg
      have hleast := BitVec.le_toInt move
      have hsub : 2 ^ 64 - move.toNat = move.toInt.natAbs := by omega
      rw [hsub, Nat.mod_eq_of_lt (by omega)]
    · have hmove : move = 0 := BitVec.toInt_inj.mp hzero
      rw [hmove]
      rfl

/-- The size of the next block. -/
theorem toNat_chunk {chunksize rest : Ut64} (hrest : 0 < rest.toNat) (hchunk : 0 < chunksize.toNat) :
    ∃ c, (if chunksize > rest then rest else chunksize).toNat = c ∧ 0 < c ∧ c ≤ rest.toNat := by
  refine ⟨_, rfl, ?_⟩
  by_cases hlt : chunksize > rest
  · rw [if_pos hlt]
    exact ⟨hrest, le_refl _⟩
  · rw [if_neg hlt]
    exact ⟨hchunk, BitVec.not_lt.mp hlt⟩

theorem rIoShiftLoop_done {rest : Ut64} (hrest : ¬0 < rest.toNat) (move : Ut64) (rounds : Nat)
    (mem : Ut64 → Ut8) (src chunksize : Ut64) :
    rIoShiftLoop move rounds mem rest src chunksize = some mem := by
  have hdone : ¬rest > 0 := by
    rw [gt_iff_lt, BitVec.lt_def]
    exact hrest
  cases rounds <;> exact if_neg hdone

/-- Upwards: the bytes below `src` still have to be moved. -/
theorem rIoShiftLoop_up (start stop : Nat) {old : Ut64 → Ut8} (hpos : 0 < move.toInt)
    (hstop : stop ≤ 18446744073709551616) (rounds : Nat) (mem : Ut64 → Ut8) (rest src chunksize : Ut64)
    (hrounds : rest.toNat ≤ rounds) (hchunk : 0 < chunksize.toNat) (hsrc : src.toNat = start + rest.toNat)
    (hle : src.toNat + move.toNat ≤ stop) (h : Shifted move old mem (src.toNat + move.toNat) stop) :
    ∃ mem', rIoShiftLoop move rounds mem rest src chunksize = some mem' ∧
      Shifted move old mem' (start + move.toNat) stop := by
  have hneg : ¬move.toInt < 0 := by omega
  induction rounds generalizing mem rest src chunksize with
  | zero =>
    have hzero : rest.toNat = 0 := by omega
    refine ⟨mem, rIoShiftLoop_done (by omega) move _ mem src chunksize, ?_⟩
    rw [hsrc, hzero] at h
    exact h
  | succ rounds ih =>
    by_cases hrest : 0 < rest.toNat
    · obtain ⟨c, hc, hcpos, hcle⟩ := toNat_chunk hrest hchunk
      rw [rIoShiftLoop, if_pos (by rw [gt_iff_lt, BitVec.lt_def]; exact hrest)]
      simp only [hpos, hneg, if_true, if_false]
      generalize (if chunksize > rest then rest else chunksize) = chunk at hc ⊢
      have hsub : (src - chunk).toNat = src.toNat - c := by
        rw [← hc]
        exact BitVec.toNat_sub_of_le (by rw [BitVec.le_def]; omega)
      have hrest' : (rest - chunk).toNat = rest.toNat - c := by
        rw [← hc]
        exact BitVec.toNat_sub_of_le (by rw [BitVec.le_def]; omega)
      have hdst : (src - chunk + move).toNat = src.toNat - c + move.toNat := by
        rw [BitVec.toNat_add, hsub]
        omega
      apply ih
      · omega
      · omega
      · omega
      · omega
      · rw [hsub, ← hdst, hc]
        exact shifted_down_to h (by omega) rfl (by omega) hle hstop
    · have hzero : rest.toNat = 0 := by omega
      refine ⟨mem, rIoShiftLoop_done hrest move _ mem src chunksize, ?_⟩
      rw [hsrc, hzero] at h
      exact h

/-- Downwards: the bytes from `src` on still have to be moved. -/
theorem rIoShiftLoop_down (start stop : Nat) {old : Ut64 → Ut8} (hneg : move.toInt < 0)
    (hstop : stop < 18446744073709551616) (rounds : Nat) (mem : Ut64 → Ut8) (rest src chunksize : Ut64)
    (hrounds : rest.toNat ≤ rounds) (hchunk : 0 < chunksize.toNat) (hsrc : src.toNat + rest.toNat = stop)
    (hle : start + move.toInt.natAbs ≤ src.toNat)
    (h : Shifted move old mem start (src.toNat - move.toInt.natAbs)) :
    ∃ mem', rIoShiftLoop move rounds mem rest src chunksize = some mem' ∧
      Shifted move old mem' start (stop - move.toInt.natAbs) := by
  have hpos : ¬0 < move.toInt := by omega
  have hmove := toNat_of_toInt_neg hneg
  induction rounds generalizing mem rest src chunksize with
  | zero =>
    have hzero : rest.toNat = 0 := by omega
    refine ⟨mem, rIoShiftLoop_done (by omega) move _ mem src chunksize, ?_⟩
    rw [← hsrc, hzero]
    exact h
  | succ rounds ih =>
    by_cases hrest : 0 < rest.toNat
    · obtain ⟨c, hc, hcpos, hcle⟩ := toNat_chunk hrest hchunk
      rw [rIoShiftLoop, if_pos (by rw [gt_iff_lt, BitVec.lt_def]; exact hrest)]
      simp only [hpos, hneg, if_true, if_false]
      generalize (if chunksize > rest then rest else chunksize) = chunk at hc ⊢
      have hadd : (src + chunk).toNat = src.toNat + c := by
        rw [BitVec.toNat_add, hc]
        omega
      have hrest' : (rest - chunk).toNat = rest.toNat - c := by
        rw [← hc]
        exact BitVec.toNat_sub_of_le (by rw [BitVec.le_def]; omega)
      have hdst : (src + move).toNat = src.toNat - move.toInt.natAbs := by
        rw [BitVec.toNat_add]
        omega
      apply ih
      · omega
      · omega
      · omega
      · omega
      · have hend : src.toNat + c - move.toInt.natAbs = (src + move).toNat + c := by omega
        rw [hadd, hend, hc]
        exact shifted_up_to h (by omega) (by omega) rfl (by omega) hdst (by omega)
    · have hzero : rest.toNat = 0 := by omega
      refine ⟨mem, rIoShiftLoop_done hrest move _ mem src chunksize, ?_⟩
      rw [← hsrc, hzero]
      exact h

end Loop

/-- `r_io_shift` moves the whole range, and nothing outside the destination changes. -/
theorem shift_moves (mem : Ut64 → Ut8) (start stop move : Ut64) (hrange : start < stop)
    (hzero : 0 < move.toInt.natAbs) (hshort : move.toInt.natAbs < stop.toNat - start.toNat) :
    ∃ mem', rIoShift mem start stop move = some (true, mem') ∧
      (0 < move.toInt →
        (∀ a : Ut64, start.toNat ≤ a.toNat → a.toNat < stop.toNat - move.toInt.natAbs →
          mem' (a + move) = mem a) ∧
        ∀ x : Ut64, x.toNat < start.toNat + move.toInt.natAbs ∨ stop.toNat ≤ x.toNat → mem' x = mem x) ∧
      (move.toInt < 0 →
        (∀ a : Ut64, start.toNat + move.toInt.natAbs ≤ a.toNat → a.toNat < stop.toNat →
          mem' (a + move) = mem a) ∧
        ∀ x : Ut64, x.toNat < start.toNat ∨ stop.toNat - move.toInt.natAbs ≤ x.toNat → mem' x = mem x) := by
  have hstop := stop.isLt
  have hle : start.toNat < stop.toNat := hrange
  have habs := toNat_rNumAbs move
  have hlen : (stop - start).toNat = stop.toNat - start.toNat :=
    BitVec.toNat_sub_of_le (by rw [BitVec.le_def]; omega)
  have hrest : (stop - start - rNumAbs move).toNat = stop.toNat - start.toNat - move.toInt.natAbs := by
    rw [BitVec.toNat_sub_of_le (by rw [BitVec.le_def]; omega), hlen, habs]
  have hrun : rIoShift mem start stop move =
      (rIoShiftLoop move (stop - start - rNumAbs move).toNat mem (stop - start - rNumAbs move)
        (if 0 < move.toInt then stop - rNumAbs move else start + rNumAbs move) 0x10000).map ((true, ·)) := by
    have hne : rNumAbs move ≠ 0 := by
      intro h
      rw [h] at habs
      exact absurd habs (Nat.ne_of_lt hzero)
    have hmore : ¬stop - start ≤ rNumAbs move := by
      rw [BitVec.le_def]
      omega
    rw [rIoShift]
    dsimp only
    rw [if_neg (fun h => h.elim hne hmore)]
  rcases Int.lt_or_gt_of_ne (show move.toInt ≠ 0 by omega) with hneg | hpos
  · have hsrc : (start + rNumAbs move).toNat = start.toNat + move.toInt.natAbs := by
      rw [BitVec.toNat_add, habs]
      omega
    obtain ⟨mem', hloop, hshifted⟩ := rIoShiftLoop_down start.toNat stop.toNat hneg hstop
      _ mem (stop - start - rNumAbs move) (start + rNumAbs move) 0x10000 (le_refl _) (by decide) (by omega) (by omega)
      (by rw [hsrc, Nat.add_sub_cancel]; exact shifted_nothing move mem _)
    have hmove := toNat_of_toInt_neg hneg
    refine ⟨mem', ?_, fun h => absurd h (by omega), fun _ => ⟨?_, ?_⟩⟩
    · rw [hrun, if_neg (by omega), hloop]
      rfl
    · intro a hlow hhigh
      have hplace : (a + move).toNat = a.toNat - move.toInt.natAbs := by
        rw [BitVec.toNat_add]
        omega
      rw [hshifted, if_pos (by omega), BitVec.add_sub_cancel]
    · intro x hx
      rw [hshifted, if_neg (by omega)]
  · have hmove := toNat_of_toInt_pos hpos
    have hsrc : (stop - rNumAbs move).toNat = stop.toNat - move.toInt.natAbs := by
      rw [BitVec.toNat_sub_of_le (by rw [BitVec.le_def]; omega), habs]
    have hend : stop.toNat - move.toInt.natAbs + move.toNat = stop.toNat := by omega
    obtain ⟨mem', hloop, hshifted⟩ := rIoShiftLoop_up start.toNat stop.toNat hpos
      (by omega) _ mem (stop - start - rNumAbs move) (stop - rNumAbs move) 0x10000 (le_refl _) (by decide) (by omega) (by omega)
      (by rw [hsrc, hend]; exact shifted_nothing move mem _)
    refine ⟨mem', ?_, fun _ => ⟨?_, ?_⟩, fun h => absurd h (by omega)⟩
    · rw [hrun, if_pos hpos, hloop]
      rfl
    · intro a hlow hhigh
      have hplace : (a + move).toNat = a.toNat + move.toInt.natAbs := by
        rw [BitVec.toNat_add]
        omega
      rw [hshifted, if_pos (by omega), BitVec.add_sub_cancel]
    · intro x hx
      rw [hshifted, if_neg (by omega)]

/-- Two bytes up by one: the second is moved over its own old place. -/
theorem shift_moves_up_one :
    ∃ mem', rIoShift (fun a => a.setWidth 8) 16 19 1 = some (true, mem') ∧ mem' 17 = 16 ∧ mem' 18 = 17 := by
  obtain ⟨mem', hrun, hup, -⟩ := shift_moves (fun a => a.setWidth 8) 16 19 1 (by decide) (by decide) (by decide)
  obtain ⟨hbyte, -⟩ := hup (by decide)
  exact ⟨mem', hrun, hbyte 16 (by decide) (by decide), hbyte 17 (by decide) (by decide)⟩

end Radare
