import Radare.Framework.MachineInt
import Radare.Framework.EditDistance

namespace Radare

/-- A read through a pointer; outside the block there is nothing to read. -/
def readAt {α : Type} (l : List α) (i : Int) : Option α := if 0 ≤ i then l[i.toNat]? else none

def writeAt {α : Type} (l : List α) (i : Int) (v : α) : Option (List α) :=
  if 0 ≤ i ∧ i < l.length then some (l.set i.toNat v) else none

/-- The value an `int` has when it is compared with a `ut32`. -/
def asUt32 (x : Int) : Int := x % 4294967296

/-- What the inner loop of `r_diff_buffers_distance_levenstein` changes. -/
structure LevColumn where
  j : Int
  v1 : List Int
  cost : Int
  colMin : Int

/-- The inner loop, `for (j = start; j <= stop; j++)`. -/
def levColumn (ai : Ut8) (bBuf : List Ut8) (v0 : List Int) (stop : Int) :
    Nat → LevColumn → Option LevColumn
  | 0, c => some c
  | rounds + 1, c =>
    if c.j ≤ stop then do
      let bj ← readAt bBuf c.j
      let cost := if ai = bj then 0 else 1
      let left ← readAt c.v1 c.j
      let up ← readAt v0 (c.j + 1)
      let diag ← readAt v0 c.j
      let smallest := min (min (left + 1) (up + 1)) (diag + cost)
      if asUt32 (c.j + 2) > bBuf.length + 3 then
        some { c with cost := cost }
      else do
        let v1 ← writeAt c.v1 (c.j + 1) smallest
        let v1 ← writeAt v1 (c.j + 2) (smallest + 1)
        levColumn ai bBuf v0 stop rounds ⟨c.j + 1, v1, cost, min c.colMin smallest⟩
    else some c

/-- What the outer loop changes. -/
structure LevState where
  i : Nat
  v0 : List Int
  v1 : List Int
  start : Int
  stop : Int
  extendStart : Int
  extendStop : Int
  cost : Int

/-- `extendStop` grows when the last entry matched and the one before it does not. -/
def levExtendStop (ai : Ut8) (bBuf : List Ut8) (c : LevColumn) (extendStop : Int) : Option Int :=
  if c.cost = 0 then do
    let b2 ← readAt bBuf (c.j - 2)
    some (if ai ≠ b2 then extendStop + 1 else extendStop)
  else some extendStop

/-- Whether the new start would be a match. -/
def levDoubled (aBuf bBuf : List Ut8) (i : Nat) (start : Int) : Option Bool :=
  if i + 1 < aBuf.length ∧ asUt32 start < bBuf.length then do
    let an ← readAt aBuf (i + 1)
    let bs ← readAt bBuf start
    some (decide (an = bs))
  else some false

/-- One round of the outer loop after its early exit was not taken. -/
def levRound (aBuf bBuf : List Ut8) (s : LevState) (stop : Int) : Option LevState := do
  let v0s ← readAt s.v0 s.start
  let v1 ← writeAt s.v1 s.start (v0s + 1)
  let ai ← readAt aBuf s.i
  let c ← levColumn ai bBuf s.v0 stop (stop + 1 - s.start).toNat ⟨s.start, v1, s.cost, aBuf.length⟩
  let start := wrapInt (s.i + 1 - c.colMin - s.extendStart)
  let extendStop ← levExtendStop ai bBuf c s.extendStop
  let doubled ← levDoubled aBuf bBuf s.i start
  some
    { i := s.i + 1, v0 := c.v1, v1 := s.v0, stop := stop, cost := c.cost, extendStop := extendStop
      start := if doubled then wrapInt (start - 1) else start
      extendStart := if doubled then s.extendStart + 1 else s.extendStart }

/-- The outer loop. `start > bLen` compares as unsigned, so a negative `start` leaves it too. -/
def levRounds (aBuf bBuf : List Ut8) : Nat → LevState → Option LevState
  | 0, s => some s
  | rounds + 1, s =>
    let stop := min (asUt32 (s.i + s.extendStop + 2)) bBuf.length
    if asUt32 s.start > bBuf.length then some { s with stop := stop }
    else do
      let s ← levRound aBuf bBuf s stop
      levRounds aBuf bBuf rounds s

/-- The locals when the outer loop starts: `bLen + 3` zeroed cells with `bLen + 1` of them set. -/
def levStart (bBuf : List Ut8) : LevState :=
  { i := 0
    v0 := (List.range (bBuf.length + 1)).map Int.ofNat ++ [0, 0]
    v1 := (List.range (bBuf.length + 1)).map (fun i => Int.ofNat i + 1) ++ [0, 0]
    start := 0, stop := bBuf.length, extendStart := 0, extendStop := 0, cost := 0 }

/-- The longest buffer is the one the outer loop runs over. -/
def levLonger (a b : List Ut8) : List Ut8 := if a.length < b.length then b else a

def levShorter (a b : List Ut8) : List Ut8 := if a.length < b.length then a else b

/-- The locals when the outer loop is left; `none` when a read or write was out of bounds. -/
def levExit (a b : List Ut8) : Option LevState :=
  levRounds (levLonger a b) (levShorter a b) (levLonger a b).length (levStart (levShorter a b))

/-- `r_diff_buffers_distance_levenstein`: outside the blocks `none`, `some none` when it returns
false, else the distance stored. -/
def rDiffBuffersDistanceLevenstein (a b : List Ut8) : Option (Option Ut32) :=
  if (levLonger a b).length < 1 ∨ (levShorter a b).length < 1 then some none
  else if levLonger a b = levShorter a b then some (some 0)
  else do
    let s ← levExit a b
    let d ← readAt s.v0 s.stop
    some (some (BitVec.ofInt 32 d))

/-- The row below `prev` in the matrix of `r_diff_buffers_distance_original`, from `left` on. -/
def distanceRow (ai : Ut8) : List Ut8 → List Int → Int → List Int
  | bj :: bs, diag :: up :: prev, left =>
    let cost := if ai ≠ bj then 1 else 0
    let tmin := min (up + 1) (left + 1)
    left :: distanceRow ai bs (up :: prev) (min tmin (diag + cost))
  | _, _, left => [left]

/-- The last row of the matrix. -/
def distanceRows (b : List Ut8) : List Ut8 → Nat → List Int → List Int
  | [], _, row => row
  | ai :: as, i, row => distanceRows b as (i + 1) (distanceRow ai b row (i + 1))

/-- `r_diff_buffers_distance_original`, `none` when it returns false. -/
def rDiffBuffersDistanceOriginal (a b : List Ut8) : Option Ut32 :=
  if a.length < 1 ∨ b.length < 1 then none
  else if a = b then some 0
  else if 8 * (b.length + 1) + (a.length + 1) * ((b.length + 1) * 4) ≥ 1024 * 1024 * 1024 then none
  else
    let row := distanceRows b a 0 ((List.range (b.length + 1)).map Int.ofNat)
    (readAt row b.length).map (BitVec.ofInt 32)

/-- No access outside the buffers, and the distance the plain version stores. -/
def DistancesAgree (a b : List Ut8) : Prop :=
  ∃ d, rDiffBuffersDistanceLevenstein a b = some (some d) ∧ rDiffBuffersDistanceOriginal a b = some d

/-- The outer loop is left by its `break`, with bytes of the longer buffer not looked at. -/
def LeavesEarly (a b : List Ut8) : Prop :=
  ∃ s, levExit a b = some s ∧ s.i < (levLonger a b).length

theorem asUt32_le {x : Int} (h : 0 ≤ x) : asUt32 x ≤ x := by
  unfold asUt32
  omega

/-- With `stop` at the length of the shorter buffer the column reads the byte past its end. -/
theorem levColumn_none {ai : Ut8} {bBuf : List Ut8} {v0 : List Int} {rounds : Nat} {c : LevColumn}
    (hj : 0 ≤ c.j) (hle : c.j ≤ bBuf.length) (hr : bBuf.length + 1 - c.j ≤ rounds) :
    levColumn ai bBuf v0 bBuf.length rounds c = none := by
  induction rounds generalizing c with
  | zero => omega
  | succ rounds ih =>
    rw [levColumn, if_pos hle]
    by_cases hend : c.j = bBuf.length
    · have hread : readAt bBuf c.j = none := by
        rw [readAt, if_pos hj, hend, Int.toNat_natCast]
        exact List.getElem?_eq_none (Nat.le_refl _)
      rw [hread]
      rfl
    · have hstay : ¬ asUt32 (c.j + 2) > bBuf.length + 3 := by
        have hsmall := asUt32_le (show 0 ≤ c.j + 2 by omega)
        omega
      simp only [if_neg hstay, Option.bind_eq_bind, Option.bind_eq_none_iff]
      intro bj _ left _ up _ diag _ v1 _ v1' _
      apply ih
      · show 0 ≤ c.j + 1
        omega
      · show c.j + 1 ≤ bBuf.length
        omega
      · show bBuf.length + 1 - (c.j + 1) ≤ (rounds : Int)
        omega

/-- What every round keeps of the locals. -/
structure LevOk (s : LevState) : Prop where
  low : -2147483648 ≤ s.start
  high : s.start < 2147483648
  extend : 0 ≤ s.extendStop
  few : s.extendStop ≤ s.i

theorem levExtendStop_bounds {ai : Ut8} {bBuf : List Ut8} {c : LevColumn} {e e' : Int}
    (h : levExtendStop ai bBuf c e = some e') : e ≤ e' ∧ e' ≤ e + 1 := by
  unfold levExtendStop at h
  split at h
  · simp only [Option.bind_eq_bind, Option.bind_eq_some_iff, Option.some.injEq] at h
    obtain ⟨b2, _, rfl⟩ := h
    split <;> omega
  · obtain rfl := Option.some.inj h
    omega

theorem levRound_ok {aBuf bBuf : List Ut8} {s s' : LevState} {stop : Int} (hs : LevOk s)
    (h : levRound aBuf bBuf s stop = some s') : s'.i = s.i + 1 ∧ LevOk s' := by
  simp only [levRound, Option.bind_eq_bind, Option.bind_eq_some_iff] at h
  obtain ⟨v0s, _, v1, _, ai, _, c, _, extendStop, hext, doubled, _, hs'⟩ := h
  obtain rfl := Option.some.inj hs'
  have hextend := levExtendStop_bounds hext
  have hlow := hs.extend
  have hfew := hs.few
  refine ⟨rfl, ?_, ?_, ?_, ?_⟩
  · show -2147483648 ≤ ite (doubled = true) _ _
    split
    · exact (wrapInt_range _).1
    · exact (wrapInt_range _).1
  · show ite (doubled = true) _ _ < (2147483648 : Int)
    split
    · exact (wrapInt_range _).2
    · exact (wrapInt_range _).2
  · show 0 ≤ extendStop
    omega
  · show extendStop ≤ (s.i + 1 : Nat)
    omega

/-- The last round cannot end well: its column reaches past the shorter buffer. -/
theorem levRound_last {aBuf bBuf : List Ut8} {s : LevState} (hs : LevOk s)
    (hb : bBuf.length < 2147483648) (hin : asUt32 s.start ≤ bBuf.length) :
    levRound aBuf bBuf s bBuf.length = none := by
  have hlow := hs.low
  have hhigh := hs.high
  unfold asUt32 at hin
  simp only [levRound, Option.bind_eq_bind, Option.bind_eq_none_iff]
  intro v0s _ v1 _ ai _ c hc
  rw [levColumn_none (by show 0 ≤ s.start; omega) (by show s.start ≤ _; omega)
    (by show _ - s.start ≤ _; omega)] at hc
  cases hc

theorem levRounds_early {aBuf bBuf : List Ut8} {rounds : Nat} {s s' : LevState} (hs : LevOk s)
    (ha : aBuf.length < 1073741824) (hab : bBuf.length ≤ aBuf.length)
    (hi : s.i + (rounds + 1) = aBuf.length) (h : levRounds aBuf bBuf (rounds + 1) s = some s') :
    s'.i < aBuf.length := by
  induction rounds generalizing s with
  | zero =>
    rw [levRounds] at h
    by_cases hout : asUt32 s.start > bBuf.length
    · rw [if_pos hout] at h
      obtain rfl := Option.some.inj h
      show s.i < aBuf.length
      omega
    · have hlow := hs.extend
      have hfew := hs.few
      have hstop : min (asUt32 (s.i + s.extendStop + 2)) bBuf.length = bBuf.length := by
        unfold asUt32
        omega
      rw [if_neg hout, hstop, levRound_last hs (by omega) (by omega)] at h
      cases h
  | succ rounds ih =>
    rw [levRounds] at h
    by_cases hout : asUt32 s.start > bBuf.length
    · rw [if_pos hout] at h
      obtain rfl := Option.some.inj h
      show s.i < aBuf.length
      omega
    · rw [if_neg hout, Option.bind_eq_bind, Option.bind_eq_some_iff] at h
      obtain ⟨t, ht, h⟩ := h
      obtain ⟨hti, htok⟩ := levRound_ok hs ht
      exact ih htok (by omega) h

theorem levStart_ok (bBuf : List Ut8) : LevOk (levStart bBuf) := by
  constructor <;> simp [levStart]

theorem levLonger_eq_levShorter {a b : List Ut8} : levLonger a b = levShorter a b ↔ a = b := by
  unfold levLonger levShorter
  split
  · exact eq_comm
  · rfl

theorem levShorter_length_le (a b : List Ut8) : (levShorter a b).length ≤ (levLonger a b).length := by
  unfold levLonger levShorter
  split <;> omega

theorem original_small {a b : List Ut8} {d : Ut32} (hne : a ≠ b)
    (h : rDiffBuffersDistanceOriginal a b = some d) : (levLonger a b).length < 1073741824 := by
  rw [rDiffBuffersDistanceOriginal, if_neg hne] at h
  split at h
  · cases h
  · split at h
    · cases h
    · next hlen hbig =>
      have ha : a.length + 1 ≤ (a.length + 1) * (b.length + 1) := Nat.le_mul_of_pos_right _ (by omega)
      have hb : b.length + 1 ≤ (a.length + 1) * (b.length + 1) := Nat.le_mul_of_pos_left _ (by omega)
      rw [← Nat.mul_assoc] at hbig
      unfold levLonger
      split <;> omega

/-- Equal buffers get the same distance from both. Any other pair that does has left the outer
loop before its last round, whose column reads past the shorter buffer. -/
theorem distances_agree_equal (a b : List Ut8) (ha : a ≠ []) (hb : b ≠ []) :
    (a = b → DistancesAgree a b) ∧ (a ≠ b → DistancesAgree a b → LeavesEarly a b) := by
  have hla := List.length_pos_iff.mpr ha
  have hlb := List.length_pos_iff.mpr hb
  constructor
  · rintro rfl
    refine ⟨0, ?_, ?_⟩
    · rw [rDiffBuffersDistanceLevenstein, if_neg (by simp [levLonger, levShorter]; omega),
        if_pos (levLonger_eq_levShorter.mpr rfl)]
    · rw [rDiffBuffersDistanceOriginal, if_neg (by omega), if_pos rfl]
  · rintro hne ⟨d, hlev, horig⟩
    have hsmall := original_small hne horig
    rw [rDiffBuffersDistanceLevenstein] at hlev
    split at hlev
    · cases hlev
    · next hlen =>
      rw [if_neg (fun h => hne (levLonger_eq_levShorter.mp h)), Option.bind_eq_bind,
        Option.bind_eq_some_iff] at hlev
      obtain ⟨s, hexit, _⟩ := hlev
      refine ⟨s, hexit, ?_⟩
      obtain ⟨n, hn⟩ : ∃ n, (levLonger a b).length = n + 1 := ⟨(levLonger a b).length - 1, by omega⟩
      rw [levExit, hn] at hexit
      exact levRounds_early (levStart_ok _) hsmall (levShorter_length_le a b)
        (by rw [hn]; exact Nat.zero_add _) hexit

theorem distances_agree_equal_ab : DistancesAgree [97, 98] [97, 98] :=
  (distances_agree_equal [97, 98] [97, 98] (by decide) (by decide)).1 rfl

/-- One byte against another: the first round already compares with the byte after the buffer. -/
theorem levenstein_reads_past : ¬ DistancesAgree [97] [98] := by
  rintro ⟨d, h, _⟩
  have hnone : rDiffBuffersDistanceLevenstein [97] [98] = none := by decide
  rw [hnone] at h
  cases h

end Radare

namespace Radare

open Framework

/-- The bytes that the matrix of `r_diff_buffers_distance_original` takes. -/
def distanceTableSize (a b : List Ut8) : Nat := 8 * (b.length + 1) + (a.length + 1) * ((b.length + 1) * 4)

def TableFits (a b : List Ut8) : Prop := distanceTableSize a b < 1024 * 1024 * 1024

/-- The row of the prefix `a`, from the column of the prefix `q` of the other buffer on. -/
def tableRow (a : List Ut8) : List Ut8 → List Ut8 → List Int
  | q, [] => [(lastDistance a q : Int)]
  | q, y :: b => (lastDistance a q : Int) :: tableRow a (q ++ [y]) b

theorem tableRow_head (a q b : List Ut8) : ∃ row, tableRow a q b = (lastDistance a q : Int) :: row := by
  cases b with
  | nil => exact ⟨[], rfl⟩
  | cons y b => exact ⟨_, rfl⟩

theorem tableRow_last (a q b : List Ut8) : (tableRow a q b)[b.length]? = some (lastDistance a (q ++ b) : Int) := by
  induction b generalizing q with
  | nil => simp [tableRow]
  | cons y b ih => simp [tableRow, ih]

theorem tableRow_start (q b : List Ut8) :
    tableRow [] q b = (List.range' q.length (b.length + 1)).map Int.ofNat := by
  induction b generalizing q with
  | nil => simp [tableRow]
  | cons y b ih =>
    rw [List.length_cons, List.range'_succ, tableRow, ih]
    simp

/-- One round of the inner loop: the three neighbours give the next cell. -/
theorem distanceRow_eq (x : Ut8) (a q b : List Ut8) :
    distanceRow x b (tableRow a q b) (lastDistance (a ++ [x]) q) = tableRow (a ++ [x]) q b := by
  induction b generalizing q with
  | nil => rfl
  | cons y b ih =>
    obtain ⟨row, hrow⟩ := tableRow_head a (q ++ [y]) b
    have hcell : min (min ((lastDistance a (q ++ [y]) : Int) + 1) ((lastDistance (a ++ [x]) q : Int) + 1))
        ((lastDistance a q : Int) + if x ≠ y then 1 else 0) = (lastDistance (a ++ [x]) (q ++ [y]) : Int) := by
      rw [lastDistance_snoc_snoc, ite_not]
      split_ifs <;> omega
    have hih := ih (q ++ [y])
    rw [hrow] at hih
    rw [tableRow, tableRow, hrow, distanceRow, hcell, hih]

theorem distanceRows_eq (b as a : List Ut8) :
    distanceRows b as a.length (tableRow a [] b) = tableRow (a ++ as) [] b := by
  induction as generalizing a with
  | nil => simp [distanceRows]
  | cons x as ih =>
    have hleft : (a.length : Int) + 1 = lastDistance (a ++ [x]) [] := by simp [lastDistance_nil_right]
    have hlen : a.length + 1 = (a ++ [x]).length := by simp
    rw [distanceRows, hleft, distanceRow_eq, hlen, ih, List.append_assoc, List.singleton_append]

theorem TableFits.lengths {a b : List Ut8} (h : TableFits a b) : a.length + b.length < 4294967296 := by
  unfold TableFits distanceTableSize at h
  have ha : a.length + 1 ≤ (a.length + 1) * ((b.length + 1) * 4) := Nat.le_mul_of_pos_right _ (by omega)
  omega

theorem toNat_lastDistance {a b : List Ut8} (h : TableFits a b) :
    (BitVec.ofInt 32 (lastDistance a b : Int)).toNat = lastDistance a b := by
  have hle := lastDistance_le_length a b
  have hlt := h.lengths
  rw [BitVec.ofInt_natCast, BitVec.toNat_ofNat]
  omega

theorem original_eq {a b : List Ut8} (ha : a ≠ []) (hb : b ≠ []) (h : TableFits a b) :
    rDiffBuffersDistanceOriginal a b = some (BitVec.ofInt 32 (lastDistance a b : Int)) := by
  have hla := List.length_pos_iff.mpr ha
  have hlb := List.length_pos_iff.mpr hb
  rw [rDiffBuffersDistanceOriginal, if_neg (by omega)]
  by_cases hab : a = b
  · rw [if_pos hab, lastDistance_eq_zero.mpr hab]
    rfl
  · have hrow : distanceRows b a 0 ((List.range (b.length + 1)).map Int.ofNat) = tableRow a [] b := by
      have hstart := tableRow_start [] b
      rw [List.length_nil, ← List.range_eq_range'] at hstart
      rw [← hstart]
      exact distanceRows_eq b a []
    have hsmall : ¬8 * (b.length + 1) + (a.length + 1) * ((b.length + 1) * 4) ≥ 1024 * 1024 * 1024 :=
      Nat.not_le.mpr h
    have hread : readAt (tableRow a [] b) b.length = some (lastDistance a b : Int) := by
      simp [readAt, tableRow_last]
    rw [if_neg hab, if_neg hsmall]
    dsimp only
    rw [hrow, hread, Option.map_some]

/-- The stored distance is the length of a shortest script of insertions, deletions and substitutions
that turns `a` into `b`. -/
theorem original_distance (a b : List Ut8) (ha : a ≠ []) (hb : b ≠ []) (hfits : TableFits a b) :
    ∃ d, rDiffBuffersDistanceOriginal a b = some d ∧ IsLeast {n | EditsTo a n b} d.toNat ∧ (d = 0 ↔ a = b) ∧
      (TableFits b a → rDiffBuffersDistanceOriginal b a = some d) := by
  refine ⟨_, original_eq ha hb hfits, ?_, ?_, ?_⟩
  · rw [toNat_lastDistance hfits]
    exact lastDistance_isLeast a b
  · rw [← BitVec.toNat_inj, toNat_lastDistance hfits]
    exact lastDistance_eq_zero
  · intro hfits'
    rw [original_eq hb ha hfits', lastDistance_comm]

theorem original_distance_ab : ∃ d, rDiffBuffersDistanceOriginal [97, 98] [98] = some d ∧
    IsLeast {n | EditsTo ([97, 98] : List Ut8) n [98]} d.toNat ∧ (d = 0 ↔ [97, 98] = ([98] : List Ut8)) ∧
      (TableFits [98] [97, 98] → rDiffBuffersDistanceOriginal [98] [97, 98] = some d) :=
  original_distance [97, 98] [98] (by decide) (by decide) (by unfold TableFits; decide)

end Radare
