import Mathlib.Data.Fintype.EquivFin
import Mathlib.Data.Fintype.Prod
import Mathlib.Data.List.Basic
import Mathlib.Data.List.GetD
import Mathlib.Tactic.Ring

namespace Radare.Framework

/-- The words `xyz` with `y` given and `z` above `x`, in order. -/
def lyndonRow (k x y : Nat) : List Nat := (List.range' (x + 1) (k - 1 - x)).flatMap (fun z => [x, y, z])

/-- The Lyndon words of length 1 and 3 that start with `x`, in lexicographic order. -/
def lyndonBlock (k x : Nat) : List Nat := x :: (List.range' x (k - x)).flatMap (lyndonRow k x)

/-- All Lyndon words over `k` symbols of a length that divides 3, one after the other. -/
def lyndonSequence (k : Nat) : List Nat := (List.range' 0 k).flatMap (lyndonBlock k)

/-- The window of three symbols at `i`. -/
def window3 {α : Type} (s : List α) (i : Nat) : List α := (s.drop i).take 3

theorem lyndonRow_length (k x y : Nat) : (lyndonRow k x y).length = 3 * (k - 1 - x) := by
  simp [lyndonRow, Nat.mul_comm]

theorem lyndonBlock_length (k x : Nat) :
    (lyndonBlock k x).length = 3 * (k - 1 - x) * (k - x) + 1 := by
  simp [lyndonBlock, lyndonRow_length, Nat.mul_comm]

/-- The blocks from `k - m` on make a cube. -/
theorem lyndonTail_length {k m : Nat} (hm : m ≤ k) :
    ((List.range' (k - m) m).flatMap (lyndonBlock k)).length = m ^ 3 := by
  induction m with
  | zero => rfl
  | succ m ih =>
    rw [List.range'_succ, List.flatMap_cons, List.length_append, lyndonBlock_length,
      show k - (m + 1) + 1 = k - m by omega, ih (by omega), show k - 1 - (k - (m + 1)) = m by omega,
      show k - (k - (m + 1)) = m + 1 by omega]
    ring

theorem lyndonSequence_length (k : Nat) : (lyndonSequence k).length = k ^ 3 := by
  have h := lyndonTail_length (Nat.le_refl k)
  rwa [Nat.sub_self] at h

theorem lyndonSequence_lt {k s : Nat} (h : s ∈ lyndonSequence k) : s < k := by
  simp only [lyndonSequence, lyndonBlock, lyndonRow, List.mem_flatMap, List.mem_range'_1,
    List.mem_cons, List.not_mem_nil, or_false] at h
  obtain ⟨x, hx, rfl | ⟨y, hy, z, hz, rfl | rfl | rfl⟩⟩ := h <;> omega

/-- Two consecutive elements of a range give adjacent parts. -/
theorem pair_infix_flatMap (f : Nat → List Nat) {i s n : Nat} (hs : s ≤ i) (hi : i + 1 < s + n) :
    f i ++ f (i + 1) <:+: (List.range' s n).flatMap f := by
  have hsplit : List.range' s n =
      List.range' s (i - s) ++ (List.range' i 2 ++ List.range' (i + 2) (n - (i - s) - 2)) := by
    have h1 := @List.range'_append_1 i 2 (n - (i - s) - 2)
    have h2 := @List.range'_append_1 s (i - s) (2 + (n - (i - s) - 2))
    rw [show s + (i - s) = i by omega, show i - s + (2 + (n - (i - s) - 2)) = n by omega] at h2
    rw [h1, h2]
  rw [hsplit, List.flatMap_append, List.flatMap_append]
  refine ⟨(List.range' s (i - s)).flatMap f, (List.range' (i + 2) (n - (i - s) - 2)).flatMap f, ?_⟩
  simp [List.range'_succ]

theorem ends_append_starts {a b l m : List Nat} (ha : a <:+ l) (hb : b <+: m) :
    a ++ b <:+: l ++ m := by
  obtain ⟨s, rfl⟩ := ha
  obtain ⟨t, rfl⟩ := hb
  exact ⟨s, t, by simp⟩

theorem lyndonBlock_inside {k x : Nat} (hx : x < k) : lyndonBlock k x <:+: lyndonSequence k :=
  List.infix_flatMap_of_mem (by simp [hx]) _

theorem rows_infix_block (k x : Nat) :
    (List.range' x (k - x)).flatMap (lyndonRow k x) <:+: lyndonBlock k x :=
  (List.suffix_cons x _).isInfix

theorem lyndonRow_inside {k x y : Nat} (hxy : x ≤ y) (hy : y < k) :
    lyndonRow k x y <:+: lyndonSequence k := by
  have hmem : y ∈ List.range' x (k - x) := by
    rw [List.mem_range'_1]
    omega
  have hrow : lyndonRow k x y <:+: (List.range' x (k - x)).flatMap (lyndonRow k x) :=
    List.infix_flatMap_of_mem hmem _
  exact (hrow.trans (rows_infix_block k x)).trans (lyndonBlock_inside (by omega))

theorem lyndonWord_inside {k x y z : Nat} (hxy : x ≤ y) (hy : y < k) (hxz : x < z) (hz : z < k) :
    [x, y, z] <:+: lyndonSequence k := by
  have hmem : z ∈ List.range' (x + 1) (k - 1 - x) := by
    rw [List.mem_range'_1]
    omega
  have hword : [x, y, z] <:+: lyndonRow k x y :=
    List.infix_flatMap_of_mem hmem (fun z => [x, y, z])
  exact hword.trans (lyndonRow_inside hxy hy)

theorem lyndonRow_starts {k x : Nat} (y : Nat) (hx : x + 1 < k) : [x, y, x + 1] <+: lyndonRow k x y := by
  obtain ⟨m, hm⟩ : ∃ m, k - 1 - x = m + 1 := ⟨k - 2 - x, by omega⟩
  rw [lyndonRow, hm, List.range'_succ, List.flatMap_cons]
  exact List.prefix_append _ _

theorem lyndonRow_ends {k x : Nat} (y : Nat) (hx : x + 1 < k) : [x, y, k - 1] <:+ lyndonRow k x y := by
  obtain ⟨m, hm⟩ : ∃ m, k - 1 - x = m + 1 := ⟨k - 2 - x, by omega⟩
  rw [lyndonRow, hm, List.range'_concat, List.flatMap_append, show x + 1 + 1 * m = k - 1 by omega]
  exact List.suffix_append _ _

theorem lyndonBlock_starts {k x : Nat} (hx : x + 1 < k) : [x, x, x, x + 1] <+: lyndonBlock k x := by
  obtain ⟨m, hm⟩ : ∃ m, k - x = m + 1 := ⟨k - 1 - x, by omega⟩
  rw [lyndonBlock, hm, List.range'_succ, List.flatMap_cons, List.cons_prefix_cons]
  exact ⟨rfl, (lyndonRow_starts x hx).trans (List.prefix_append _ _)⟩

theorem lyndonBlock_ends {k x : Nat} (hx : x + 1 < k) : [x, k - 1, k - 1] <:+ lyndonBlock k x := by
  obtain ⟨m, hm⟩ : ∃ m, k - x = m + 1 := ⟨k - 1 - x, by omega⟩
  rw [lyndonBlock, hm, List.range'_concat, List.flatMap_append, show x + 1 * m = k - 1 by omega]
  have hlast : [x, k - 1, k - 1] <:+ List.flatMap (lyndonRow k x) [k - 1] := by
    simpa using lyndonRow_ends (k - 1) hx
  exact (hlast.trans (List.suffix_append _ _)).trans (List.suffix_cons _ _)

/-- Two neighbouring words of a row. -/
theorem neighbour_words {k x y z : Nat} (hxy : x ≤ y) (hy : y < k) (hxz : x < z) (hz : z + 1 < k) :
    [x, y, z, x, y, z + 1] <:+: lyndonSequence k := by
  have hpair : [x, y, z] ++ [x, y, z + 1] <:+: lyndonRow k x y :=
    pair_infix_flatMap (fun z => [x, y, z]) (s := x + 1) (by omega) (by omega)
  exact hpair.trans (lyndonRow_inside hxy hy)

/-- The end of a row and the start of the next. -/
theorem neighbour_rows {k x y : Nat} (hxy : x ≤ y) (hy : y + 1 < k) :
    [x, y, k - 1, x, y + 1, x + 1] <:+: lyndonSequence k := by
  have hpair : lyndonRow k x y ++ lyndonRow k x (y + 1) <:+:
      (List.range' x (k - x)).flatMap (lyndonRow k x) := pair_infix_flatMap _ hxy (by omega)
  have hends : [x, y, k - 1] ++ [x, y + 1, x + 1] <:+: lyndonRow k x y ++ lyndonRow k x (y + 1) :=
    ends_append_starts (lyndonRow_ends y (by omega)) (lyndonRow_starts (y + 1) (by omega))
  exact ((hends.trans hpair).trans (rows_infix_block k x)).trans (lyndonBlock_inside (by omega))

/-- The end of a block and whatever the next block starts with. -/
theorem neighbour_blocks {k x : Nat} {b : List Nat} (hx : x + 1 < k)
    (hb : b <+: lyndonBlock k (x + 1)) : [x, k - 1, k - 1] ++ b <:+: lyndonSequence k := by
  have hpair : lyndonBlock k x ++ lyndonBlock k (x + 1) <:+: lyndonSequence k :=
    pair_infix_flatMap _ (Nat.zero_le x) (by omega)
  exact (ends_append_starts (lyndonBlock_ends hx) hb).trans hpair

theorem lyndonBlock_head (k x : Nat) : [x] <+: lyndonBlock k x := by
  rw [lyndonBlock, List.cons_prefix_cons]
  exact ⟨rfl, List.nil_prefix⟩

/-- The sequence ends with the largest symbol three times. -/
theorem lyndonSequence_ends {k : Nat} (hk : 2 ≤ k) :
    [k - 1, k - 1, k - 1] <:+ lyndonSequence k := by
  obtain ⟨m, rfl⟩ : ∃ m, k = m + 2 := ⟨k - 2, by omega⟩
  have hlast : lyndonBlock (m + 2) (m + 1) = [m + 1] := by
    simp [lyndonBlock, lyndonRow]
  have hseq : lyndonSequence (m + 2) =
      (List.range' 0 m).flatMap (lyndonBlock (m + 2)) ++ (lyndonBlock (m + 2) m ++ [m + 1]) := by
    rw [lyndonSequence, List.range'_concat, List.range'_concat]
    simp [hlast]
  obtain ⟨s, hs⟩ := lyndonBlock_ends (show m + 1 < m + 2 by omega)
  rw [hseq, ← hs]
  exact ⟨(List.range' 0 m).flatMap (lyndonBlock (m + 2)) ++ s ++ [m], by simp⟩

theorem infix_middle {a b c l : List Nat} (h : a ++ b ++ c <:+: l) : b <:+: l :=
  (List.infix_append a b c).trans h

/-- Closed to a circle, the sequence has every window. -/
theorem lyndonSequence_covers {k p q r : Nat} (hk : 2 ≤ k) (hp : p < k) (hq : q < k) (hr : r < k) :
    [p, q, r] <:+: lyndonSequence k ++ [0, 0] := by
  have hin : ∀ {l : List Nat}, l <:+: lyndonSequence k → l <:+: lyndonSequence k ++ [0, 0] :=
    fun h => h.trans (List.prefix_append _ _).isInfix
  have hwrap : [k - 1, k - 1, k - 1, 0, 0] <:+: lyndonSequence k ++ [0, 0] :=
    ends_append_starts (lyndonSequence_ends hk) (List.prefix_refl [0, 0])
  -- which of the three symbols starts the word that the window is a rotation of
  have hrot : (p = q ∧ q = r) ∨ (p ≤ q ∧ p < r) ∨ (r ≤ p ∧ r < q) ∨ (q ≤ r ∧ q < p) := by omega
  rcases hrot with ⟨rfl, rfl⟩ | ⟨hpq, hpr⟩ | ⟨hrp, hrq⟩ | ⟨hqr, hqp⟩
  · by_cases hlast : p + 1 < k
    · have hblock : [p, p, p, p + 1] <:+: lyndonSequence k :=
        (lyndonBlock_starts hlast).isInfix.trans (lyndonBlock_inside hp)
      exact hin (infix_middle (a := []) (c := [p + 1]) hblock)
    · obtain rfl : p = k - 1 := by omega
      exact infix_middle (a := []) (c := [0, 0]) hwrap
  · exact hin (lyndonWord_inside hpq hq hpr hr)
  · by_cases hz : q + 1 < k
    · exact hin (infix_middle (a := [r]) (c := [p, q + 1]) (neighbour_words hrp hp hrq hz))
    · obtain rfl : q = k - 1 := by omega
      by_cases hy : p + 1 < k
      · exact hin (infix_middle (a := [r]) (c := [p + 1, r + 1]) (neighbour_rows hrp hy))
      · obtain rfl : p = k - 1 := by omega
        cases r with
        | zero => exact infix_middle (a := [k - 1]) (c := [0]) hwrap
        | succ x =>
          exact hin (infix_middle (a := [x]) (c := [])
            (neighbour_blocks (by omega) (lyndonBlock_head k (x + 1))))
  · by_cases hz : p + 1 < k
    · exact hin (infix_middle (a := [q, r]) (c := [p + 1]) (neighbour_words hqr hr hqp hz))
    · obtain rfl : p = k - 1 := by omega
      by_cases hy : q < r
      · obtain ⟨y, rfl⟩ : ∃ y, r = y + 1 := ⟨r - 1, by omega⟩
        exact hin (infix_middle (a := [q, y]) (c := [q + 1]) (neighbour_rows (by omega) hr))
      · obtain rfl : q = r := by omega
        cases q with
        | zero => exact infix_middle (a := [k - 1, k - 1]) (c := []) hwrap
        | succ x =>
          exact hin (infix_middle (a := [x, k - 1]) (c := [x + 1, x + 2])
            (neighbour_blocks (by omega) (lyndonBlock_starts (by omega))))

theorem closed_mem_lt {k a : Nat} (hk : 2 ≤ k) (h : a ∈ lyndonSequence k ++ [0, 0]) : a < k := by
  rcases List.mem_append.mp h with hmem | hmem
  · exact lyndonSequence_lt hmem
  · simp only [List.mem_cons, List.not_mem_nil, or_false, or_self] at hmem
    omega

theorem closed_lt {k : Nat} (hk : 2 ≤ k) (i : Nat) : (lyndonSequence k ++ [0, 0]).getD i 0 < k := by
  by_cases hi : i < (lyndonSequence k ++ [0, 0]).length
  · rw [List.getD_eq_getElem _ _ hi]
    exact closed_mem_lt hk (List.getElem_mem hi)
  · rw [List.getD_eq_default _ _ (by omega)]
    omega

theorem window3_getD {s : List Nat} (i : Nat) {c : Nat} (hc : c < 3) :
    (window3 s i).getD c 0 = s.getD (i + c) 0 := by
  simp [window3, List.getD_eq_getElem?_getD, hc]

/-- As many places as windows, and every window occurs: none occurs twice. -/
theorem closed_window3_inj {k i j : Nat} (hk : 2 ≤ k) (hi : i < k ^ 3) (hj : j < k ^ 3)
    (h : window3 (lyndonSequence k ++ [0, 0]) i = window3 (lyndonSequence k ++ [0, 0]) j) :
    i = j := by
  let at' : Nat → Fin k := fun i => ⟨(lyndonSequence k ++ [0, 0]).getD i 0, closed_lt hk i⟩
  let place : Fin (k ^ 3) → Fin k × Fin k × Fin k := fun i => (at' i, at' (i + 1), at' (i + 2))
  have hsurj : Function.Surjective place := by
    intro ⟨p, q, r⟩
    obtain ⟨a, b, hab⟩ := lyndonSequence_covers hk p.isLt q.isLt r.isLt
    have hlen := congrArg List.length hab
    simp only [List.length_append, List.length_cons, List.length_nil, lyndonSequence_length] at hlen
    refine ⟨⟨a.length, by omega⟩, ?_⟩
    simp only [place, at', ← hab]
    simp [List.getD_eq_getElem?_getD]
  have hcard : Fintype.card (Fin (k ^ 3)) = Fintype.card (Fin k × Fin k × Fin k) := by
    simp only [Fintype.card_fin, Fintype.card_prod]
    ring
  have hinj := ((Fintype.bijective_iff_surjective_and_card place).mpr ⟨hsurj, hcard⟩).injective
  have hat : ∀ c < 3, at' (i + c) = at' (j + c) := by
    intro c hc
    have hget := congrArg (fun w : List Nat => w.getD c 0) h
    simp only [window3_getD _ hc] at hget
    exact Fin.ext hget
  have hplace : place ⟨i, hi⟩ = place ⟨j, hj⟩ := by
    simp only [place]
    rw [hat 1 (by omega), hat 2 (by omega), show at' i = at' j from hat 0 (by omega)]
  exact congrArg Fin.val (hinj hplace)

/-- In any prefix of the sequence, written with distinct letters, no window of three occurs twice. -/
theorem window3_take_inj {α : Type} {k n i j : Nat} {f : Nat → α} (hk : 2 ≤ k)
    (hf : ∀ a < k, ∀ b < k, f a = f b → a = b)
    (hi : i + 3 ≤ (((lyndonSequence k).map f).take n).length)
    (hj : j + 3 ≤ (((lyndonSequence k).map f).take n).length)
    (h : window3 (((lyndonSequence k).map f).take n) i =
      window3 (((lyndonSequence k).map f).take n) j) : i = j := by
  have hlen := lyndonSequence_length k
  simp only [List.length_take, List.length_map, hlen] at hi hj
  have hwindow : ∀ i, i + 3 ≤ min n (k ^ 3) → window3 (((lyndonSequence k).map f).take n) i =
      (window3 (lyndonSequence k ++ [0, 0]) i).map f := by
    intro i hi
    rw [window3, window3, List.drop_take, List.take_take, Nat.min_eq_left (by omega),
      List.drop_append_of_le_length (by omega), List.take_append_of_le_length (by simp; omega),
      List.map_take, List.map_drop]
  rw [hwindow i hi, hwindow j hj] at h
  have hlt : ∀ i, ∀ a ∈ window3 (lyndonSequence k ++ [0, 0]) i, a < k := by
    intro i a ha
    exact closed_mem_lt hk (List.mem_of_mem_drop (List.mem_of_mem_take ha))
  apply closed_window3_inj hk (by omega) (by omega)
  apply List.ext_getElem
  · simpa using congrArg List.length h
  · intro n h1 h2
    have hget := congrArg (fun w => w[n]?) h
    simp only [List.getElem?_map, List.getElem?_eq_getElem h1, List.getElem?_eq_getElem h2,
      Option.map_some, Option.some.injEq] at hget
    exact hf _ (hlt i _ (List.getElem_mem h1)) _ (hlt j _ (List.getElem_mem h2)) hget

end Radare.Framework
