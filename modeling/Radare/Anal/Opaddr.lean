import Radare.Anal.Block
import Radare.Anal.FcnMembership

namespace Radare

open Framework

variable {bb : RAnalBb} {offs : List Ut16} {off : Ut64}

theorem isInOffset_iff {b : RAnalBlock} (h0 : 0 ≤ b.size) (hlt : b.size < 2147483648) (off : Ut64) :
    rAnalBbIsInOffset b off = true ↔ b.Contains off ∧ b.addr.toNat + b.size.toNat < 18446744073709551616 := by
  have hoff := off.isLt
  have haddr := b.addr.isLt
  have hsize : (BitVec.ofInt 64 b.size).toNat = b.size.toNat := by
    rw [BitVec.toNat_ofInt]
    omega
  rw [rAnalBbIsInOffset, decide_eq_true_iff, BitVec.le_def, BitVec.lt_def, BitVec.toNat_add, hsize, RAnalBlock.Contains]
  omega

theorem toNat_delta {b : RAnalBlock} (h : b.Contains off) (hlt : b.size < 65536) :
    ((off - b.addr).setWidth 16).toNat = off.toNat - b.addr.toNat := by
  obtain ⟨hle, hend⟩ := h
  rw [BitVec.toNat_setWidth, BitVec.toNat_sub_of_le (by rw [BitVec.le_def]; exact hle)]
  omega

/-- The offset of an instruction that does not start behind the one looked for. -/
def notBehind (delta : Ut16) (v : Ut16) : Bool := decide (v ≤ delta)

theorem notBehind_iff (delta v : Ut16) : notBehind delta v = true ↔ v.toNat ≤ delta.toNat := by
  rw [notBehind, decide_eq_true_iff, BitVec.le_def]

/-- The loop gives the last instruction before the first one behind the offset, if there is such. -/
theorem opaddrLoop_spec (pre : List Ut16) {post : List Ut16} (h : bb.Records (pre ++ post)) (delta last : Ut16) (fuel : Nat)
    (hf : post.length < fuel) :
    opaddrLoop bb delta fuel pre.length last =
      some (if post.dropWhile (notBehind delta) = [] then ut64Max
        else bb.addr + (lastMark (notBehind delta) last post).setWidth 64) := by
  induction post generalizing pre last fuel with
  | nil =>
    obtain ⟨m, rfl⟩ : ∃ m, fuel = m + 1 := ⟨fuel - 1, by rw [List.length_nil] at hf; omega⟩
    have hn := h.ninstr
    rw [List.append_nil] at hn
    rw [opaddrLoop, if_neg (by omega)]
    rfl
  | cons v post ih =>
    obtain ⟨m, rfl⟩ : ∃ m, fuel = m + 1 := ⟨fuel - 1, by rw [List.length_cons] at hf; omega⟩
    obtain ⟨hlt, hread⟩ := h.next
    rw [opaddrLoop, if_pos hlt, hread]
    simp only [Option.bind_eq_bind, Option.bind_some]
    by_cases hv : notBehind delta v = true
    · have hle := (notBehind_iff delta v).mp hv
      rw [if_neg (by rw [BitVec.lt_def]; omega), List.dropWhile_cons_of_pos hv, lastMark_cons_pos hv]
      rw [List.append_cons] at h
      have hrest := ih _ h v m (by rw [List.length_cons] at hf; omega)
      rwa [List.length_append, List.length_singleton, Int.natCast_add] at hrest
    · have hgt : delta < v := by
        rw [notBehind_iff] at hv
        rw [BitVec.lt_def]
        omega
      rw [if_pos hgt, List.dropWhile_cons_of_neg hv, lastMark_cons_neg hv, if_neg (List.cons_ne_nil _ _)]

/-- The answer for an address: the start of the instruction that the greatest offset not above it
tells of, or the mark for an address outside. -/
def OpaddrRight (bb : RAnalBb) (offs : List Ut16) (off : Ut64) : Prop :=
  ∃ a, rAnalBbOpaddrAt bb off = some a ∧
    if bb.Contains off then
      ∃ v ∈ offs, v.toNat ≤ off.toNat - bb.addr.toNat ∧
        (∀ w ∈ offs, w.toNat ≤ off.toNat - bb.addr.toNat → w.toNat ≤ v.toNat) ∧
        a.toNat = bb.addr.toNat + v.toNat
    else a = ut64Max

/-- Some instruction starts behind the address, in a block below the top of the address space; or the
instruction at the address is itself at the address that marks a failure. -/
def OpaddrFound (b : RAnalBlock) (offs : List Ut16) (off : Ut64) : Prop :=
  b.Contains off →
    (b.addr.toNat + b.size.toNat < 18446744073709551616 ∧ ∃ v ∈ offs, off.toNat - b.addr.toNat < v.toNat) ∨
      (off = ut64Max ∧ ∃ v ∈ offs, v.toNat = off.toNat - b.addr.toNat)

/-- An answer that is the mark for a failure is right only for an instruction at that address. -/
theorem opaddr_max {b : RAnalBlock} (hin : b.Contains off) :
    (∃ v ∈ offs, v.toNat ≤ off.toNat - b.addr.toNat ∧
        (∀ w ∈ offs, w.toNat ≤ off.toNat - b.addr.toNat → w.toNat ≤ v.toNat) ∧
        ut64Max.toNat = b.addr.toNat + v.toNat) ↔
      off = ut64Max ∧ ∃ v ∈ offs, v.toNat = off.toNat - b.addr.toNat := by
  have hle := hin.1
  have hoff := off.isLt
  rw [eq_ut64Max_iff, toNat_ut64Max]
  constructor
  · intro h
    obtain ⟨v, hv, hbelow, _, hsum⟩ := h
    exact ⟨by omega, v, hv, by omega⟩
  · intro h
    obtain ⟨hmax, v, hv, hsame⟩ := h
    exact ⟨v, hv, by omega, fun w _ hw => by omega, by omega⟩

/-- Inside a block below the top of the address space: the instruction that the greatest offset not
above the address tells of, unless none starts behind it. -/
theorem opaddrAt_inside (hrec : bb.Records offs) (hlt : bb.size < 65536) (hfirst : offs.head? = some 0)
    (hinc : offs.Pairwise (fun a b => a.toNat < b.toNat)) (hin : bb.Contains off)
    (hinside : rAnalBbIsInOffset bb.toRAnalBlock off = true) :
    ∃ u ∈ offs, u.toNat ≤ off.toNat - bb.addr.toNat ∧
      (∀ w ∈ offs, w.toNat ≤ off.toNat - bb.addr.toNat → w.toNat ≤ u.toNat) ∧
      rAnalBbOpaddrAt bb off =
        some (if ∃ v ∈ offs, off.toNat - bb.addr.toNat < v.toNat then bb.addr + u.setWidth 64 else ut64Max) := by
  obtain ⟨rest, rfl⟩ : ∃ rest, offs = 0 :: rest := by
    cases offs with
    | nil => cases hfirst
    | cons a rest => exact ⟨rest, by rw [Option.some.inj hfirst]⟩
  have hdelta := toNat_delta hin hlt
  have hn := hrec.ninstr
  have hloop := opaddrLoop_spec [] hrec ((off - bb.addr).setWidth 16) 0 (bb.ninstr.toNat + 1)
    (by omega)
  rw [List.length_nil, Int.natCast_zero] at hloop
  rw [rAnalBbOpaddrAt, if_pos hinside, hloop]
  generalize (off - bb.addr).setWidth 16 = delta at hdelta
  have hzero : notBehind delta 0 = true := (notBehind_iff _ _).mpr (Nat.zero_le _)
  have hmono : ∀ a b : Ut16, a.toNat < b.toNat → notBehind delta b = true → notBehind delta a = true := by
    intro a b hab hb
    rw [notBehind_iff] at hb ⊢
    omega
  obtain ⟨hmem, hbelow, hgreatest⟩ := lastMark_spec hzero hinc hmono
  rw [notBehind_iff, hdelta] at hbelow
  rw [lastMark_cons_pos hzero]
  refine ⟨_, hmem, hbelow, fun w hw hle => ?_, congrArg some ?_⟩
  · rcases hgreatest w hw ((notBehind_iff _ _).mpr (by omega)) with heq | hless
    · exact Nat.le_of_eq (congrArg BitVec.toNat heq)
    · exact Nat.le_of_lt hless
  · have hnil : (0 :: rest).dropWhile (notBehind delta) = [] ↔
        ¬∃ v ∈ (0 : Ut16) :: rest, off.toNat - bb.addr.toNat < v.toNat := by
      rw [List.dropWhile_eq_nil_iff]
      push Not
      simp only [notBehind_iff, hdelta]
    simp only [hnil, ite_not]

/-- For instructions recorded in order the lookup is right on an address exactly when the condition
holds. -/
theorem opaddr_iff (bb : RAnalBb) (offs : List Ut16) (hstart : bb.ninstr = 0) (hsize : 0 ≤ bb.size)
    (hlt : bb.size < 65536) (hfirst : offs.head? = some 0)
    (hinc : offs.Pairwise (fun a b => a.toNat < b.toNat)) (off : Ut64) :
    OpaddrRight (offs.foldl recordInstr bb) offs off ↔ OpaddrFound bb.toRAnalBlock offs off := by
  have hoffs : Offsets offs := ⟨hinc, fun v hv => by rw [hfirst] at hv; exact (Option.mem_some_iff.mp hv).symm⟩
  have hrec := recordInstrs_records bb (RAnalBb.Records.nil hstart) (List.nil_append offs ▸ hoffs)
  rw [List.nil_append] at hrec
  have hblock := (recordInstrs_other bb offs).1
  generalize offs.foldl recordInstr bb = bb' at hrec hblock
  rw [← hblock] at hsize hlt ⊢
  have hinside := isInOffset_iff hsize (by omega) off
  unfold OpaddrRight OpaddrFound
  by_cases hin : bb'.Contains off
  · simp only [hin, forall_const, if_true]
    by_cases hwrap : bb'.addr.toNat + bb'.size.toNat < 18446744073709551616
    · obtain ⟨u, hu, hbelow, hgreatest, hres⟩ :=
        opaddrAt_inside hrec hlt hfirst hinc hin (hinside.mpr ⟨hin, hwrap⟩)
      rw [hres]
      simp only [Option.some.injEq, exists_eq_left']
      by_cases hlater : ∃ v ∈ offs, off.toNat - bb'.addr.toNat < v.toNat
      · rw [if_pos hlater]
        refine ⟨fun _ => Or.inl ⟨hwrap, hlater⟩, fun _ => ⟨u, hu, hbelow, hgreatest, ?_⟩⟩
        have hle := hin.1
        have hend := hin.2
        rw [BitVec.toNat_add, BitVec.toNat_setWidth]
        omega
      · -- no instruction starts behind the address: the loop runs out
        rw [if_neg hlater, opaddr_max hin]
        exact ⟨Or.inr, fun h => h.resolve_left (fun h => hlater h.2)⟩
    · rw [rAnalBbOpaddrAt, if_neg (fun h => hwrap (hinside.mp h).2)]
      simp only [Option.some.injEq, exists_eq_left', opaddr_max hin, hwrap, false_and, false_or]
  · rw [rAnalBbOpaddrAt, if_neg (fun h => hin (hinside.mp h).1)]
    simp [hin]

/-- A block of eight bytes with instructions at 0, 3 and 5. -/
def threeInstrs : RAnalBb := { rAnalBbNew with addr := 0x1000, size := 8 }

/-- The second instruction is found by the start of the third. -/
theorem opaddr_iff_second : OpaddrRight ([0, 3, 5].foldl recordInstr threeInstrs) [0, 3, 5] 0x1004 :=
  (opaddr_iff threeInstrs [0, 3, 5] rfl (by decide) (by decide) rfl (by decide) 0x1004).mpr
    (fun _ => Or.inl ⟨by decide, 5, by decide, by decide⟩)

/-- The last instruction is not found. -/
theorem opaddr_misses_last :
    threeInstrs.Contains 0x1006 ∧ rAnalBbOpaddrAt ([0, 3, 5].foldl recordInstr threeInstrs) 0x1006 = some ut64Max ∧
      ¬OpaddrRight ([0, 3, 5].foldl recordInstr threeInstrs) [0, 3, 5] 0x1006 := by
  have hres : rAnalBbOpaddrAt ([0, 3, 5].foldl recordInstr threeInstrs) 0x1006 = some ut64Max := by decide +kernel
  refine ⟨by decide, hres, fun hright => ?_⟩
  obtain ⟨a, ha, hright⟩ := hright
  rw [hres] at ha
  cases ha
  rw [(recordInstrs_other threeInstrs _).1, if_pos (by decide)] at hright
  obtain ⟨v, _, _, _, hsum⟩ := hright
  have haddr : threeInstrs.addr.toNat = 4096 := by decide
  have hv := v.isLt
  rw [toNat_ut64Max, haddr] at hsum
  omega

end Radare
