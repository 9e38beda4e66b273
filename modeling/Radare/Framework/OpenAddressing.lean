import Mathlib.Data.Fintype.EquivFin
import Mathlib.Data.List.Iterate
import Mathlib.Data.Nat.ModEq
import Mathlib.Data.Nat.Prime.Basic
import Mathlib.Data.List.Perm.Basic
import Mathlib.Data.Nat.Sqrt
import Mathlib.Logic.Function.Iterate

namespace Radare.Framework

section Around

variable {ι ρ : Type} [DecidableEq ι]

/-- A do-while loop over a cycle of places: it ends with the first result of `visit`, or back at `home`. -/
def around (next : ι → ι) (home : ι) (visit : ι → Option ρ) : Nat → ι → Option (Option ρ)
  | 0, _ => none
  | turns + 1, a =>
    match visit a with
    | some r => some (some r)
    | none => if next a = home then some none else around next home visit turns (next a)

/-- The loop visits the places of one round in order. -/
theorem around_round {next : ι → ι} {home : ι} {visit : ι → Option ρ} {n : Nat} (hn : 0 < n)
    (hback : next^[n] home = home) (hfirst : ∀ k, 0 < k → k < n → next^[k] home ≠ home) :
    around next home visit n home = some ((List.iterate next home n).findSome? visit) := by
  suffices h : ∀ m k, 0 < m → k + m = n →
      around next home visit m (next^[k] home) = some ((List.iterate next (next^[k] home) m).findSome? visit) from
    h n 0 hn (Nat.zero_add n)
  intro m
  induction m with
  | zero => exact fun k hm => absurd hm (Nat.lt_irrefl 0)
  | succ m ih =>
    intro k _ hk
    rw [around, List.iterate, List.findSome?_cons]
    cases visit (next^[k] home) with
    | some r => rfl
    | none =>
      dsimp only
      rw [← Function.iterate_succ_apply' next k home]
      by_cases hm : m = 0
      · subst hm
        rw [show k.succ = n from hk, hback, if_pos rfl]
        rfl
      · rw [if_neg (hfirst (k + 1) (Nat.succ_pos k) (by omega))]
        exact ih (k + 1) (Nat.pos_of_ne_zero hm) (by omega)

end Around

section Steps

variable {n : Nat}

/-- The place `d` steps on in a table of `n` places. -/
def stepOn (d : Nat) (a : Fin n) : Fin n := ⟨(a.val + d) % n, Nat.mod_lt _ a.pos⟩

theorem stepOn_iterate (d : Nat) (a : Fin n) (k : Nat) : ((stepOn d)^[k] a).val = (a.val + k * d) % n := by
  induction k with
  | zero => rw [Function.iterate_zero_apply, Nat.zero_mul, Nat.add_zero, Nat.mod_eq_of_lt a.isLt]
  | succ k ih =>
    rw [Function.iterate_succ_apply']
    change (((stepOn d)^[k] a).val + d) % n = _
    rw [ih, Nat.mod_add_mod, Nat.add_assoc, Nat.succ_mul]

theorem stepOn_back (d : Nat) (a : Fin n) : (stepOn d)^[n] a = a := by
  apply Fin.ext
  rw [stepOn_iterate, Nat.add_mul_mod_self_left, Nat.mod_eq_of_lt a.isLt]

variable {d : Nat} (hd : Nat.Coprime d n)
include hd

theorem stepOn_inj {a : Fin n} {j k : Nat} (hj : j < n) (hk : k < n) (h : (stepOn d)^[j] a = (stepOn d)^[k] a) :
    j = k := by
  have hval := congrArg Fin.val h
  rw [stepOn_iterate, stepOn_iterate] at hval
  have hmod : j * d ≡ k * d [MOD n] := Nat.ModEq.add_left_cancel' a.val hval
  exact (Nat.ModEq.cancel_right_of_coprime (Nat.coprime_comm.mp hd) hmod).eq_of_lt_of_lt hj hk

theorem stepOn_first {a : Fin n} {k : Nat} (hpos : 0 < k) (hk : k < n) : (stepOn d)^[k] a ≠ a := fun h =>
  absurd (stepOn_inj hd hk (Nat.lt_trans hpos hk) h) (Nat.ne_of_gt hpos)

/-- Steps of a length with no common divisor with the size reach every place. -/
theorem mem_round (a b : Fin n) : b ∈ List.iterate (stepOn d) a n := by
  have hinj : Function.Injective fun k : Fin n => (stepOn d)^[k.val] a := fun j k h =>
    Fin.ext (stepOn_inj hd j.isLt k.isLt h)
  obtain ⟨k, hk⟩ := Finite.surjective_of_injective hinj b
  exact List.mem_iterate.mpr ⟨k.val, k.isLt, hk.symm⟩

end Steps

/-- Whether none of the `2 ^ j` odd numbers from `k` on divides `n`. -/
def oddClear (n : Nat) : Nat → Nat → Bool
  | 0, k => Nat.ble 1 (n % k)
  | j + 1, k => oddClear n j k && oddClear n j (k + 2 * 2 ^ j)

theorem oddClear_spec {n j k : Nat} (h : oddClear n j k = true) {i : Nat} (hi : i < 2 ^ j) :
    n % (k + 2 * i) ≠ 0 := by
  induction j generalizing k i with
  | zero =>
    obtain rfl : i = 0 := Nat.lt_one_iff.mp hi
    exact Nat.ne_of_gt (Nat.le_of_ble_eq_true h)
  | succ j ih =>
    rw [oddClear, Bool.and_eq_true] at h
    rw [Nat.pow_succ] at hi
    by_cases hlt : i < 2 ^ j
    · exact ih h.1 hlt
    · have hrest := ih h.2 (i := i - 2 ^ j) (by omega)
      rwa [show k + 2 * 2 ^ j + 2 * (i - 2 ^ j) = k + 2 * i by omega] at hrest

/-- Trial division by the odd numbers. -/
theorem prime_of_oddClear {n j : Nat} (hodd : n % 2 = 1) (hn : 3 ≤ n) (hclear : oddClear n j 3 = true)
    (hroot : n < (3 + 2 * 2 ^ j) * (3 + 2 * 2 ^ j)) : n.Prime := by
  rw [Nat.prime_def_le_sqrt]
  refine ⟨Nat.le_of_succ_le hn, fun d hd hle hdvd => ?_⟩
  have hsquare : d * d ≤ n := Nat.le_sqrt.mp hle
  have hlt : d < 3 + 2 * 2 ^ j := by
    by_contra hno
    have := Nat.mul_le_mul (Nat.le_of_not_lt hno) (Nat.le_of_not_lt hno)
    omega
  have hdodd : d % 2 = 1 := by
    by_contra heven
    have htwo : 2 ∣ n := Nat.dvd_trans (Nat.dvd_of_mod_eq_zero (by omega)) hdvd
    omega
  have hno := oddClear_spec hclear (i := (d - 3) / 2) (by omega)
  rw [show 3 + 2 * ((d - 3) / 2) = d by omega] at hno
  exact hno (Nat.mod_eq_zero_of_dvd hdvd)

/-- A place of a table with open addressing. -/
inductive Slot (κ ν : Type)
  | free
  | deleted
  | present (key : κ) (value : ν)

namespace Slot

variable {κ ν : Type}

def pair : Slot κ ν → Option (κ × ν)
  | present k v => some (k, v)
  | _ => none

def isDeleted : Slot κ ν → Bool
  | deleted => true
  | _ => false

theorem pair_eq_some {s : Slot κ ν} {k : κ} {v : ν} : s.pair = some (k, v) ↔ s = present k v := by
  cases s with
  | free => exact ⟨nofun, nofun⟩
  | deleted => exact ⟨nofun, nofun⟩
  | present k' v' =>
    constructor
    · intro h
      cases h
      rfl
    · intro h
      cases h
      rfl

end Slot

section Slots

variable {ι κ ν : Type} [DecidableEq ι] {order : κ → List ι} {t : ι → Slot κ ν} {k : κ} {v : ν} {a : ι}

/-- The round of a key has no free place before the entry of the key. -/
def NoGap (order : κ → List ι) (t : ι → Slot κ ν) : Prop :=
  ∀ a k v, t a = .present k v → ∀ b ∈ (order k).takeWhile (· ≠ a), t b ≠ .free

def Single (t : ι → Slot κ ν) : Prop := ∀ a b k v w, t a = .present k v → t b = .present k w → a = b

/-- A search ends at a free place and at the entry of the key. -/
def seekVisit [DecidableEq κ] (t : ι → Slot κ ν) (k : κ) (a : ι) : Option (Option ι) :=
  match t a with
  | .free => some none
  | .deleted => none
  | .present k' _ => if k' = k then some (some a) else none

/-- An insertion ends at the first place without an entry. -/
def roomVisit (t : ι → Slot κ ν) (a : ι) : Option ι :=
  match t a with
  | .present _ _ => none
  | _ => some a

theorem takeWhile_ne {pre suf : List ι} (ha : a ∉ pre) : (pre ++ a :: suf).takeWhile (· ≠ a) = pre := by
  have hall : ∀ b ∈ pre, decide (b ≠ a) = true := fun b hb => decide_eq_true fun h => ha (h ▸ hb)
  rw [List.takeWhile_append_of_pos hall, List.takeWhile_cons_of_neg (by simp), List.append_nil]

theorem seek_found [DecidableEq κ] (hgap : NoGap order t) (hsingle : Single t) (hmem : a ∈ order k)
    (ha : t a = .present k v) : (order k).findSome? (seekVisit t k) = some (some a) := by
  obtain ⟨pre, suf, horder, hpre⟩ := List.eq_append_cons_of_mem hmem
  have hbefore := hgap a k v ha
  rw [horder, takeWhile_ne hpre] at hbefore
  rw [horder, List.findSome?_append, List.findSome?_eq_none_iff.mpr, Option.none_or, List.findSome?_cons]
  · rw [seekVisit, ha]
    dsimp only
    rw [if_pos rfl]
  · intro b hb
    have hfree := hbefore b hb
    rw [seekVisit]
    cases hslot : t b with
    | free => exact absurd hslot hfree
    | deleted => rfl
    | present k' w =>
      dsimp only
      refine if_neg fun hk => ?_
      subst hk
      exact hpre (hsingle b a k' w v hslot ha ▸ hb)

omit [DecidableEq ι] in
theorem seek_absent [DecidableEq κ] (h : ∀ a v, t a ≠ .present k v) :
    ((order k).findSome? (seekVisit t k)).join = none := by
  rw [Option.join_eq_none_iff]
  cases hfound : (order k).findSome? (seekVisit t k) with
  | none => exact .inl rfl
  | some r =>
    obtain ⟨b, _, hb⟩ := List.exists_of_findSome?_eq_some hfound
    rw [seekVisit] at hb
    cases hslot : t b with
    | free =>
      rw [hslot] at hb
      exact .inr hb.symm
    | deleted =>
      rw [hslot] at hb
      cases hb
    | present k' w =>
      rw [hslot] at hb
      dsimp only at hb
      split_ifs at hb with hk
      subst hk
      exact absurd hslot (h b w)

omit [DecidableEq ι] in
theorem roomVisit_eq_some {b : ι} (h : roomVisit t a = some b) : b = a ∧ (t a).pair = none := by
  rw [roomVisit] at h
  cases hslot : t a with
  | free =>
    rw [hslot] at h
    exact ⟨(Option.some.inj h).symm, rfl⟩
  | deleted =>
    rw [hslot] at h
    exact ⟨(Option.some.inj h).symm, rfl⟩
  | present k v =>
    rw [hslot] at h
    cases h

omit [DecidableEq ι] in
theorem roomVisit_eq_none (h : roomVisit t a = none) : ∃ k v, t a = .present k v := by
  rw [roomVisit] at h
  cases hslot : t a with
  | free =>
    rw [hslot] at h
    cases h
  | deleted =>
    rw [hslot] at h
    cases h
  | present k v => exact ⟨k, v, rfl⟩

omit [DecidableEq ι] in
theorem room_found {l : List ι} (hmem : a ∈ l) (ha : (t a).pair = none) :
    ∃ b ∈ l, l.findSome? (roomVisit t) = some b ∧ (t b).pair = none := by
  cases hfound : l.findSome? (roomVisit t) with
  | none =>
    obtain ⟨k, v, hslot⟩ := roomVisit_eq_none (List.findSome?_eq_none_iff.mp hfound a hmem)
    rw [hslot] at ha
    cases ha
  | some b =>
    obtain ⟨c, hc, hb⟩ := List.exists_of_findSome?_eq_some hfound
    obtain ⟨rfl, hnone⟩ := roomVisit_eq_some hb
    exact ⟨b, hc, rfl, hnone⟩

theorem NoGap.insert (hgap : NoGap order t) (hroom : (order k).findSome? (roomVisit t) = some a) :
    NoGap order (Function.update t a (.present k v)) := by
  obtain ⟨pre, c, suf, horder, hc, hpre⟩ := List.findSome?_eq_some_iff.mp hroom
  obtain ⟨rfl, hnone⟩ := roomVisit_eq_some hc
  have hnot : a ∉ pre := fun hmem => by
    obtain ⟨k', w, hslot⟩ := roomVisit_eq_none (hpre a hmem)
    rw [hslot] at hnone
    cases hnone
  intro b k' w hb c hcmem
  by_cases hca : c = a
  · subst hca
    rw [Function.update_self]
    exact nofun
  · rw [Function.update_of_ne hca]
    by_cases hba : b = a
    · subst hba
      rw [Function.update_self] at hb
      cases hb
      rw [horder, takeWhile_ne hnot] at hcmem
      obtain ⟨k', w, hslot⟩ := roomVisit_eq_none (hpre c hcmem)
      rw [hslot]
      exact nofun
    · rw [Function.update_of_ne hba] at hb
      exact hgap b k' w hb c hcmem

theorem NoGap.delete (hgap : NoGap order t) (a : ι) : NoGap order (Function.update t a .deleted) := by
  intro b k' w hb c hcmem
  by_cases hba : b = a
  · subst hba
    rw [Function.update_self] at hb
    cases hb
  · rw [Function.update_of_ne hba] at hb
    by_cases hca : c = a
    · subst hca
      rw [Function.update_self]
      exact nofun
    · rw [Function.update_of_ne hca]
      exact hgap b k' w hb c hcmem

theorem noGap_free : NoGap order fun _ => (.free : Slot κ ν) := nofun

/-- The entries of a table, in the order of its places. -/
def entriesOf (places : List ι) (t : ι → Slot κ ν) : List (κ × ν) := places.filterMap fun a => (t a).pair

def deletedOf (places : List ι) (t : ι → Slot κ ν) : Nat := places.countP fun a => (t a).isDeleted

variable {places : List ι}

omit [DecidableEq ι] in
theorem mem_entriesOf : (k, v) ∈ entriesOf places t ↔ ∃ a ∈ places, t a = .present k v := by
  rw [entriesOf, List.mem_filterMap]
  simp only [Slot.pair_eq_some]

omit [DecidableEq ι] in
theorem exists_room (places : List ι) (t : ι → Slot κ ν) (h : (entriesOf places t).length < places.length) : ∃ a ∈ places, (t a).pair = none := by
  by_contra hno
  push Not at hno
  refine absurd h (Nat.not_lt.mpr (Nat.le_of_eq ?_))
  clear h
  induction places with
  | nil => rfl
  | cons a places ih =>
    obtain ⟨e, he⟩ := Option.ne_none_iff_exists'.mp (hno a List.mem_cons_self)
    have hcons : entriesOf (a :: places) t = e :: entriesOf places t := List.filterMap_cons_some he
    rw [hcons, List.length_cons, List.length_cons]
    exact congrArg Nat.succ (ih fun b hb => hno b (List.mem_cons_of_mem a hb))

omit [DecidableEq ι] in
theorem deletedOf_add_entriesOf_le (places : List ι) (t : ι → Slot κ ν) :
    deletedOf places t + (entriesOf places t).length ≤ places.length := by
  induction places with
  | nil => exact Nat.le_refl 0
  | cons a places ih =>
    have hone : (t a).isDeleted.toNat + (t a).pair.toList.length ≤ 1 := by
      cases t a with
      | free => exact Nat.zero_le 1
      | deleted => exact Nat.le_refl 1
      | present k v => exact Nat.le_refl 1
    have hcount : deletedOf (a :: places) t = deletedOf places t + (t a).isDeleted.toNat := by
      rw [deletedOf, List.countP_cons]
      cases (t a).isDeleted <;> rfl
    have hlen : (entriesOf (a :: places) t).length = (entriesOf places t).length + (t a).pair.toList.length := by
      rw [entriesOf, List.filterMap_cons]
      cases (t a).pair <;> rfl
    rw [hcount, hlen, List.length_cons]
    omega

variable (hnodup : places.Nodup) (ha : a ∈ places)
include hnodup ha

theorem entriesOf_update (s : Slot κ ν) :
    (entriesOf places (Function.update t a s)).Perm (s.pair.toList ++ entriesOf (places.erase a) t) := by
  refine ((List.perm_cons_erase ha).filterMap _).trans ?_
  have hrest : (places.erase a).filterMap (fun b => (Function.update t a s b).pair) = entriesOf (places.erase a) t :=
    List.filterMap_congr fun b hb => by rw [Function.update_of_ne (hnodup.mem_erase_iff.mp hb).1]
  rw [List.filterMap_cons, hrest, Function.update_self]
  cases s.pair <;> exact .refl _

theorem deletedOf_update (s : Slot κ ν) :
    deletedOf places (Function.update t a s) = s.isDeleted.toNat + deletedOf (places.erase a) t := by
  have hrest : (places.erase a).countP (fun b => (Function.update t a s b).isDeleted) =
      deletedOf (places.erase a) t :=
    List.countP_congr fun b hb => by rw [Function.update_of_ne (hnodup.mem_erase_iff.mp hb).1]
  rw [deletedOf, (List.perm_cons_erase ha).countP_eq, List.countP_cons, hrest, Function.update_self, Nat.add_comm]
  cases s.isDeleted <;> rfl

theorem entriesOf_split : (entriesOf places t).Perm ((t a).pair.toList ++ entriesOf (places.erase a) t) := by
  simpa only [Function.update_eq_self] using entriesOf_update (t := t) hnodup ha (t a)

theorem deletedOf_split : deletedOf places t = (t a).isDeleted.toNat + deletedOf (places.erase a) t := by
  simpa only [Function.update_eq_self] using deletedOf_update (t := t) hnodup ha (t a)

omit ha in
theorem single_of_nodup (hall : ∀ a, a ∈ places) (hkeys : ((entriesOf places t).map Prod.fst).Nodup) : Single t := by
  intro a b k v w ha hb
  by_contra hne
  have hba : b ∈ places.erase a := hnodup.mem_erase_iff.mpr ⟨fun h => hne h.symm, hall b⟩
  have hfirst := entriesOf_split (t := t) hnodup (hall a)
  have hsecond := entriesOf_split (t := t) (hnodup.erase a) hba
  rw [ha] at hfirst
  rw [hb] at hsecond
  have hperm := (hfirst.trans (hsecond.append_left _)).map Prod.fst
  have hno := hperm.nodup hkeys
  simp [Slot.pair] at hno

end Slots

end Radare.Framework
