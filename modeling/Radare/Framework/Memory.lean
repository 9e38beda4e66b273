import Mathlib.Logic.Function.Basic
import Mathlib.Tactic.Common
import Radare.Framework.MachineInt

namespace Radare.Overlay

variable {A B : Type} (next : A → A)

def read (m : A → B) : A → Nat → List B
  | _, 0 => []
  | a, n + 1 => m a :: read m (next a) n

theorem read_length (m : A → B) (a : A) (n : Nat) : (read next m a n).length = n := by
  induction n generalizing a with
  | zero => rfl
  | succ n ih => simp [read, ih]

variable [DecidableEq A]

/-- Cells `a, next a, …` are overwritten in order by the block. -/
def write : (A → B) → A → List B → A → B
  | m, _, [] => m
  | m, a, b :: bs => write (Function.update m a b) (next a) bs

/-- What a block leaves at a cell. Where the block meets itself its later byte counts. -/
def patch : A → List B → A → Option B
  | _, [], _ => none
  | a, b :: bs, x => (patch (next a) bs x).or (if x = a then some b else none)

def writes (m : A → B) (ws : List (A × List B)) : A → B :=
  ws.foldl (fun m w => write next m w.1 w.2) m

/-- The byte of the last block that covers the cell. -/
def lastPatch (ws : List (A × List B)) (x : A) : Option B :=
  ws.foldl (fun acc w => (patch next w.1 w.2 x).or acc) none

/-- The byte of the first block that covers the cell. -/
def firstPatch (ws : List (A × List B)) (x : A) : Option B :=
  ws.findSome? (fun w => patch next w.1 w.2 x)

theorem write_apply (m : A → B) (a : A) (bs : List B) (x : A) :
    write next m a bs x = (patch next a bs x).getD (m x) := by
  induction bs generalizing m a with
  | nil => rfl
  | cons b bs ih =>
    rw [write, ih, patch]
    cases hp : patch next (next a) bs x with
    | some c => rfl
    | none =>
      by_cases hx : x = a
      · subst hx; simp
      · simp [hx]

theorem patch_isSome_congr (a : A) (bs cs : List B) (hl : bs.length = cs.length) (x : A) :
    (patch next a bs x).isSome = (patch next a cs x).isSome := by
  induction bs generalizing a cs with
  | nil =>
    have hc : cs = [] := List.eq_nil_of_length_eq_zero (by simpa using hl.symm)
    rw [hc]
  | cons b bs ih =>
    cases cs with
    | nil => simp at hl
    | cons c cs =>
      have h := ih (next a) cs (by simpa using hl)
      simp only [patch, Option.isSome_or, h]
      by_cases hx : x = a <;> simp [hx]

/-- A block that was read from `m` stores the bytes of `m`. -/
theorem patch_read (m : A → B) (a : A) (n : Nat) (x : A) (b : B)
    (h : patch next a (read next m a n) x = some b) : b = m x := by
  induction n generalizing a with
  | zero => simp [read, patch] at h
  | succ n ih =>
    rw [read, patch] at h
    cases hp : patch next (next a) (read next m (next a) n) x with
    | some c =>
      rw [hp] at h
      have hc : c = b := by simpa using h
      subst hc
      exact ih (next a) hp
    | none =>
      rw [hp] at h
      by_cases hx : x = a
      · subst hx; simpa [eq_comm] using h
      · simp [hx] at h

/-- Writing back the bytes read before a write undoes the write. -/
theorem write_read_restore (m : A → B) (a : A) (bs : List B) :
    write next (write next m a bs) a (read next m a bs.length) = m := by
  funext x
  rw [write_apply, write_apply]
  have hc := patch_isSome_congr next a (read next m a bs.length) bs (read_length next m a _) x
  cases hr : patch next a (read next m a bs.length) x with
  | some b => exact patch_read next m a _ x b hr
  | none =>
    rw [hr] at hc
    have hb : patch next a bs x = none := by simpa using hc.symm
    simp [hb]

theorem foldl_patch_or (ws : List (A × List B)) (x : A) (acc : Option B) :
    ws.foldl (fun acc w => (patch next w.1 w.2 x).or acc) acc = (lastPatch next ws x).or acc := by
  induction ws generalizing acc with
  | nil => rfl
  | cons w ws ih =>
    simp only [lastPatch, List.foldl_cons]
    rw [ih, ih, Option.or_assoc]
    simp

theorem lastPatch_append (ws : List (A × List B)) (w : A × List B) (x : A) :
    lastPatch next (ws ++ [w]) x = (patch next w.1 w.2 x).or (lastPatch next ws x) := by
  simp [lastPatch]

theorem lastPatch_cons (w : A × List B) (ws : List (A × List B)) (x : A) :
    lastPatch next (w :: ws) x = (lastPatch next ws x).or (patch next w.1 w.2 x) := by
  rw [lastPatch, List.foldl_cons, foldl_patch_or]
  simp

theorem lastPatch_eq_none (ws : List (A × List B)) (x : A)
    (h : ∀ w ∈ ws, patch next w.1 w.2 x = none) : lastPatch next ws x = none := by
  induction ws with
  | nil => rfl
  | cons w ws ih =>
    rw [lastPatch_cons, ih (fun v hv => h v (by simp [hv])), h w (by simp)]
    rfl

/-- The last block that covers a cell decides it. -/
theorem writes_apply (m : A → B) (ws : List (A × List B)) (x : A) :
    writes next m ws x = (lastPatch next ws x).getD (m x) := by
  induction ws generalizing m with
  | nil => rfl
  | cons w ws ih =>
    rw [writes, List.foldl_cons, lastPatch_cons]
    change writes next (write next m w.1 w.2) ws x = _
    rw [ih, write_apply]
    cases lastPatch next ws x <;> rfl

theorem lastPatch_append_list (ws vs : List (A × List B)) (x : A) :
    lastPatch next (ws ++ vs) x = (lastPatch next vs x).or (lastPatch next ws x) := by
  rw [lastPatch, List.foldl_append, foldl_patch_or]
  rfl

theorem patch_eq_none_of_lastPatch {ws : List (A × List B)} {x : A} (h : lastPatch next ws x = none) :
    ∀ w ∈ ws, patch next w.1 w.2 x = none := by
  induction ws with
  | nil => simp
  | cons w ws ih =>
    rw [lastPatch_cons, Option.or_eq_none_iff] at h
    intro v hv
    obtain rfl | hv := List.mem_cons.mp hv
    · exact h.2
    · exact ih h.1 v hv

/-- Blocks that agree on a cell one of them covers leave that byte there. -/
theorem lastPatch_eq_some {ws : List (A × List B)} {x : A} {b : B}
    (hsome : ∃ w ∈ ws, (patch next w.1 w.2 x).isSome)
    (hall : ∀ w ∈ ws, ∀ c, patch next w.1 w.2 x = some c → c = b) : lastPatch next ws x = some b := by
  induction ws with
  | nil =>
    obtain ⟨w, hw, -⟩ := hsome
    cases hw
  | cons w ws ih =>
    have htail : ∀ v ∈ ws, ∀ c, patch next v.1 v.2 x = some c → c = b :=
      fun v hv => hall v (List.mem_cons_of_mem w hv)
    rw [lastPatch_cons]
    by_cases hrest : ∃ v ∈ ws, (patch next v.1 v.2 x).isSome
    · rw [ih hrest htail, Option.some_or]
    · have hnone : lastPatch next ws x = none := by
        apply lastPatch_eq_none
        intro v hv
        by_contra hne
        exact hrest ⟨v, hv, Option.isSome_iff_ne_none.mpr hne⟩
      obtain ⟨v, hv, hvs⟩ := hsome
      rcases List.mem_cons.mp hv with heq | hv
      · obtain ⟨c, hc⟩ := Option.isSome_iff_exists.mp hvs
        rw [heq] at hc
        rw [hnone, Option.none_or, hc, hall w (by simp) c hc]
      · exact absurd ⟨v, hv, hvs⟩ hrest

theorem lastPatch_reverse (ws : List (A × List B)) (x : A) :
    lastPatch next ws.reverse x = firstPatch next ws x := by
  induction ws with
  | nil => rfl
  | cons w ws ih =>
    rw [List.reverse_cons, lastPatch_append, ih, firstPatch, firstPatch, List.findSome?_cons]
    cases patch next w.1 w.2 x <;> rfl

theorem firstPatch_isSome (ws : List (A × List B)) (x : A) :
    (firstPatch next ws x).isSome = (lastPatch next ws x).isSome := by
  induction ws with
  | nil => rfl
  | cons w ws ih =>
    rw [lastPatch_cons, firstPatch, List.findSome?_cons, Option.isSome_or, ← ih]
    cases patch next w.1 w.2 x <;> simp [firstPatch]

end Radare.Overlay

namespace Radare

/-- Memory addresses follow each other modulo `2^64`. -/
def nextAddr (a : Ut64) : Ut64 := a + 1

def memWrite (m : Ut64 → Ut8) (a : Ut64) (bs : List Ut8) : Ut64 → Ut8 :=
  Overlay.write nextAddr m a bs

def memRead (m : Ut64 → Ut8) (a : Ut64) (n : Nat) : List Ut8 := Overlay.read nextAddr m a n

/-- A block shorter than the address space is met at the distance from its start. -/
theorem patch_nextAddr {B : Type} (a : Ut64) (bs : List B) (x : Ut64)
    (hl : bs.length ≤ 18446744073709551616) :
    Overlay.patch nextAddr a bs x = bs[(x - a).toNat]? := by
  induction bs generalizing a with
  | nil => simp [Overlay.patch]
  | cons b bs ih =>
    simp only [List.length_cons] at hl
    rw [Overlay.patch, ih (nextAddr a) (by omega)]
    by_cases hx : x = a
    · subst hx
      have hd : (x - nextAddr x).toNat = 18446744073709551615 := by
        unfold nextAddr
        bv_omega
      have hnone : bs[(x - nextAddr x).toNat]? = none := by
        rw [hd]
        exact List.getElem?_eq_none (by omega)
      rw [hnone, Option.none_or, if_pos rfl, BitVec.sub_self]
      rfl
    · have hd : (x - a).toNat = (x - nextAddr a).toNat + 1 := by
        unfold nextAddr
        bv_omega
      rw [hd, List.getElem?_cons_succ, if_neg hx, Option.or_none]

theorem memRead_length (m : Ut64 → Ut8) (a : Ut64) (n : Nat) : (memRead m a n).length = n :=
  Overlay.read_length nextAddr m a n

theorem memWrite_apply (m : Ut64 → Ut8) (a : Ut64) (bs : List Ut8) (x : Ut64)
    (hl : bs.length ≤ 18446744073709551616) :
    memWrite m a bs x = bs[(x - a).toNat]?.getD (m x) := by
  rw [memWrite, Overlay.write_apply, patch_nextAddr a bs x hl]

theorem memRead_getElem? (m : Ut64 → Ut8) (a : Ut64) (n i : Nat) (hi : i < n) :
    (memRead m a n)[i]? = some (m (a + BitVec.ofNat 64 i)) := by
  induction n generalizing a i with
  | zero => omega
  | succ n ih =>
    rw [memRead, Overlay.read]
    cases i with
    | zero => simp
    | succ i =>
      rw [List.getElem?_cons_succ]
      change (memRead m (nextAddr a) n)[i]? = _
      rw [ih (nextAddr a) i (by omega)]
      congr 2
      rw [nextAddr, BitVec.add_assoc, BitVec.add_comm 1, BitVec.ofNat_add]
      rfl

/-- A block that fits the address space is read back unchanged. -/
theorem memRead_memWrite (m : Ut64 → Ut8) (a : Ut64) (bs : List Ut8)
    (hl : bs.length ≤ 18446744073709551616) : memRead (memWrite m a bs) a bs.length = bs := by
  apply List.ext_getElem?
  intro i
  by_cases hi : i < bs.length
  · rw [memRead_getElem? _ a _ i hi, memWrite_apply m a bs _ hl]
    have hd : (a + BitVec.ofNat 64 i - a).toNat = i := by
      rw [BitVec.add_comm, BitVec.add_sub_cancel, BitVec.toNat_ofNat]
      omega
    rw [hd, List.getElem?_eq_getElem hi]
    rfl
  · rw [List.getElem?_eq_none (by rw [memRead_length]; omega),
      List.getElem?_eq_none (by omega)]

theorem memWrite_frame (m : Ut64 → Ut8) (a : Ut64) (bs : List Ut8) (x : Ut64)
    (hl : bs.length ≤ 18446744073709551616) (hx : bs.length ≤ (x - a).toNat) :
    memWrite m a bs x = m x := by
  rw [memWrite_apply m a bs x hl, List.getElem?_eq_none hx]
  rfl

end Radare
