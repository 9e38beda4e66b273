import Radare.Esil.State

namespace Radare

/-- The array behind the emulator's stack. A popped entry stays in its slot; `none` is a slot that was
never stored to. -/
structure EsilStack where
  slots : List (Option CStr)
  stackptr : Int

namespace EsilStack

def stacksize (s : EsilStack) : Int := s.slots.length

def empty (stacksize : Nat) : EsilStack := ⟨List.replicate stacksize none, 0⟩

/-- A slot that was read, and the stack pointer at that time. -/
structure SlotRead where
  index : Int
  stackptr : Int
  deriving DecidableEq

/-- Only slots below the stack pointer hold live entries. -/
def SlotRead.Live (r : SlotRead) : Prop := 0 ≤ r.index ∧ r.index < r.stackptr

def slot (s : EsilStack) (i : Int) : Option CStr := if i < 0 then none else s.slots[i.toNat]?.join

def readAt (s : EsilStack) (i : Int) : SlotRead := ⟨i, s.stackptr⟩

/-- An operation returns its result, the slots it read and the new stack. -/
abbrev Op := EsilStack → Bool × List SlotRead × EsilStack

def push (str : CStr) : Op := fun s =>
  if str = [] ∨ s.stackptr > s.stacksize - 1 then (false, [], s)
  else (true, [], ⟨s.slots.set s.stackptr.toNat (some str), s.stackptr + 1⟩)

def pop (s : EsilStack) : Option CStr × List SlotRead × EsilStack :=
  if s.stackptr < 1 then (none, [], s)
  else (s.slot (s.stackptr - 1), [s.readAt (s.stackptr - 1)], { s with stackptr := s.stackptr - 1 })

/-- A null pointer is not pushed. -/
def pushOpt (str : Option CStr) : Op := fun s =>
  match str with
  | none => (false, [], s)
  | some str => push str s

def dup : Op := fun s =>
  if s.stackptr < 1 ∨ s.stackptr > s.stacksize - 1 then (false, [], s)
  else
    let r := pushOpt (s.slot (s.stackptr - 1)) s
    (r.1, s.readAt (s.stackptr - 1) :: r.2.1, r.2.2)

def swap : Op := fun s =>
  if s.stackptr < 2 then (false, [], s)
  else
    let reads := [s.readAt (s.stackptr - 1), s.readAt (s.stackptr - 2)]
    if (s.slot (s.stackptr - 1)).isNone ∨ (s.slot (s.stackptr - 2)).isNone then (false, reads, s)
    else
      (true, reads, { s with
        slots := (s.slots.set (s.stackptr - 1).toNat (s.slot (s.stackptr - 2))).set (s.stackptr - 2).toNat
          (s.slot (s.stackptr - 1)) })

/-- The slot that an index names is counted in 64 unsigned bits. -/
def pickIndex (rev : Bool) (stackptr : Int) (i : Ut64) : Ut64 :=
  if rev then BitVec.ofInt 64 stackptr + -i else i

/-- `parm` is what `r_anal_esil_get_parm` makes of a string. -/
def genericPick (parm : CStr → Option Ut64) (rev : Bool) : Op := fun s =>
  let p := s.pop
  match p.1.bind parm with
  | none => (false, p.2.1, p.2.2)
  | some num =>
    let i := pickIndex rev p.2.2.stackptr num
    if BitVec.ofInt 64 p.2.2.stackptr < i then (false, p.2.1, p.2.2)
    else
      let index : Int := (BitVec.ofInt 64 p.2.2.stackptr - i).toNat
      let r := pushOpt (p.2.2.slot index) p.2.2
      (r.1, p.2.1 ++ p.2.2.readAt index :: r.2.1, r.2.2)

def pick (parm : CStr → Option Ut64) : Op := genericPick parm false

def rpick (parm : CStr → Option Ut64) : Op := genericPick parm true

def num (parm : CStr → Option Ut64) : Op := fun s =>
  let p := s.pop
  match p.1.bind parm with
  | none => (false, p.2.1, p.2.2)
  | some n =>
    let r := push (hexLiteral n) p.2.2
    (r.1, p.2.1 ++ r.2.1, r.2.2)

/-- Entries are popped until there is none. -/
def clearFrom : Nat → EsilStack → List SlotRead × EsilStack
  | 0, s => ([], s)
  | n + 1, s =>
    let p := s.pop
    match p.1 with
    | none => (p.2.1, p.2.2)
    | some _ =>
      let r := clearFrom n p.2.2
      (p.2.1 ++ r.1, r.2)

def clear : Op := fun s =>
  let r := clearFrom (s.stackptr.toNat + 1) s
  (true, r.1, r.2)

/-- What can happen to the stack. -/
inductive Step where
  | push (str : CStr)
  | pop
  | dup
  | swap
  | pick
  | rpick
  | clear
  | num

def step (parm : CStr → Option Ut64) : Step → Op
  | .push str => push str
  | .pop => fun s => (s.pop.1.isSome, s.pop.2)
  | .dup => dup
  | .swap => swap
  | .pick => pick parm
  | .rpick => rpick parm
  | .clear => clear
  | .num => num parm

/-- The slots that are read on the way, and the last stack. What a string stands for can change from
step to step. -/
def run : EsilStack → List ((CStr → Option Ut64) × Step) → List SlotRead × EsilStack
  | s, [] => ([], s)
  | s, (parm, w) :: ws =>
    let r := step parm w s
    let rest := run r.2.2 ws
    (r.2.1 ++ rest.1, rest.2)

/-- The live entries, the bottom one first. -/
def entries (s : EsilStack) : List (Option CStr) := s.slots.take s.stackptr.toNat

/-- The stack holds these entries, the bottom one first. -/
structure Holds (s : EsilStack) (l : List CStr) : Prop where
  top : s.stackptr = l.length
  fits : l.length ≤ s.slots.length
  size : s.slots.length < 2147483648
  slots : ∀ i, i < l.length → s.slots[i]? = some l[i]?
  nonempty : ∀ str ∈ l, str ≠ []

section Entries

variable {s : EsilStack} {l : List CStr} {str : CStr} {parm : CStr → Option Ut64}

theorem Holds.entries_eq (h : s.Holds l) : s.entries = l.map some := by
  have hfits := h.fits
  rw [entries, h.top, Int.toNat_natCast]
  apply List.ext_getElem?
  intro i
  by_cases hi : i < l.length
  · rw [List.getElem?_take_of_lt hi, h.slots i hi, List.getElem?_map, List.getElem?_eq_getElem hi]
    rfl
  · rw [List.getElem?_eq_none (by simp; omega), List.getElem?_eq_none (by simp; omega)]

theorem Holds.slot (h : s.Holds l) {i : Nat} (hi : i < l.length) : s.slot i = l[i]? := by
  rw [EsilStack.slot, if_neg (by omega), Int.toNat_natCast, h.slots i hi]
  rfl

theorem empty_holds (n : Nat) (hn : n < 2147483648) : (empty n).Holds [] := by
  refine ⟨rfl, Nat.zero_le _, ?_, nofun, nofun⟩
  rw [empty, List.length_replicate]
  exact hn

/-- A push that finds room. -/
theorem Holds.push (h : s.Holds l) (hstr : str ≠ []) (hroom : l.length < s.slots.length) :
    ∃ s', EsilStack.push str s = (true, [], s') ∧ s'.Holds (l ++ [str]) ∧
      s'.slots.length = s.slots.length := by
  have htop := h.top
  have hpush : EsilStack.push str s =
      (true, [], ⟨s.slots.set s.stackptr.toNat (some str), s.stackptr + 1⟩) := by
    rw [EsilStack.push, if_neg]
    rw [stacksize, not_or]
    exact ⟨hstr, by omega⟩
  refine ⟨_, hpush, ⟨?_, ?_, ?_, ?_, ?_⟩, ?_⟩
  · simp [htop]
  · simp
    exact hroom
  · simp
    exact h.size
  · intro i hi
    rw [htop, Int.toNat_natCast]
    by_cases hlast : i = l.length
    · rw [hlast, List.getElem?_set_self hroom]
      simp
    · have hlt : i < l.length := by
        rw [List.length_append, List.length_singleton] at hi
        omega
      rw [List.getElem?_set_ne (by omega), h.slots i hlt, List.getElem?_append_left hlt]
  · intro x hx
    rcases List.mem_append.mp hx with hx | hx
    · exact h.nonempty x hx
    · rw [List.mem_singleton.mp hx]
      exact hstr
  · simp

theorem push_refused (h : ¬(str ≠ [] ∧ s.stackptr < s.stacksize)) : EsilStack.push str s = (false, [], s) := by
  rw [EsilStack.push, if_pos]
  by_cases hstr : str = []
  · exact Or.inl hstr
  · refine Or.inr ?_
    have hfull : ¬s.stackptr < s.stacksize := fun hlt => h ⟨hstr, hlt⟩
    omega

/-- A pop takes the top entry and leaves its slot as it was. -/
theorem Holds.pop (h : s.Holds (l ++ [str])) :
    s.pop = (some str, [⟨l.length, l.length + 1⟩], ⟨s.slots, l.length⟩) ∧
      Holds ⟨s.slots, l.length⟩ l ∧ s.slots[l.length]? = some (some str) := by
  have htop := h.top
  have hlast := h.slots l.length (by simp)
  have hfits := h.fits
  rw [List.length_append, List.length_singleton] at htop hfits
  have hat : s.slot (s.stackptr - 1) = some str := by
    have hslot := h.slot (i := l.length) (by simp)
    rw [htop, Nat.cast_add, Nat.cast_one, add_sub_cancel_right, hslot]
    simp
  refine ⟨?_, ⟨rfl, by simp only; omega, h.size, ?_, ?_⟩, ?_⟩
  · rw [EsilStack.pop, if_neg (by omega), hat, readAt, htop]
    simp
  · intro i hi
    rw [h.slots i (by simp; omega), List.getElem?_append_left hi]
  · exact fun x hx => h.nonempty x (List.mem_append_left _ hx)
  · rw [hlast]
    simp

theorem Holds.pop_empty (h : s.Holds []) : s.pop = (none, [], s) := by
  rw [EsilStack.pop, if_pos]
  have htop := h.top
  simp at htop
  omega

end Entries

def AllLive (reads : List SlotRead) : Prop := ∀ r ∈ reads, r.Live

/-- What an operation leaves holds entries again, in an array of the same size. -/
structure Sound (s s' : EsilStack) : Prop where
  holds : ∃ l, s'.Holds l
  size : s'.slots.length = s.slots.length

theorem Sound.refl {s : EsilStack} {l : List CStr} (h : s.Holds l) : Sound s s := ⟨⟨l, h⟩, rfl⟩

theorem Sound.trans {s s' s'' : EsilStack} (h : Sound s s') (h' : Sound s' s'') : Sound s s'' :=
  ⟨h'.holds, h'.size.trans h.size⟩

section Operations

variable {s : EsilStack} {l : List CStr}

theorem readAt_live {i : Int} (hlow : 0 ≤ i) (hhigh : i < s.stackptr) : (s.readAt i).Live := ⟨hlow, hhigh⟩

theorem allLive_append {xs ys : List SlotRead} : AllLive (xs ++ ys) ↔ AllLive xs ∧ AllLive ys :=
  List.forall_mem_append

/-- A push stores an entry or refuses it, and reads no slot. -/
theorem Holds.push_sound (h : s.Holds l) (str : CStr) :
    (EsilStack.push str s).2.1 = [] ∧ Sound s (EsilStack.push str s).2.2 := by
  by_cases hok : str ≠ [] ∧ s.stackptr < s.stacksize
  · have htop := h.top
    have hroom : l.length < s.slots.length := by
      rw [stacksize, htop] at hok
      omega
    obtain ⟨s', hpush, hs', hsize⟩ := h.push hok.1 hroom
    rw [hpush]
    exact ⟨rfl, ⟨_, hs'⟩, hsize⟩
  · rw [push_refused hok]
    exact ⟨rfl, Sound.refl h⟩

theorem Holds.pushOpt_sound (h : s.Holds l) (str : Option CStr) :
    (pushOpt str s).2.1 = [] ∧ Sound s (pushOpt str s).2.2 := by
  cases str with
  | none => exact ⟨rfl, Sound.refl h⟩
  | some str => exact h.push_sound str

/-- A pop reads the top entry, which is live. -/
theorem Holds.pop_sound (h : s.Holds l) :
    AllLive s.pop.2.1 ∧ Sound s s.pop.2.2 := by
  rcases List.eq_nil_or_concat l with hnil | ⟨l', str, hl⟩
  · rw [hnil] at h
    rw [h.pop_empty]
    exact ⟨nofun, Sound.refl h⟩
  · rw [hl, List.concat_eq_append] at h
    obtain ⟨hpop, hs', -⟩ := h.pop
    rw [hpop]
    refine ⟨?_, ⟨_, hs'⟩, rfl⟩
    intro r hr
    rw [List.mem_singleton.mp hr]
    exact ⟨Int.natCast_nonneg _, Int.lt_add_one_of_le (Int.le_refl _)⟩

theorem Holds.dup_sound (h : s.Holds l) : AllLive (dup s).2.1 ∧ Sound s (dup s).2.2 := by
  rw [dup]
  split
  · exact ⟨nofun, Sound.refl h⟩
  · next hok =>
    obtain ⟨hreads, hsound⟩ := h.pushOpt_sound (s.slot (s.stackptr - 1))
    refine ⟨?_, hsound⟩
    intro r hr
    dsimp only at hr
    rw [hreads, List.mem_singleton] at hr
    rw [hr]
    exact readAt_live (by omega) (by omega)

/-- Two entries change places. -/
theorem Holds.swap_sound (h : s.Holds l) : AllLive (swap s).2.1 ∧ Sound s (swap s).2.2 := by
  have htop := h.top
  have hfits := h.fits
  rw [swap]
  split
  · exact ⟨nofun, Sound.refl h⟩
  · next hok =>
    have hlive : AllLive [s.readAt (s.stackptr - 1), s.readAt (s.stackptr - 2)] := by
      intro r hr
      rcases List.mem_cons.mp hr with hr | hr
      · rw [hr]
        exact readAt_live (by omega) (by omega)
      · rw [List.mem_singleton.mp hr]
        exact readAt_live (by omega) (by omega)
    dsimp only
    split
    · exact ⟨hlive, Sound.refl h⟩
    · refine ⟨hlive, ?_⟩
      obtain ⟨n, hn⟩ : ∃ n, l.length = n + 2 := ⟨l.length - 2, by omega⟩
      have h1 : s.stackptr - 1 = ((n + 1 : Nat) : Int) := by omega
      have h2 : s.stackptr - 2 = (n : Int) := by omega
      rw [h1, h2, h.slot (by omega), h.slot (by omega), Int.toNat_natCast, Int.toNat_natCast]
      refine ⟨⟨(l.set (n + 1) (l[n]?.getD [])).set n (l[n + 1]?.getD []), ?_, ?_, ?_, ?_, ?_⟩, ?_⟩
      · simp [htop]
      · simp
        exact hfits
      · simp
        exact h.size
      · intro i hi
        simp only [List.length_set] at hi
        simp only [List.getElem?_set, List.length_set]
        have hslot := h.slots i hi
        have hn0 : l[n]? = some l[n] := List.getElem?_eq_getElem (by omega)
        have hn1 : l[n + 1]? = some l[n + 1] := List.getElem?_eq_getElem (by omega)
        rw [hn0, hn1]
        split_ifs
        all_goals first | rfl | omega
      · intro x hx
        have hn0 : l[n]?.getD [] ∈ l := by
          rw [List.getElem?_eq_getElem (by omega), Option.getD_some]
          exact List.getElem_mem _
        have hn1 : l[n + 1]?.getD [] ∈ l := by
          rw [List.getElem?_eq_getElem (by omega), Option.getD_some]
          exact List.getElem_mem _
        rcases List.mem_or_eq_of_mem_set hx with hx | hx
        · rcases List.mem_or_eq_of_mem_set hx with hx | hx
          · exact h.nonempty x hx
          · exact h.nonempty x (hx ▸ hn0)
        · exact h.nonempty x (hx ▸ hn1)
      · simp

theorem Holds.num_sound (h : s.Holds l) (parm : CStr → Option Ut64) :
    AllLive (num parm s).2.1 ∧ Sound s (num parm s).2.2 := by
  obtain ⟨hlive, hpop⟩ := h.pop_sound
  rw [num]
  dsimp only
  split
  · exact ⟨hlive, hpop⟩
  · next n hn =>
    obtain ⟨l', hl'⟩ := hpop.holds
    obtain ⟨hreads, hpush⟩ := hl'.push_sound (hexLiteral n)
    refine ⟨?_, hpop.trans hpush⟩
    rw [hreads, List.append_nil]
    exact hlive

theorem Holds.clearFrom_sound (n : Nat) (h : s.Holds l) :
    AllLive (clearFrom n s).1 ∧ Sound s (clearFrom n s).2 := by
  induction n generalizing s l with
  | zero => exact ⟨nofun, Sound.refl h⟩
  | succ n ih =>
    obtain ⟨hlive, hpop⟩ := h.pop_sound
    rw [clearFrom]
    dsimp only
    split
    · exact ⟨hlive, hpop⟩
    · obtain ⟨l', hl'⟩ := hpop.holds
      obtain ⟨hrest, hclear⟩ := ih hl'
      exact ⟨allLive_append.mpr ⟨hlive, hrest⟩, hpop.trans hclear⟩

/-- The slot right above the live entries is the one that must not be named. -/
def PickOk (parm : CStr → Option Ut64) (rev : Bool) (s : EsilStack) : Prop :=
  ∀ n, s.pop.1.bind parm = some n → n ≠ if rev then BitVec.ofInt 64 s.pop.2.2.stackptr else 0

theorem pickIndex_eq_zero (rev : Bool) (d : Int) (n : Ut64) :
    pickIndex rev d n = 0 ↔ n = if rev then BitVec.ofInt 64 d else 0 := by
  cases rev with
  | false => simp [pickIndex]
  | true =>
    rw [pickIndex, if_pos rfl, if_pos rfl]
    constructor
    · intro h
      bv_omega
    · intro h
      bv_omega

/-- Where the index is in the bounds the slot is counted down from the stack pointer. -/
theorem toNat_pick {d : Nat} {i : Ut64} (hd : d < 2147483648) (hi : ¬BitVec.ofInt 64 (d : Int) < i) :
    i.toNat ≤ d ∧ (BitVec.ofInt 64 (d : Int) - i).toNat = d - i.toNat := by
  have hof : (BitVec.ofInt 64 (d : Int)).toNat = d := by
    rw [BitVec.ofInt_natCast, BitVec.toNat_ofNat]
    omega
  rw [BitVec.not_lt, BitVec.le_def, hof] at hi
  exact ⟨hi, by rw [BitVec.toNat_sub_of_le (by rw [BitVec.le_def, hof]; exact hi), hof]⟩

/-- A copy is pushed of what the slot holds; only live slots are read unless the index names the slot
above them. -/
theorem Holds.pick_sound (h : s.Holds l) (parm : CStr → Option Ut64) (rev : Bool) :
    Sound s (genericPick parm rev s).2.2 ∧ (AllLive (genericPick parm rev s).2.1 ↔ PickOk parm rev s) := by
  obtain ⟨hlive, hpop⟩ := h.pop_sound
  rw [genericPick, PickOk]
  dsimp only
  cases hparm : s.pop.1.bind parm with
  | none => exact ⟨hpop, fun _ => nofun, fun _ => hlive⟩
  | some num =>
    dsimp only
    have hok : (∀ n, some num = some n → n ≠ if rev then BitVec.ofInt 64 s.pop.2.2.stackptr else 0) ↔
        pickIndex rev s.pop.2.2.stackptr num ≠ 0 := by
      rw [ne_eq, pickIndex_eq_zero]
      constructor
      · exact fun h => h num rfl
      · intro h n hn
        rw [← Option.some.inj hn]
        exact h
    rw [hok]
    generalize pickIndex rev s.pop.2.2.stackptr num = i
    obtain ⟨l', hl'⟩ := hpop.holds
    have htop := hl'.top
    have hfits := hl'.fits
    have hsize := hl'.size
    rw [htop]
    by_cases hout : BitVec.ofInt 64 (l'.length : Int) < i
    · rw [if_pos hout]
      refine ⟨hpop, fun _ => ?_, fun _ => hlive⟩
      intro hzero
      rw [hzero] at hout
      exact absurd hout (by simp [BitVec.lt_def])
    · rw [if_neg hout]
      obtain ⟨hle, hindex⟩ := toNat_pick (by omega) hout
      obtain ⟨hreads, hpush⟩ := hl'.pushOpt_sound
        (s.pop.2.2.slot ((BitVec.ofInt 64 (l'.length : Int) - i).toNat))
      refine ⟨hpop.trans hpush, ?_⟩
      dsimp only
      rw [hreads, allLive_append, hindex]
      have hone : AllLive [s.pop.2.2.readAt ((l'.length - i.toNat : Nat) : Int)] ↔ i ≠ 0 := by
        simp only [AllLive, List.mem_singleton, forall_eq, SlotRead.Live, readAt, htop]
        have hzero : (0 : Ut64).toNat = 0 := rfl
        rw [← BitVec.toNat_inj.ne, hzero]
        omega
      rw [hone]
      exact and_iff_right hlive

/-- The step that picks must not name the slot above the live entries. -/
def StepOk (parm : CStr → Option Ut64) : Step → EsilStack → Prop
  | .pick, s => PickOk parm false s
  | .rpick, s => PickOk parm true s
  | _, _ => True

theorem Holds.step_sound (h : s.Holds l) (parm : CStr → Option Ut64) (w : Step) :
    Sound s (step parm w s).2.2 ∧ (AllLive (step parm w s).2.1 ↔ StepOk parm w s) := by
  cases w with
  | push str =>
    obtain ⟨hreads, hsound⟩ := h.push_sound str
    rw [step, hreads]
    exact ⟨hsound, fun _ => trivial, fun _ => nofun⟩
  | pop =>
    obtain ⟨hlive, hsound⟩ := h.pop_sound
    exact ⟨hsound, fun _ => trivial, fun _ => hlive⟩
  | dup =>
    obtain ⟨hlive, hsound⟩ := h.dup_sound
    exact ⟨hsound, fun _ => trivial, fun _ => hlive⟩
  | swap =>
    obtain ⟨hlive, hsound⟩ := h.swap_sound
    exact ⟨hsound, fun _ => trivial, fun _ => hlive⟩
  | pick => exact h.pick_sound parm false
  | rpick => exact h.pick_sound parm true
  | clear =>
    obtain ⟨hlive, hsound⟩ := h.clearFrom_sound (s.stackptr.toNat + 1)
    exact ⟨hsound, fun _ => trivial, fun _ => hlive⟩
  | num =>
    obtain ⟨hlive, hsound⟩ := h.num_sound parm
    exact ⟨hsound, fun _ => trivial, fun _ => hlive⟩

/-- Every step of a run meets its condition in the state before it. -/
def StepsOk : EsilStack → List ((CStr → Option Ut64) × Step) → Prop
  | _, [] => True
  | s, (parm, w) :: ws => StepOk parm w s ∧ StepsOk (step parm w s).2.2 ws

theorem Holds.run_sound (h : s.Holds l) (ws : List ((CStr → Option Ut64) × Step)) :
    Sound s (run s ws).2 ∧ (AllLive (run s ws).1 ↔ StepsOk s ws) := by
  induction ws generalizing s l with
  | nil => exact ⟨Sound.refl h, fun _ => trivial, fun _ => nofun⟩
  | cons x ws ih =>
    obtain ⟨parm, w⟩ := x
    obtain ⟨hsound, hiff⟩ := h.step_sound parm w
    obtain ⟨l', hl'⟩ := hsound.holds
    obtain ⟨hrest, hrestIff⟩ := ih hl'
    refine ⟨hsound.trans hrest, ?_⟩
    rw [run]
    dsimp only
    rw [allLive_append, hiff, hrestIff, StepsOk]

end Operations

/-- `k,PICK` pushes a copy of the `k`-th entry from the top, `k,RPICK` of the `k`-th from the bottom. -/
structure PicksRight (s : EsilStack) : Prop where
  pick : ∀ parm k i, parm k = some i → k ≠ [] → s.stackptr < s.stacksize →
    1 ≤ i.toNat → i.toNat ≤ s.entries.length →
    (pick parm (push k s).2.2).1 = true ∧ (pick parm (push k s).2.2).2.2.entries =
      s.entries ++ [(s.entries[s.entries.length - i.toNat]?).join]
  rpick : ∀ parm k i, parm k = some i → k ≠ [] → s.stackptr < s.stacksize → i.toNat < s.entries.length →
    (rpick parm (push k s).2.2).1 = true ∧ (rpick parm (push k s).2.2).2.2.entries =
      s.entries ++ [(s.entries[i.toNat]?).join]

section Picks

variable {s : EsilStack} {l : List CStr}

/-- An index in the bounds, behind its own entry, copies the entry that it counts down to. -/
theorem Holds.pick_copies (h : s.Holds l) {parm : CStr → Option Ut64} {k : CStr} {num : Ut64} (rev : Bool)
    {j : Nat} (hparm : parm k = some num) (hk : k ≠ []) (hroom : s.stackptr < s.stacksize)
    (hindex : (pickIndex rev l.length num).toNat = l.length - j) (hj : j < l.length) :
    (genericPick parm rev (EsilStack.push k s).2.2).1 = true ∧
      (genericPick parm rev (EsilStack.push k s).2.2).2.2.entries = s.entries ++ [(s.entries[j]?).join] := by
  have htop := h.top
  have hspace : l.length < s.slots.length := by
    rw [stacksize, htop] at hroom
    omega
  have hint := h.size
  obtain ⟨s₁, hpush, hs₁, hsize⟩ := h.push hk hspace
  obtain ⟨hpop, hs₂, -⟩ := hs₁.pop
  have hin : ¬BitVec.ofInt 64 (l.length : Int) < pickIndex rev l.length num := by
    rw [BitVec.lt_def, hindex, BitVec.ofInt_natCast, BitVec.toNat_ofNat]
    omega
  obtain ⟨-, hplace⟩ := toNat_pick (by omega) hin
  have hentry := hs₂.slot hj
  rw [List.getElem?_eq_getElem hj] at hentry
  obtain ⟨s₃, hpush₃, hs₃, -⟩ := hs₂.push (h.nonempty _ (List.getElem_mem hj)) (by simp only [hsize]; omega)
  have hj' : l.length - (l.length - j) = j := by omega
  rw [hpush]
  simp only [genericPick, hpop, Option.bind_some, hparm, if_neg hin, hplace, hindex, hj', hentry, pushOpt,
    hpush₃, true_and]
  rw [hs₃.entries_eq, h.entries_eq]
  simp [hj]

theorem Holds.picksRight (h : s.Holds l) : PicksRight s := by
  have hfits := h.fits
  have hint := h.size
  have hof : (BitVec.ofInt 64 (l.length : Int)).toNat = l.length := by
    rw [BitVec.ofInt_natCast, BitVec.toNat_ofNat]
    omega
  have hlen : s.entries.length = l.length := by rw [h.entries_eq, List.length_map]
  constructor
  · intro parm k i hparm hk hroom hlow hhigh
    rw [hlen] at hhigh ⊢
    apply h.pick_copies false hparm hk hroom
    · rw [pickIndex, if_neg Bool.false_ne_true]
      omega
    · omega
  · intro parm k i hparm hk hroom hi
    rw [hlen] at hi
    refine h.pick_copies true hparm hk hroom ?_ hi
    have hsub : BitVec.ofInt 64 (l.length : Int) + -i = BitVec.ofInt 64 (l.length : Int) - i := by
      rw [BitVec.sub_eq_add_neg]
    rw [pickIndex, if_pos rfl, hsub, BitVec.toNat_sub_of_le (by rw [BitVec.le_def, hof]; omega), hof]

end Picks

section Refinement

variable {R : Type} {s : EsilStack} {e : Esil R}

/-- The array is the emulator's stack, which is listed from its top. -/
def Refines (s : EsilStack) (e : Esil R) : Prop := s.Holds e.stack.reverse ∧ e.stacksize = s.stacksize

theorem Refines.push (h : s.Refines e) (str : CStr) :
    (EsilStack.push str s).1 = (rAnalEsilPush e str).1 ∧
      (EsilStack.push str s).2.2.Refines (rAnalEsilPush e str).2 := by
  obtain ⟨hholds, hsize⟩ := h
  have htop := hholds.top
  rw [List.length_reverse] at htop
  by_cases hfull : str = [] ∨ s.stackptr > s.stacksize - 1
  · rw [EsilStack.push, if_pos hfull, rAnalEsilPush, if_pos (by rw [hsize, ← htop]; exact hfull)]
    exact ⟨rfl, hholds, hsize⟩
  · have hok := not_or.mp hfull
    have hroom : e.stack.reverse.length < s.slots.length := by
      rw [stacksize] at hok
      rw [List.length_reverse]
      omega
    obtain ⟨s', hpush, hs', hlen⟩ := hholds.push hok.1 hroom
    rw [hpush, rAnalEsilPush, if_neg (by rw [hsize, ← htop]; exact hfull)]
    refine ⟨rfl, ?_, ?_⟩
    · simp only [List.reverse_cons]
      exact hs'
    · rw [stacksize, hlen]
      exact hsize

theorem Refines.pop (h : s.Refines e) :
    s.pop.1 = (rAnalEsilPop e).1 ∧ s.pop.2.2.Refines (rAnalEsilPop e).2 := by
  obtain ⟨hholds, hsize⟩ := h
  rw [rAnalEsilPop]
  cases hstack : e.stack with
  | nil =>
    have hnil : s.Holds [] := by
      rw [hstack] at hholds
      exact hholds
    rw [hnil.pop_empty]
    exact ⟨rfl, hholds, hsize⟩
  | cons str rest =>
    rw [hstack, List.reverse_cons] at hholds
    obtain ⟨hpop, hs', -⟩ := hholds.pop
    rw [hpop]
    exact ⟨rfl, hs', hsize⟩

end Refinement

/-- What a run on an empty stack is to keep: the bounds of the stack pointer, reads of live slots only,
and the meaning of the two picks. -/
structure RunMeets (n : Nat) (ws : List ((CStr → Option Ut64) × Step)) : Prop where
  low : 0 ≤ (run (empty n) ws).2.stackptr
  high : (run (empty n) ws).2.stackptr ≤ n
  live : AllLive (run (empty n) ws).1
  picks : PicksRight (run (empty n) ws).2

/-- A run keeps it exactly when no `PICK` has the index 0 and no `RPICK` the depth of the stack. -/
theorem esil_stack_iff (n : Nat) (hn : n < 2147483648) (ws : List ((CStr → Option Ut64) × Step)) :
    RunMeets n ws ↔ StepsOk (empty n) ws := by
  obtain ⟨⟨⟨l, hl⟩, hsize⟩, hiff⟩ := (empty_holds n hn).run_sound ws
  have htop := hl.top
  have hfits := hl.fits
  have hempty : (empty n).slots.length = n := List.length_replicate ..
  constructor
  · intro h
    exact hiff.mp h.live
  · intro h
    exact ⟨by omega, by omega, hiff.mpr h, hl.picksRight⟩

/-- Two entries and a copy of the lower one. -/
theorem esil_stack_pick_two :
    RunMeets 4 [(fun _ => none, .push ['a']), (fun _ => none, .push ['b']), (fun _ => none, .push ['2']),
      (fun _ => some 2, .pick)] := by
  rw [esil_stack_iff 4 (by decide)]
  refine ⟨trivial, trivial, trivial, ?_, trivial⟩
  intro n hn
  have hpop : (2 : Ut64) = n := Option.some.inj hn
  rw [← hpop]
  decide

/-- `0,PICK` reads the slot of its own index, which was popped before. -/
theorem esil_stack_pick_zero :
    (run (empty 4) [(fun _ => none, .push ['0']), (fun _ => some 0, .pick)]).1 = [⟨0, 1⟩, ⟨0, 0⟩] ∧
      ¬RunMeets 4 [(fun _ => none, .push ['0']), (fun _ => some 0, .pick)] := by
  have hrun : (run (empty 4) [(fun _ => none, .push ['0']), (fun _ => some 0, .pick)]).1 =
      [⟨0, 1⟩, ⟨0, 0⟩] := by decide
  refine ⟨hrun, ?_⟩
  intro h
  have hlive := h.live
  rw [hrun] at hlive
  obtain ⟨-, hlt⟩ := hlive ⟨0, 0⟩ (by simp)
  exact absurd hlt (by decide)

end EsilStack

end Radare
