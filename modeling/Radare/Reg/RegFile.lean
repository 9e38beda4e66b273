import Radare.Reg.Arena
import Radare.Reg.RegValue

namespace Radare.Reg

open Framework

/-- No bit belongs to both registers. -/
def Apart (off size off' size' : Nat) : Prop := off + size ≤ off' ∨ off' + size' ≤ off

/-- Offset and size of a plain register in an arena. -/
structure Slot (off size n : Nat) : Prop where
  known : size = 1 ∨ size = 8 ∨ size = 16 ∨ size = 32 ∨ size = 64
  aligned : 8 ≤ size → off % 8 = 0
  inside : off + size ≤ 8 * n

/-- A field of a number is one of its low bits, when it lies in them. -/
theorem field_mod (m : Nat) {j s t : Nat} (h : j + s ≤ t) : m % 2 ^ t / 2 ^ j % 2 ^ s = m / 2 ^ j % 2 ^ s := by
  apply Nat.eq_of_testBit_eq
  intro i
  simp only [Nat.testBit_mod_two_pow, Nat.testBit_div_two_pow]
  by_cases hi : i < s
  · have hlow : i + j < t := by omega
    simp [hi, hlow]
  · simp [hi]

section Slots

variable {bytes : List Ut8} {off size : Nat}

theorem Slot.whole (h : Slot off size bytes.length) (hne : size ≠ 1) :
    ∃ q n, off = 8 * q ∧ size = 8 * n ∧ 0 < n ∧ n ≤ 8 ∧ q + n ≤ bytes.length ∧ off / 8 = q ∧ size / 8 = n := by
  have hsize := h.known
  have hin := h.inside
  have hal := h.aligned (by omega)
  exact ⟨off / 8, size / 8, by omega, by omega, by omega, by omega, by omega, rfl, rfl⟩

theorem length_regPut (be : Bool) (h : Slot off size bytes.length) (v : Ut64) :
    (regPut be bytes off size v).length = bytes.length := by
  have hin := h.inside
  unfold regPut
  split_ifs with hone
  · apply length_overwrite
    rw [List.length_map, length_window (by omega)]
    omega
  · obtain ⟨q, n, hq, hn, -, -, hfit, hq8, hn8⟩ := h.whole hone
    apply length_overwrite
    rw [orient_length, leBytes_length, hq8, hn8]
    exact hfit

/-- A register is read back as it was set. -/
theorem regVal_regPut_same (be : Bool) (h : Slot off size bytes.length) (v : Ut64) :
    regVal be (regPut be bytes off size v) off size = if size = 1 then (if v ≠ 0 then 1 else 0) else v.toNat % 2 ^ size := by
  have hin := h.inside
  unfold regVal regPut
  by_cases hone : size = 1
  · have hlt : off / 8 < bytes.length := by omega
    have hlen : off / 8 + [putBit bytes[off / 8] (off % 8) (v ≠ 0)].length ≤ bytes.length := by
      simp
      omega
    have hwin := window_overwrite_same hlen
    rw [if_pos hone, if_pos hone, if_pos hone, window_one hlt, List.map_singleton]
    rw [List.length_singleton] at hwin
    rw [hwin, leNat_singleton, putBit_same _ (Nat.mod_lt off (by omega))]
    simp
  · obtain ⟨q, n, hq, hn, -, -, hfit, hq8, hn8⟩ := h.whole hone
    have hlen : (orient be (leBytes n v.toNat)).length = n := by
      rw [orient_length, leBytes_length]
    have hfit' : q + (orient be (leBytes n v.toNat)).length ≤ bytes.length := by omega
    have hwin := window_overwrite_same hfit'
    rw [hlen] at hwin
    rw [if_neg hone, if_neg hone, if_neg hone, hq8, hn8, hwin, orient_orient, leNat_leBytes, hn, Nat.pow_mul]

/-- Setting a register leaves those alone that share no bit with it. -/
theorem regVal_regPut_apart (be : Bool) (h : Slot off size bytes.length) {off' size' : Nat}
    (h' : Slot off' size' bytes.length) (hd : Apart off size off' size') (v : Ut64) :
    regVal be (regPut be bytes off size v) off' size' = regVal be bytes off' size' := by
  have hin := h.inside
  have hin' := h'.inside
  unfold Apart at hd
  unfold regVal regPut
  by_cases hone : size = 1
  · have hlt : off / 8 < bytes.length := by omega
    have hlen : off / 8 + [putBit bytes[off / 8] (off % 8) (v ≠ 0)].length ≤ bytes.length := by
      simp
      omega
    rw [if_pos hone, window_one hlt, List.map_singleton]
    by_cases hone' : size' = 1
    · rw [if_pos hone', if_pos hone']
      by_cases hbyte : off' / 8 = off / 8
      · -- two flags of one byte
        have hwin := window_overwrite_same hlen
        rw [List.length_singleton] at hwin
        rw [hbyte, hwin, window_one hlt, leNat_singleton, leNat_singleton,
          putBit_other _ (Nat.mod_lt off' (by omega)) (by omega)]
      · rw [window_overwrite_apart hlen (by rw [List.length_singleton]; omega)]
    · obtain ⟨q', n', hq', hn', -, -, -, hq8', hn8'⟩ := h'.whole hone'
      rw [if_neg hone', if_neg hone', hq8', hn8',
        window_overwrite_apart hlen (by rw [List.length_singleton]; omega)]
  · obtain ⟨q, n, hq, hn, hn0, -, hfit, hq8, hn8⟩ := h.whole hone
    have hlen : (orient be (leBytes n v.toNat)).length = n := by
      rw [orient_length, leBytes_length]
    rw [if_neg hone, hq8, hn8]
    by_cases hone' : size' = 1
    · rw [if_pos hone', if_pos hone', window_overwrite_apart (by omega) (by omega)]
    · obtain ⟨q', n', hq', hn', -, -, -, hq8', hn8'⟩ := h'.whole hone'
      rw [if_neg hone', if_neg hone', hq8', hn8', window_overwrite_apart (by omega) (by omega)]

/-- With the low byte first the value is a field of the whole arena. -/
theorem regVal_field (h : Slot off size bytes.length) :
    regVal false bytes off size = leNat bytes / 2 ^ off % 2 ^ size := by
  have hin := h.inside
  unfold regVal
  by_cases hone : size = 1
  · have hpow : (256 : Nat) ^ (off / 8) * 2 ^ (off % 8) = 2 ^ off := by
      rw [show (256 : Nat) = 2 ^ 8 from rfl, ← Nat.pow_mul, ← Nat.pow_add, Nat.div_add_mod]
    have hdrop : leNat (bytes.drop (off / 8)) / 2 ^ (off % 8) = leNat bytes / 2 ^ off := by
      rw [leNat_drop, Nat.div_div_eq_div_mul, hpow]
    have hbit : leNat (window bytes (off / 8) 1) / 2 ^ (off % 8) % 2 =
        leNat (bytes.drop (off / 8)) / 2 ^ (off % 8) % 2 := by
      have hfield := field_mod (leNat (bytes.drop (off / 8))) (show off % 8 + 1 ≤ 8 by omega)
      rw [window, leNat_take]
      exact hfield
    rw [if_pos hone, hbit, hdrop, hone, pow_one]
  · obtain ⟨q, n, hq, hn, -, -, -, hq8, hn8⟩ := h.whole hone
    have hwin : leNat (window bytes q n) = leNat bytes / 256 ^ q % 256 ^ n := by
      rw [window, leNat_take, leNat_drop]
    rw [if_neg hone, hq8, hn8, orient, if_neg (by simp), hwin, hq, hn, Nat.pow_mul, Nat.pow_mul]

/-- A part of a register is that part of its value. -/
theorem regVal_alias {k size' : Nat} (h : Slot off size bytes.length) (h' : Slot (off + 8 * k) size' bytes.length)
    (hin : 8 * k + size' ≤ size) :
    regVal false bytes (off + 8 * k) size' = regVal false bytes off size / 2 ^ (8 * k) % 2 ^ size' := by
  rw [regVal_field h, regVal_field h', Nat.pow_add, ← Nat.div_div_eq_div_mul]
  exact (field_mod _ hin).symm

end Slots

def RReg.has (reg : RReg) (item : RRegItem) : Prop := item ∈ (reg.regset item.type).regs

/-- The values that a register can hold. -/
def RRegItem.fitted (item : RRegItem) (v : Ut64) : Ut64 :=
  if item.size = 1 then (if v ≠ 0 then 1 else 0) else BitVec.ofNat 64 (v.toNat % 2 ^ item.size.toNat)

def ApartItems (item other : RRegItem) : Prop :=
  item.type ≠ other.type ∨ item.offset + item.size ≤ other.offset ∨ other.offset + other.size ≤ item.offset

/-- One after the other; `none` when a call returns false or leaves an arena. -/
def setAll (stack : Nat → Ut8) : RReg → List (RRegItem × Ut64) → Option RReg
  | reg, [] => some reg
  | reg, call :: rest => do
    let r ← rRegSetValue stack reg call.1 call.2
    if r.2 then setAll stack r.1 rest else none

/-- After any calls on its registers, a register file reads as it was written. -/
def RegisterFileRight (longDouble : List Ut8 → Int → Ut64) (stack : Nat → Ut8) (start : RReg) : Prop :=
  ∀ calls : List (RRegItem × Ut64), (∀ call ∈ calls, start.has call.1) → ∃ reg, setAll stack start calls = some reg ∧
    (∀ item, start.has item → ∀ v, ∃ reg', rRegSetValue stack reg item v = some (reg', true) ∧
      rRegGetValue longDouble reg' item = some (item.fitted v) ∧
      ∀ other, start.has other → ApartItems item other → ∃ x,
        rRegGetValue longDouble reg other = some x ∧ rRegGetValue longDouble reg' other = some x) ∧
    (start.bigEndian = false → ∀ parent sub, start.has parent → start.has sub → sub.type = parent.type →
      ∀ k : Nat, sub.offset = parent.offset + 8 * k → sub.offset + sub.size ≤ parent.offset + parent.size →
      ∃ x y, rRegGetValue longDouble reg parent = some x ∧ rRegGetValue longDouble reg sub = some y ∧
        y.toNat = x.toNat / 2 ^ (8 * k) % 2 ^ sub.size.toNat)

/-- A register that the arena of its type reaches, in the arithmetic of integers. -/
def InArena (reg : RReg) (item : RRegItem) : Prop :=
  0 ≤ item.offset ∧ ∃ r ∈ (reg.regset item.type).regs, r.offset + r.size < 2147483648 ∧
    bits2bytes (item.offset + item.size) ≤ bits2bytes (r.offset + r.size)

section Run

variable {reg : RReg} {item : RRegItem}

theorem setArena_cur (reg : RReg) (t t' : RRegisterType) (a : RRegArena) :
    ((reg.setArena t a).regset t').cur = if t' = t then a else (reg.regset t').cur := by
  by_cases h : t' = t
  · rw [if_pos h, h, RReg.setArena]
    simp only [Function.update_self, RRegSet.setCur_cur]
  · rw [if_neg h, RReg.setArena]
    simp only [Function.update_of_ne h]

theorem setArena_regs (reg : RReg) (t t' : RRegisterType) (a : RRegArena) :
    ((reg.setArena t a).regset t').regs = (reg.regset t').regs := by
  by_cases h : t' = t
  · rw [h, RReg.setArena]
    simp only [Function.update_self]
    rfl
  · rw [RReg.setArena]
    simp only [Function.update_of_ne h]

theorem Plain.slot (hp : Plain item) {n : Nat} (hin : Inside item n) : Slot item.offset.toNat item.size.toNat n := by
  have hlow := hin.low
  have hhigh := hin.high
  have hsize := hp.size
  have hal := hp.aligned
  exact ⟨by omega, by omega, by omega⟩

/-- Every register is plain and lies in the arena of its type. -/
def AllInside (reg : RReg) : Prop :=
  ∀ item, reg.has item → Plain item ∧ Inside item (reg.regset item.type).cur.bytes.length

/-- The calls change nothing but the bytes of the arenas. -/
structure SameShape (start reg : RReg) : Prop where
  bigEndian : reg.bigEndian = start.bigEndian
  regs : ∀ t, (reg.regset t).regs = (start.regset t).regs
  length : ∀ t, (reg.regset t).cur.bytes.length = (start.regset t).cur.bytes.length

theorem SameShape.trans {start reg reg' : RReg} (h : SameShape start reg) (h' : SameShape reg reg') :
    SameShape start reg' :=
  ⟨h'.bigEndian.trans h.bigEndian, fun t => (h'.regs t).trans (h.regs t),
    fun t => (h'.length t).trans (h.length t)⟩

theorem SameShape.has {start reg : RReg} (h : SameShape start reg) : reg.has item ↔ start.has item := by
  rw [RReg.has, RReg.has, h.regs]

theorem SameShape.inside {start reg : RReg} (h : SameShape start reg) (hall : AllInside start) : AllInside reg := by
  intro item hitem
  rw [h.length]
  exact hall item (h.has.mp hitem)

/-- What a call does to a register of the file. -/
theorem set_spec (hall : AllInside reg) (hitem : reg.has item) (stack : Nat → Ut8) (v : Ut64) :
    ∃ reg', rRegSetValue stack reg item v = some (reg', true) ∧ SameShape reg reg' ∧
      ∀ t, (reg'.regset t).cur.bytes = if t = item.type then
        regPut reg.bigEndian (reg.regset item.type).cur.bytes item.offset.toNat item.size.toNat v
        else (reg.regset t).cur.bytes := by
  obtain ⟨hp, hin⟩ := hall item hitem
  have hlen := length_regPut reg.bigEndian (hp.slot hin) v
  refine ⟨_, rRegSetValue_inside hp hin stack v, ⟨rfl, fun t => setArena_regs _ _ _ _, fun t => ?_⟩, fun t => ?_⟩
  · rw [setArena_cur]
    split_ifs with ht
    · rw [ht]
      exact hlen
    · rfl
  · rw [setArena_cur]
    split_ifs <;> rfl

theorem get_spec (hall : AllInside reg) (hitem : reg.has item) (longDouble : List Ut8 → Int → Ut64) :
    rRegGetValue longDouble reg item = some (BitVec.ofNat 64
      (regVal reg.bigEndian (reg.regset item.type).cur.bytes item.offset.toNat item.size.toNat)) :=
  rRegGetValue_inside (hall item hitem).1 (hall item hitem).2 longDouble

theorem setAll_spec (stack : Nat → Ut8) {start : RReg} (hall : AllInside start) (calls : List (RRegItem × Ut64))
    (hcalls : ∀ call ∈ calls, start.has call.1) : ∃ reg, setAll stack start calls = some reg ∧ SameShape start reg := by
  induction calls generalizing start with
  | nil => exact ⟨start, rfl, rfl, fun _ => rfl, fun _ => rfl⟩
  | cons call rest ih =>
    obtain ⟨reg, hset, hshape, -⟩ := set_spec hall (hcalls call List.mem_cons_self) stack call.2
    obtain ⟨reg', hrest, hshape'⟩ := ih (hshape.inside hall)
      (fun c hc => hshape.has.mpr (hcalls c (List.mem_cons_of_mem _ hc)))
    refine ⟨reg', ?_, hshape.trans hshape'⟩
    rw [setAll, hset]
    exact hrest

theorem ofNat_toNat_lt {n : Nat} (h : n < 2 ^ 64) : (BitVec.ofNat 64 n).toNat = n := by
  rw [BitVec.toNat_ofNat]
  exact Nat.mod_eq_of_lt h

/-- The value of a register fits its size. -/
theorem regVal_lt_size (be : Bool) {bytes : List Ut8} {off size : Nat} (h : Slot off size bytes.length) :
    regVal be bytes off size < 2 ^ size := by
  unfold regVal
  split_ifs with hone
  · rw [hone]
    omega
  · obtain ⟨q, n, -, hsize, -, hn8, hfit, hq, hn⟩ := h.whole hone
    have hlt := leNat_lt (orient be (window bytes q n))
    rw [orient_length, length_window hfit] at hlt
    rw [hq, hn]
    calc leNat (orient be (window bytes q n)) < 256 ^ n := hlt
      _ = 2 ^ size := by rw [hsize, Nat.pow_mul]

theorem regVal_lt (be : Bool) {bytes : List Ut8} {off size : Nat} (h : Slot off size bytes.length) :
    regVal be bytes off size < 2 ^ 64 := by
  have hsize : size ≤ 64 := by
    by_cases hone : size = 1
    · omega
    · obtain ⟨q, n, -, hsize, -, hn8, -⟩ := h.whole hone
      omega
  exact lt_of_lt_of_le (regVal_lt_size be h) (Nat.pow_le_pow_right (by decide) hsize)

end Run

/-- Registers that lie in their arenas are a register file. -/
theorem registerFileRight_of_inside {start : RReg} (hall : AllInside start) (longDouble : List Ut8 → Int → Ut64)
    (stack : Nat → Ut8) : RegisterFileRight longDouble stack start := by
  intro calls hcalls
  obtain ⟨reg, hreg, hshape⟩ := setAll_spec stack hall calls hcalls
  have hin := hshape.inside hall
  refine ⟨reg, hreg, fun item hitem v => ?_, fun hbe parent sub hparent hsub htype k hoff hfit => ?_⟩
  · have hitem' := hshape.has.mpr hitem
    obtain ⟨hp, hi⟩ := hin item hitem'
    obtain ⟨reg', hset, hshape', hbytes⟩ := set_spec hin hitem' stack v
    have hin' := hshape'.inside hin
    refine ⟨reg', hset, ?_, fun other hother hapart => ?_⟩
    · rw [get_spec hin' (hshape'.has.mpr hitem'), hbytes, if_pos rfl, hshape'.bigEndian,
        regVal_regPut_same reg.bigEndian (hp.slot hi) v, RRegItem.fitted]
      by_cases hone : item.size = 1
      · have hone' : item.size.toNat = 1 := by omega
        rw [if_pos hone, if_pos hone']
        split_ifs <;> rfl
      · have hsize := hp.size
        have hone' : ¬item.size.toNat = 1 := by omega
        rw [if_neg hone, if_neg hone']
    · have hother' := hshape.has.mpr hother
      obtain ⟨hpo, hio⟩ := hin other hother'
      refine ⟨_, get_spec hin hother' longDouble, ?_⟩
      rw [get_spec hin' (hshape'.has.mpr hother'), hbytes, hshape'.bigEndian]
      split_ifs with ht
      · rw [ht] at hio
        have hlow := hi.low
        have hlow' := hio.low
        have hsize := hp.size
        have hsize' := hpo.size
        have hbits : Apart item.offset.toNat item.size.toNat other.offset.toNat other.size.toNat := by
          rcases hapart with hne | hbits
          · exact absurd ht.symm hne
          · unfold Apart
            omega
        rw [regVal_regPut_apart reg.bigEndian (hp.slot hi) (hpo.slot hio) hbits, ht]
      · rfl
  · have hparent' := hshape.has.mpr hparent
    have hsub' := hshape.has.mpr hsub
    obtain ⟨hp, hi⟩ := hin parent hparent'
    obtain ⟨hps, his⟩ := hin sub hsub'
    refine ⟨_, _, get_spec hin hparent' longDouble, get_spec hin hsub' longDouble, ?_⟩
    rw [htype] at his ⊢
    have hlow := hi.low
    have hlows := his.low
    have hsize := hp.size
    have hsizes := hps.size
    have hslot := hps.slot his
    have hplace : sub.offset.toNat = parent.offset.toNat + 8 * k := by omega
    rw [hshape.bigEndian, hbe, ofNat_toNat_lt (regVal_lt false (hps.slot his)),
      ofNat_toNat_lt (regVal_lt false (hp.slot hi)), hplace]
    rw [hplace] at hslot
    exact regVal_alias (hp.slot hi) hslot (by omega)

section Condition

variable {reg : RReg} {bigEndian : Bool}

theorem loadBytes_some {bytes bs : List Ut8} {off : Int} {n : Nat} (h : loadBytes bytes off n = some bs) :
    0 ≤ off ∧ off + n ≤ bytes.length := by
  unfold loadBytes at h
  split_ifs at h with hin
  exact hin

theorem rMemCopybits_some {bytes bs src : List Ut8} {off : Int} {bits : Nat}
    (h : rMemCopybits bytes off src bits = some bs) : 0 ≤ off := by
  unfold rMemCopybits at h
  by_contra hneg
  have hnone : storeBytes bytes off (src.take (bits / 8)) = none := if_neg (fun hin => hneg hin.1)
  simp only [hnone, Option.bind_eq_bind, Option.bind_none] at h
  cases h

/-- A register that is set lies in its arena. -/
theorem inside_of_set {item : RRegItem} (hp : Plain item) (stack : Nat → Ut8) (v : Ut64) {reg' : RReg}
    (h : rRegSetValue stack reg item v = some (reg', true)) : Inside item (reg.regset item.type).cur.bytes.length := by
  have hsize := hp.size
  have hal := hp.aligned
  unfold rRegSetValue at h
  by_cases hone : item.size = 1
  · simp only [hone, if_true] at h
    cases hload : loadBytes (reg.regset item.type).cur.bytes (item.offset.tdiv 8) 1 with
    | none =>
      rw [hload] at h
      cases h
    | some bs =>
      cases hmask : bitMask item.offset with
      | none =>
        rw [hload, hmask] at h
        cases h
      | some mask =>
        obtain ⟨hlow, hhigh⟩ := loadBytes_some hload
        have hmod : 0 ≤ item.offset.tmod 8 := by
          unfold bitMask at hmask
          split_ifs at hmask with hm
          exact hm
        have hsum := Int.mul_tdiv_add_tmod item.offset 8
        have hlt := Int.tmod_lt_of_pos item.offset (show (0 : Int) < 8 by decide)
        exact ⟨by omega, by omega⟩
  · simp only [hone, if_false] at h
    obtain ⟨z, hz⟩ : ∃ z, item.offset = 8 * z := ⟨item.offset / 8, by omega⟩
    obtain ⟨n, hn⟩ : ∃ n : Nat, item.size = ((8 * n : Nat) : Int) := ⟨(item.size / 8).toNat, by omega⟩
    have hoff : bits2bytes item.offset = z := by
      rw [hz, bits2bytes, Int.mul_tdiv_cancel_left z (by decide), Int.mul_tmod_right]
      simp
    have hbytes : bits2bytes item.size = n := by
      rw [hn, bits2bytes_eight]
    have hlen : (reg.regset item.type).cur.size = (reg.regset item.type).cur.bytes.length := rfl
    cases hsrc : valueBytes stack reg.bigEndian item.size v with
    | none =>
      rw [hsrc] at h
      cases h
    | some src =>
      rw [hsrc] at h
      simp only [hoff, hbytes] at h
      split_ifs at h with hfits
      · cases hcopy : rMemCopybits (reg.regset item.type).cur.bytes z src item.size.toNat with
        | none =>
          rw [hcopy] at h
          cases h
        | some bytes =>
          have hlow := rMemCopybits_some hcopy
          exact ⟨by omega, by omega⟩
      · cases h

/-- The arena of an accepted profile has the bytes that the condition asks for. -/
theorem inside_iff (h : Profiled bigEndian reg) {item : RRegItem} (hitem : reg.has item)
    (hplain : ∀ r, reg.has r → Plain r) :
    Inside item (reg.regset item.type).cur.bytes.length ↔ InArena reg item := by
  have hlen : ((reg.regset item.type).cur.bytes.length : Int) = max 1 (fitSize (reg.regset item.type).regs) := by
    rw [h.cur, List.length_replicate]
    omega
  have hrange : ∀ r ∈ (reg.regset item.type).regs,
      reg.has r ∧ 1 ≤ r.size ∧ r.size ≤ 64 ∧ -2147483648 ≤ r.offset ∧ r.offset < 2147483648 := by
    intro r hr
    obtain ⟨htype, hlow, hhigh⟩ := h.ranges item.type r hr
    have hhas : reg.has r := by
      rw [RReg.has, htype]
      exact hr
    have hsize := (hplain r hhas).size
    exact ⟨hhas, by omega, by omega, hlow, hhigh⟩
  obtain ⟨-, hsize, -, hlow, -⟩ := hrange item hitem
  obtain ⟨hpos, hall, hreach⟩ := fitSize_spec (reg.regset item.type).regs
  constructor
  · intro hin
    have hi := hin.low
    have hhigh := hin.high
    obtain ⟨m, hm⟩ : ∃ m : Nat, item.offset + item.size = m := ⟨(item.offset + item.size).toNat, by omega⟩
    refine ⟨hi, ?_⟩
    by_cases hsmall : fitSize (reg.regset item.type).regs ≤ 1
    · exact ⟨item, hitem, by omega, Int.le_refl _⟩
    · obtain ⟨r, hr, heq⟩ := hreach.resolve_left (by omega)
      obtain ⟨-, hr1, hr64, hrl, hrh⟩ := hrange r hr
      have hwpos : 0 < wrapInt (r.offset + r.size) := by
        by_contra hneg
        have hle := bits2bytes_nonpos (show wrapInt (r.offset + r.size) ≤ 0 by omega)
        omega
      have hsum : r.offset + r.size < 2147483648 := by
        unfold wrapInt at hwpos
        omega
      rw [wrapInt_of_range (by omega) hsum] at heq
      refine ⟨r, hr, hsum, ?_⟩
      rw [← heq, hm, bits2bytes_nat]
      omega
  · intro hin
    obtain ⟨hi, r, hr, hsum, hle⟩ := hin
    obtain ⟨-, hr1, hr64, hrl, hrh⟩ := hrange r hr
    have hfit := hall r hr
    obtain ⟨m, hm⟩ : ∃ m : Nat, item.offset + item.size = m := ⟨(item.offset + item.size).toNat, by omega⟩
    rw [wrapInt_of_range (by omega) hsum] at hfit
    rw [hm, bits2bytes_nat] at hle
    exact ⟨hi, by omega⟩

/-- An accepted profile of plain registers makes a register file if and only if each of them lies in its arena. -/
theorem register_file_iff (longDouble : List Ut8 → Int → Ut64) (stack : Nat → Ut8) (bigEndian : Bool) (str : CStr)
    (reg : RReg) (h : rRegSetProfileString { rRegNew with bigEndian := bigEndian } str = some (reg, true))
    (hplain : ∀ item, reg.has item → Plain item) :
    RegisterFileRight longDouble stack reg ↔ ∀ item, reg.has item → InArena reg item := by
  have hp := rRegSetProfileString_profiled h
  constructor
  · intro hright item hitem
    obtain ⟨reg1, hreg1, hset, -⟩ := hright [] nofun
    cases hreg1
    obtain ⟨reg2, hreg2, -⟩ := hset item hitem 0
    exact (inside_iff hp hitem hplain).mp (inside_of_set (hplain item hitem) stack 0 hreg2)
  · intro hall
    apply registerFileRight_of_inside
    intro item hitem
    exact ⟨hplain item hitem, (inside_iff hp hitem hplain).mpr (hall item hitem)⟩

/-- The register file that a profile makes of a new one. -/
def profiled (bigEndian : Bool) (str : CStr) : RReg :=
  ((rRegSetProfileString { rRegNew with bigEndian := bigEndian } str).map Prod.fst).getD rRegNew

theorem profiled_eq {str : CStr}
    (h : (rRegSetProfileString { rRegNew with bigEndian := bigEndian } str).map Prod.snd = some true) :
    rRegSetProfileString { rRegNew with bigEndian := bigEndian } str = some (profiled bigEndian str, true) := by
  obtain ⟨r, hr, hsnd⟩ := Option.map_eq_some_iff.mp h
  rw [profiled, hr, ← hsnd]
  rfl

def RReg.items (reg : RReg) : List RRegItem :=
  [RRegisterType.gpr, .drx, .fpu, .mmx, .xmm, .flg, .seg].flatMap (fun t => (reg.regset t).regs)

instance (reg : RReg) (item : RRegItem) : Decidable (reg.has item) := inferInstanceAs (Decidable (_ ∈ _))

theorem RReg.has.mem_items {item : RRegItem} (h : reg.has item) : item ∈ reg.items := by
  refine List.mem_flatMap.mpr ⟨item.type, ?_, h⟩
  cases item.type <;> simp

instance (item : RRegItem) : Decidable (Plain item) :=
  decidable_of_iff ((item.size = 1 ∨ item.size = 8 ∨ item.size = 16 ∨ item.size = 32 ∨ item.size = 64) ∧
    (8 ≤ item.size → item.offset % 8 = 0)) ⟨fun h => ⟨h.1, h.2⟩, fun h => ⟨h.size, h.aligned⟩⟩

instance (reg : RReg) (item : RRegItem) : Decidable (InArena reg item) := inferInstanceAs (Decidable (_ ∧ _))

/-- Overlapping registers of 32, 16 and 8 bits, and a flag. -/
theorem register_file_iff_eax : RegisterFileRight (fun _ _ => 0) (fun _ => 0)
    (profiled false "gpr eax .32 0 0\ngpr ax .16 0 0\ngpr ah .8 1 0\nflg zf .1 .6 0\n".toList) :=
  (register_file_iff _ _ false _ _ (profiled_eq (by decide))
    (fun item h => (by decide +kernel : ∀ item ∈ RReg.items _, Plain item) item h.mem_items)).mpr
    (fun item h => (by decide +kernel : ∀ item ∈ RReg.items _, InArena _ item) item h.mem_items)

/-- The profile `gpr a .32 -4 0` is accepted; setting its register writes before the arena. -/
theorem register_file_writes_before :
    (rRegSetProfileString rRegNew "gpr a .32 -4 0\n".toList).map Prod.snd = some true ∧
      ¬RegisterFileRight (fun _ _ => 0) (fun _ => 0) (profiled false "gpr a .32 -4 0\n".toList) := by
  refine ⟨by decide, fun hright => ?_⟩
  obtain ⟨reg, hreg, hset, -⟩ := hright [] nofun
  cases hreg
  obtain ⟨item, hitem⟩ : ∃ item : RRegItem, item =
      { name := ['a'], type := .gpr, size := 32, offset := -32, packedSize := 0, flags := none } := ⟨_, rfl⟩
  have hhas : (profiled false "gpr a .32 -4 0\n".toList).has item := by
    rw [hitem]
    decide
  have hnone : (rRegSetValue (fun _ => 0) (profiled false "gpr a .32 -4 0\n".toList) item 0).isNone = true := by
    rw [hitem]
    decide
  obtain ⟨reg', hreg', -⟩ := hset item hhas 0
  rw [hreg'] at hnone
  cases hnone

end Condition

end Radare.Reg
