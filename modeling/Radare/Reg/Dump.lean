import Mathlib.Data.List.TakeWhile
import Radare.Reg.Snapshots
import Radare.Util.Hex

namespace Radare.Reg

open Framework

/-- The types in the order of their numbers. -/
def regTypes : List RRegisterType := [.gpr, .drx, .fpu, .mmx, .xmm, .flg, .seg]

/-- The loop of `r_reg_get_bytes` over all types; `realloc` refuses a negative size. -/
def getAllBytes (reg : RReg) : List RRegisterType → List Ut8 → Int → List Ut8 × Int
  | [], buf, sz => (buf, sz)
  | i :: types, buf, sz =>
    let arena := (reg.regset i).cur
    let sz := wrapInt (sz + arena.size)
    if sz < 0 then (buf, sz) else getAllBytes reg types (buf ++ arena.bytes) sz

/-- `r_reg_get_bytes`: the buffer and its size. `none` is the type -1. -/
def rRegGetBytes (reg : RReg) : Option RRegisterType → List Ut8 × Int
  | none => getAllBytes reg regTypes [] 0
  | some type => ((reg.regset type).cur.bytes, (reg.regset type).cur.size)

/-- The loop of `r_reg_read_regs`; every arena is cleared before its bytes are copied. -/
def readRegsLoop (buf : List Ut8) (len : Int) : List RRegisterType → RReg → Int → Option (RReg × Bool)
  | [], reg, _ => some (reg, true)
  | i :: types, reg, off => do
    let arena := (reg.regset i).cur
    let count := min (len - off) arena.size
    let bytes ← if 0 ≤ count then loadBytes buf off count.toNat else none
    let reg := reg.setArena i ⟨bytes ++ List.replicate (arena.bytes.length - bytes.length) 0⟩
    let off := wrapInt (off + arena.size)
    if len < off then some (reg, false) else readRegsLoop buf len types reg off

def rRegReadRegs (reg : RReg) (buf : List Ut8) (len : Int) : Option (RReg × Bool) := readRegsLoop buf len regTypes reg 0

/-- The loop of `r_reg_arena_set_bytes`. -/
def arenaSetBytesLoop (bin : List Ut8) : List RRegisterType → RReg → Int → RReg
  | [], reg, _ => reg
  | i :: types, reg, n =>
    let sz := (reg.regset i).cur.size
    let bl := bin.length - n
    if bl - n < sz then (rRegSetBytes reg i ((bin.drop n.toNat).take (bl - n).toNat)).1
    else arenaSetBytesLoop bin types (rRegSetBytes reg i (bin.drop n.toNat)).1 (n + sz)

/-- `r_reg_arena_set_bytes`; `mem` is what `malloc` gives. Where `r_hex_str2bin` finds more bytes than the digits up to
the first blank make, it leaves the buffer. -/
def rRegArenaSetBytes (mem : Nat → Ut8) (reg : RReg) (str : CStr) : Option (RReg × Int) := do
  let str := str.dropWhile fun c => c = ' ' ∨ c = '\t'
  let len ← rHexStrIsValid str
  if len = -1 then some (reg, -1)
  else
    let binStrLen := (wrapInt (len + 1)).tdiv 2
    if binStrLen < 0 then some (reg, -1)
    else do
      let (count, out) ← rHexStr2bin (some str) (some mem)
      if binStrLen < count.natAbs then none
      else some (arenaSetBytesLoop ((List.range binStrLen.toNat).map (out.getD mem)) regTypes reg 0, 0)

/-- The two ways back for the bytes of a dump: as they are, or as hexadecimal digits. -/
inductive Restore where
  | readRegs
  | arenaSetBytes (upper : Bool) (mem : Nat → Ut8)

/-- The dump of `st`, fed to `st'`. -/
def Restore.run (st st' : RReg) : Restore → Option RReg
  | readRegs => (rRegReadRegs st' (rRegGetBytes st none).1 (rRegGetBytes st none).2).map Prod.fst
  | arenaSetBytes upper mem =>
    (rRegArenaSetBytes mem st' ((rRegGetBytes st none).1.flatMap (printByte upper))).map Prod.fst

/-- The arenas of both have the same sizes. -/
def SameSizes (st st' : RReg) : Prop := ∀ t, (st'.regset t).cur.bytes.length = (st.regset t).cur.bytes.length

/-- A state of the register file `reg`: no arena has become shorter, and an `int` counts the bytes of all. -/
structure StateOf (reg st : RReg) : Prop where
  arenas : ∀ t, (reg.regset t).cur.bytes.length ≤ (st.regset t).cur.bytes.length
  total : (regTypes.flatMap fun t => (st.regset t).cur.bytes).length < 2147483648

section Dump

variable (st : RReg)

theorem getAllBytes_eq (types : List RRegisterType) (buf : List Ut8)
    (h : buf.length + (types.flatMap fun t => (st.regset t).cur.bytes).length < 2147483648) :
    getAllBytes st types buf buf.length =
      (buf ++ types.flatMap fun t => (st.regset t).cur.bytes,
        ((buf ++ types.flatMap fun t => (st.regset t).cur.bytes).length : Int)) := by
  induction types generalizing buf with
  | nil => simp [getAllBytes]
  | cons i types ih =>
    rw [List.flatMap_cons, List.length_append] at h
    have hsz : wrapInt ((buf.length : Int) + (st.regset i).cur.size) = (buf ++ (st.regset i).cur.bytes).length := by
      rw [RRegArena.size, List.length_append, Nat.cast_add]
      exact wrapInt_of_range (by omega) (by omega)
    rw [getAllBytes]
    simp only [hsz]
    rw [if_neg (by omega), ih _ (by rw [List.length_append]; omega), List.flatMap_cons, List.append_assoc]

/-- Every arena takes its own part of the dump; `front` is what was read before. -/
theorem readRegsLoop_eq (types : List RRegisterType) (hnd : types.Nodup) (reg : RReg) (front : List Ut8)
    (hsize : ∀ t ∈ types, (reg.regset t).cur.bytes.length = (st.regset t).cur.bytes.length)
    (h : (front ++ types.flatMap fun t => (st.regset t).cur.bytes).length < 2147483648) :
    ∃ reg', readRegsLoop (front ++ types.flatMap fun t => (st.regset t).cur.bytes)
        (front ++ types.flatMap fun t => (st.regset t).cur.bytes).length types reg front.length = some (reg', true) ∧
      (∀ t ∈ types, (reg'.regset t).cur = (st.regset t).cur) ∧
      ∀ t, t ∉ types → (reg'.regset t).cur = (reg.regset t).cur := by
  induction types generalizing reg front with
  | nil => exact ⟨reg, rfl, fun t ht => absurd ht List.not_mem_nil, fun t _ => rfl⟩
  | cons i types ih =>
    obtain ⟨hi, hnd⟩ := List.nodup_cons.mp hnd
    have hsizeI := hsize i List.mem_cons_self
    rw [List.flatMap_cons, ← List.append_assoc] at h ⊢
    generalize hbuf : front ++ (st.regset i).cur.bytes ++ types.flatMap (fun t => (st.regset t).cur.bytes) = buf at h ⊢
    have hlen : buf.length = front.length + (st.regset i).cur.bytes.length +
        (types.flatMap fun t => (st.regset t).cur.bytes).length := by
      rw [← hbuf, List.length_append, List.length_append]
    have hload : loadBytes buf front.length (st.regset i).cur.bytes.length = some (st.regset i).cur.bytes := by
      rw [loadBytes_nat (by omega), ← hbuf, window, List.append_assoc, List.drop_left, List.take_left]
    have hcount : min ((buf.length : Int) - front.length) (reg.regset i).cur.size = (st.regset i).cur.bytes.length := by
      rw [RRegArena.size, hsizeI]
      omega
    have hoff : wrapInt ((front.length : Int) + (reg.regset i).cur.size) = (front ++ (st.regset i).cur.bytes).length := by
      rw [RRegArena.size, hsizeI, List.length_append, Nat.cast_add]
      exact wrapInt_of_range (by omega) (by omega)
    rw [readRegsLoop]
    simp only [hcount, hoff, Int.toNat_natCast, Int.natCast_nonneg, if_true, hload, Option.bind_eq_bind, Option.bind_some,
      hsizeI, Nat.sub_self, List.replicate_zero, List.append_nil]
    rw [if_neg (by rw [List.length_append]; omega)]
    have hcur : ∀ t, ((reg.setArena i ⟨(st.regset i).cur.bytes⟩).regset t).cur =
        if t = i then (st.regset i).cur else (reg.regset t).cur := fun t => setArena_cur reg i t _
    obtain ⟨reg', hloop, hin, hout⟩ := ih hnd (reg.setArena i ⟨(st.regset i).cur.bytes⟩) (front ++ (st.regset i).cur.bytes)
      (fun t ht => by
        have hne : t ≠ i := fun heq => hi (heq ▸ ht)
        rw [hcur, if_neg hne]
        exact hsize t (List.mem_cons_of_mem i ht))
      (by rw [hbuf]; exact h)
    rw [hbuf] at hloop
    refine ⟨reg', hloop, fun t ht => ?_, fun t ht => ?_⟩
    · rcases List.mem_cons.mp ht with rfl | ht
      · rw [hout t hi, hcur, if_pos rfl]
      · exact hin t ht
    · obtain ⟨hne, ht⟩ := not_or.mp (List.mem_cons.not.mp ht)
      rw [hout t ht, hcur, if_neg hne]

theorem mem_regTypes (t : RRegisterType) : t ∈ regTypes := by
  cases t <;> decide

/-- Behind the first type the loop leaves the first arena alone. -/
theorem arenaSetBytesLoop_other (bin : List Ut8) (types : List RRegisterType) (reg : RReg) (n : Int) {t : RRegisterType}
    (ht : t ∉ types) : ((arenaSetBytesLoop bin types reg n).regset t).cur = (reg.regset t).cur := by
  induction types generalizing reg n with
  | nil => rfl
  | cons i types ih =>
    obtain ⟨hne, ht⟩ := not_or.mp (List.mem_cons.not.mp ht)
    have hset : ∀ buf, ((rRegSetBytes reg i buf).1.regset t).cur = (reg.regset t).cur := by
      intro buf
      rw [rRegSetBytes]
      split
      · rfl
      · rw [setArena_cur, if_neg hne]
    rw [arenaSetBytesLoop]
    split
    · exact hset _
    · rw [ih _ _ ht, hset]

/-- A buffer that is longer than the first arena makes this as long as itself. -/
theorem arenaSetBytesLoop_first {bin : List Ut8} {reg : RReg} (hlong : (reg.regset .gpr).cur.bytes.length < bin.length) :
    ((arenaSetBytesLoop bin regTypes reg 0).regset .gpr).cur.bytes.length = bin.length := by
  have hpos : ¬(bin.drop (0 : Int).toNat).length < 1 := by
    rw [Int.toNat_zero, List.drop_zero]
    omega
  rw [regTypes, arenaSetBytesLoop, if_neg (by rw [RRegArena.size]; omega), arenaSetBytesLoop_other _ _ _ _ (by decide),
    rRegSetBytes, if_neg hpos, setArena_cur, if_pos rfl]
  simp only [Int.toNat_zero, List.drop_zero, List.length_append, List.length_take, List.length_replicate]
  omega

end Dump

section Sizes

variable {bigEndian : Bool} {reg st : RReg}

/-- The arenas of an accepted profile are not empty. -/
theorem Profiled.nonempty (h : Profiled bigEndian reg) (t : RRegisterType) : 1 ≤ (reg.regset t).cur.bytes.length := by
  rw [h.cur t, List.length_replicate]
  omega

/-- With the sizes that the profile gives to the arenas a register file is a state of it. -/
theorem Profiled.stateOf (h : Profiled bigEndian reg) (hst : SameSizes reg st) : StateOf reg st := by
  have hlen : ∀ t, (st.regset t).cur.bytes.length ≤ 268435456 := by
    intro t
    have hle := fitSize_le (reg.regset t).regs
    rw [hst t, h.cur t, List.length_replicate]
    omega
  refine ⟨fun t => (hst t).ge, ?_⟩
  simp only [regTypes, List.flatMap_cons, List.flatMap_nil, List.length_append, List.length_nil]
  have hgpr := hlen .gpr
  have hdrx := hlen .drx
  have hfpu := hlen .fpu
  have hmmx := hlen .mmx
  have hxmm := hlen .xmm
  have hflg := hlen .flg
  have hseg := hlen .seg
  omega

/-- The dump of a state is the bytes of its arenas, one type after the other. -/
theorem StateOf.dump (hst : StateOf reg st) :
    rRegGetBytes st none = (regTypes.flatMap fun t => (st.regset t).cur.bytes,
      ((regTypes.flatMap fun t => (st.regset t).cur.bytes).length : Int)) := by
  have hall := getAllBytes_eq st regTypes [] (by rw [List.length_nil, Nat.zero_add]; exact hst.total)
  exact hall

section Digits

variable (upper : Bool) (bs : List Ut8)

theorem length_print : (bs.flatMap (printByte upper)).length = 2 * bs.length := by
  induction bs with
  | nil => rfl
  | cons b bs ih =>
    rw [List.flatMap_cons, List.length_append, ih, List.length_cons]
    exact (Nat.mul_succ 2 bs.length).symm ▸ Nat.add_comm _ _

theorem print_digit {c : Char} (hc : c ∈ bs.flatMap (printByte upper)) : (digitValue c).isSome = true := by
  obtain ⟨b, -, hb⟩ := List.mem_flatMap.mp hc
  have hlt := b.isLt
  have hhigh := digitValue_print upper (by omega : b.toNat / 16 < 16)
  have hlow := digitValue_print upper (by omega : b.toNat % 16 < 16)
  rw [printByte] at hb
  rcases List.mem_cons.mp hb with rfl | hb
  · rw [hhigh]
    rfl
  · rw [List.mem_singleton.mp hb, hlow]
    rfl

theorem print_blank : (bs.flatMap (printByte upper)).dropWhile (fun c => c = ' ' ∨ c = '\t') = bs.flatMap (printByte upper) := by
  rw [List.dropWhile_eq_self_iff]
  intro hne hhead
  have hdigit := print_digit upper bs (List.getElem_mem hne)
  rcases of_decide_eq_true hhead with heq | heq
  · rw [heq] at hdigit
    exact absurd hdigit (by decide)
  · rw [heq] at hdigit
    exact absurd hdigit (by decide)

theorem rHexStrIsValid_print {len : Int} (h : rHexStrIsValid (bs.flatMap (printByte upper)) = some len) :
    len = ((2 * bs.length : Nat) : Int) ∧ 2 * bs.length < 2147483648 := by
  have hskip : skipHexPrefix (bs.flatMap (printByte upper)) = bs.flatMap (printByte upper) := by
    cases bs with
    | nil => rfl
    | cons b bs => exact skipHexPrefix_byte upper b _
  have htake : (bs.flatMap (printByte upper)).takeWhile (fun c => (digitValue c).isSome) = bs.flatMap (printByte upper) :=
    List.takeWhile_eq_self_iff.mpr fun c => print_digit upper bs
  have hdrop : (bs.flatMap (printByte upper)).dropWhile (fun c => (digitValue c).isSome) = [] :=
    List.dropWhile_eq_nil_iff.mpr fun c => print_digit upper bs
  simp only [rHexStrIsValid, hskip, htake, hdrop, length_print] at h
  split at h
  · cases h
  · obtain rfl := Option.some.inj h
    exact ⟨rfl, by omega⟩

end Digits

theorem readRegs_restores {st' : RReg} (hst : StateOf reg st) (hst' : SameSizes st st') :
    ∃ out, Restore.run st st' .readRegs = some out ∧ ∀ t, (out.regset t).cur = (st.regset t).cur := by
  obtain ⟨out, hloop, hcur, -⟩ := readRegsLoop_eq st regTypes (by decide) st' [] (fun t _ => hst' t) hst.total
  refine ⟨out, ?_, fun t => hcur t (mem_regTypes t)⟩
  rw [List.nil_append, List.length_nil, Nat.cast_zero] at hloop
  rw [Restore.run, hst.dump, rRegReadRegs, hloop]
  rfl

/-- The digits of a buffer that is longer than the first arena leave this one longer, if they are taken at all. -/
theorem arenaSetBytes_longer {upper : Bool} {mem : Nat → Ut8} {bs : List Ut8} {reg' : RReg} {code : Int}
    (hlong : (st.regset .gpr).cur.bytes.length < bs.length)
    (hset : rRegArenaSetBytes mem st (bs.flatMap (printByte upper)) = some (reg', code)) :
    (reg'.regset .gpr).cur.bytes.length = bs.length := by
  rw [rRegArenaSetBytes, print_blank upper bs] at hset
  cases hvalid : rHexStrIsValid (bs.flatMap (printByte upper)) with
  | none =>
    simp only [hvalid, Option.bind_eq_bind, Option.bind_none] at hset
    cases hset
  | some len =>
    obtain ⟨hlen, hsmall⟩ := rHexStrIsValid_print upper bs hvalid
    have hhalf : (wrapInt (len + 1)).tdiv 2 = bs.length := by
      rw [wrapInt_of_range (by omega) (by omega), Int.tdiv_eq_ediv_of_nonneg (by omega)]
      omega
    simp only [hvalid, Option.bind_eq_bind, Option.bind_some, hhalf] at hset
    rw [if_neg (by omega), if_neg (by omega)] at hset
    obtain ⟨⟨count, mem'⟩, -, hset⟩ := Option.bind_eq_some_iff.mp hset
    dsimp only at hset
    split at hset
    · cases hset
    · obtain ⟨rfl, -⟩ := Prod.mk.inj (Option.some.inj hset)
      have hbin : ((List.range (bs.length : Int).toNat).map (mem'.getD mem)).length = bs.length := by
        rw [List.length_map, List.length_range, Int.toNat_natCast]
      rw [arenaSetBytesLoop_first (by rw [hbin]; exact hlong), hbin]

/-- Both ways for every two states of a profile: the bytes come back as they are dumped, the digits never do. -/
theorem restores_iff (bigEndian : Bool) (str : CStr) (reg : RReg)
    (h : rRegSetProfileString { rRegNew with bigEndian := bigEndian } str = some (reg, true)) {st st' : RReg}
    (hst : StateOf reg st) (hst' : SameSizes st st') (way : Restore) :
    (∃ out, way.run st st' = some out ∧ ∀ t, (out.regset t).cur = (st.regset t).cur) ↔ way = .readRegs := by
  cases way with
  | readRegs => exact iff_of_true (readRegs_restores hst hst') rfl
  | arenaSetBytes upper mem =>
    refine iff_of_false ?_ (by simp)
    rintro ⟨out, hrun, hcur⟩
    have hpos := ((rRegSetProfileString_profiled h).nonempty .seg).trans (hst.arenas .seg)
    have hlen : (st'.regset .gpr).cur.bytes.length < (regTypes.flatMap fun t => (st.regset t).cur.bytes).length := by
      rw [hst' .gpr]
      simp only [regTypes, List.flatMap_cons, List.length_append]
      omega
    rw [Restore.run, hst.dump] at hrun
    obtain ⟨⟨out', code⟩, hset, rfl⟩ := Option.map_eq_some_iff.mp hrun
    have hgrown := arenaSetBytes_longer hlen hset
    rw [hcur .gpr, ← hst' .gpr] at hgrown
    omega

end Sizes

/-- A state of the register file of `eaxProfile` with other bytes. -/
def eaxState : RReg := (profiled false eaxProfile).setArena .gpr ⟨[1, 2, 3, 4]⟩

theorem eaxState_sizes : SameSizes (profiled false eaxProfile) eaxState := by
  intro t
  rw [eaxState, setArena_cur]
  split
  · rename_i ht
    rw [ht]
    decide
  · rfl

theorem restores_iff_eax : ∃ out, Restore.run eaxState (profiled false eaxProfile) .readRegs = some out ∧
    ∀ t, (out.regset t).cur = (eaxState.regset t).cur :=
  (restores_iff false eaxProfile _ eaxProfile_accepted
    ((rRegSetProfileString_profiled eaxProfile_accepted).stateOf eaxState_sizes)
    (fun t => (eaxState_sizes t).symm) .readRegs).mpr rfl

/-- The digits of the ten bytes of the dump make an arena of ten bytes of that for `eax`. -/
theorem digits_grow_arena :
    rRegSetProfileString { rRegNew with bigEndian := false } eaxProfile = some (profiled false eaxProfile, true) ∧
      ((profiled false eaxProfile).regset .gpr).cur.bytes.length = 4 ∧
      (Restore.run (profiled false eaxProfile) (profiled false eaxProfile) (.arenaSetBytes false fun _ => 0)).map
        (fun out => (out.regset .gpr).cur.bytes.length) = some 10 :=
  ⟨eaxProfile_accepted, by decide, by decide⟩

end Radare.Reg
