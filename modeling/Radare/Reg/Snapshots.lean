import Radare.Reg.RegFile

namespace Radare.Reg

/-- The calls between snapshots. `stack` is what the stack holds behind the 80 and 96 bit cases. -/
inductive RegOp where
  | setValue (stack : Nat → Ut8) (item : RRegItem) (value : Ut64)
  | setBytes (type : RRegisterType) (buf : List Ut8)
  | arenaZero

def RegOp.run (reg : RReg) : RegOp → Option RReg
  | .setValue stack item value => (rRegSetValue stack reg item value).map Prod.fst
  | .setBytes type buf => some (rRegSetBytes reg type buf).1
  | .arenaZero => some (rRegArenaZero reg)

/-- Well-nested calls: a push, the calls up to its pop, the calls after it. -/
inductive Nested where
  | done
  | call (op : RegOp) (rest : Nested)
  | snapshot (body rest : Nested)

def Nested.run : RReg → Nested → Option RReg
  | reg, done => some reg
  | reg, call op rest => (op.run reg).bind (fun r => rest.run r)
  | reg, snapshot body rest => (body.run (rRegArenaPush reg)).bind (fun r => rest.run (rRegArenaPop r))

/-- The current arena is the last one of the pool. -/
def RReg.AtTail (reg : RReg) : Prop := ∀ t, (reg.regset t).pool.getLast? = some (reg.regset t).arena

/-- Both register files hold the same. -/
def SameValues (longDouble : List Ut8 → Int → Ut64) (reg reg' : RReg) : Prop :=
  (∀ t, (reg'.regset t).cur = (reg.regset t).cur) ∧
    ∀ item, reg.has item → rRegGetValue longDouble reg' item = rRegGetValue longDouble reg item

/-- The calls are carried out, every pop gives back what was there at the push, and the current
arena is always the last one. -/
def Nested.Right (longDouble : List Ut8 → Int → Ut64) : RReg → Nested → Prop
  | reg, done => reg.AtTail
  | reg, call op rest => reg.AtTail ∧ ∃ reg', op.run reg = some reg' ∧ rest.Right longDouble reg'
  | reg, snapshot body rest => reg.AtTail ∧ body.Right longDouble (rRegArenaPush reg) ∧
    ∃ reg', body.run (rRegArenaPush reg) = some reg' ∧ SameValues longDouble reg (rRegArenaPop reg') ∧
      rest.Right longDouble (rRegArenaPop reg')

/-- The condition on a call: nothing is written before an arena, no flag behind it, and an arena does
not come near the `int` range. -/
def RegOp.Ok (reg : RReg) : RegOp → Prop
  | .setValue _ item _ => 0 ≤ item.offset ∧
    (item.size = 1 → item.offset < 8 * (reg.regset item.type).cur.bytes.length)
  | .setBytes _ buf => buf.length ≤ 2147483639
  | .arenaZero => True

/-- Every call meets the condition where it is made. -/
def Nested.Ok : RReg → Nested → Prop
  | _, done => True
  | reg, call op rest => op.Ok reg ∧ ∀ reg', op.run reg = some reg' → rest.Ok reg'
  | reg, snapshot body rest => body.Ok (rRegArenaPush reg) ∧
    ∀ reg', body.run (rRegArenaPush reg) = some reg' → rest.Ok (rRegArenaPop reg')

/-- The arenas of a type are different ones, the current one is the last, and it can be copied. -/
structure RRegSet.Good (s : RRegSet) : Prop where
  tail : s.pool.getLast? = some s.arena
  nodup : s.pool.Nodup
  below : ∀ id ∈ s.pool, id < s.next
  low : 1 ≤ s.cur.bytes.length
  high : s.cur.bytes.length ≤ 2147483639

/-- Only the current arena has changed. -/
structure RRegSet.Kept (s u : RRegSet) : Prop where
  pool : u.pool = s.pool
  arena : u.arena = s.arena
  regs : u.regs = s.regs
  next : s.next ≤ u.next
  heap : ∀ id ∈ s.pool, id ≠ s.arena → u.heap id = s.heap id

section Sets

variable {s u : RRegSet}

theorem RRegSet.Kept.refl (s : RRegSet) : s.Kept s := ⟨rfl, rfl, rfl, Nat.le_refl _, fun _ _ _ => rfl⟩

theorem RRegSet.Kept.trans {v : RRegSet} (h : s.Kept u) (h' : u.Kept v) : s.Kept v := by
  refine ⟨h'.pool.trans h.pool, h'.arena.trans h.arena, h'.regs.trans h.regs, Nat.le_trans h.next h'.next, ?_⟩
  intro id hid hne
  rw [h'.heap id (h.pool ▸ hid) (h.arena ▸ hne), h.heap id hid hne]

theorem RRegSet.Good.setCur (h : s.Good) {a : RRegArena} (hlow : 1 ≤ a.bytes.length)
    (hhigh : a.bytes.length ≤ 2147483639) : (s.setCur a).Good ∧ s.Kept (s.setCur a) := by
  refine ⟨⟨h.tail, h.nodup, h.below, ?_, ?_⟩, rfl, rfl, rfl, Nat.le_refl _, ?_⟩
  · rw [RRegSet.setCur_cur]
    exact hlow
  · rw [RRegSet.setCur_cur]
    exact hhigh
  · intro id hid hne
    exact Function.update_of_ne hne _ _

theorem RRegSet.Good.push_eq (h : s.Good) :
    s.push = { s with
      heap := Function.update s.heap s.next s.cur, next := s.next + 1, pool := s.pool ++ [s.next], arena := s.next } := by
  have hlow := h.low
  have hhigh := h.high
  have hsize : s.cur.size ≤ 2147483639 := by
    show (s.cur.bytes.length : Int) ≤ 2147483639
    omega
  have hzero : 1 - s.cur.bytes.length = 0 := by omega
  rw [RRegSet.push_eq hsize, hzero, List.replicate_zero, List.append_nil]

theorem RRegSet.Good.push (h : s.Good) : s.push.Good := by
  have hcur : s.push.cur = s.cur := by
    rw [h.push_eq]
    exact Function.update_self s.next s.cur s.heap
  refine ⟨?_, ?_, ?_, ?_, ?_⟩
  · rw [h.push_eq]
    simp
  · rw [h.push_eq]
    refine List.nodup_append.mpr ⟨h.nodup, by simp, ?_⟩
    intro a ha b hb
    rw [List.mem_singleton.mp hb]
    exact Nat.ne_of_lt (h.below a ha)
  · rw [h.push_eq]
    intro id hid
    rcases List.mem_append.mp hid with hid | hid
    · exact Nat.lt_succ_of_lt (h.below id hid)
    · rw [List.mem_singleton.mp hid]
      exact Nat.lt_succ_self s.next
  · rw [hcur]
    exact h.low
  · rw [hcur]
    exact h.high

/-- A pop after calls that kept the older arenas: all arenas of the pool are as they were. -/
theorem RRegSet.Good.pop_restores (h : s.Good) (hk : s.push.Kept u) :
    u.pop.pool = s.pool ∧ u.pop.arena = s.arena ∧ u.pop.regs = s.regs ∧ s.next ≤ u.pop.next ∧
      ∀ id ∈ s.pool, u.pop.heap id = s.heap id := by
  have hne : s.pool ≠ [] := by
    intro hnil
    have htail := h.tail
    rw [hnil] at htail
    cases htail
  have hpool : u.pool = s.pool ++ [s.next] := by rw [hk.pool, h.push_eq]
  have hlen : ¬u.pool.length < 2 := by
    have hpos := List.length_pos_iff.mpr hne
    rw [hpool, List.length_append, List.length_singleton]
    omega
  have hpop : u.pop = { u with
      heap := Function.update u.heap s.next ⟨[]⟩, pool := s.pool, arena := s.arena } := by
    rw [RRegSet.pop, if_neg hlen, hpool]
    simp [h.tail]
  have hnext : s.push.next = s.next + 1 := by rw [h.push_eq]
  have hle := hk.next
  have hgrown : s.next ≤ u.next := by omega
  rw [hpop]
  refine ⟨rfl, rfl, ?_, hgrown, ?_⟩
  · rw [hk.regs, RRegSet.push_regs]
  · intro id hid
    have hlt := h.below id hid
    have hother : id ≠ s.next := Nat.ne_of_lt hlt
    have hold : s.push.heap id = s.heap id := by
      rw [h.push_eq]
      exact Function.update_of_ne hother _ _
    have hmem : id ∈ s.push.pool := by
      rw [h.push_eq]
      exact List.mem_append_left _ hid
    have harena : id ≠ s.push.arena := by
      rw [h.push_eq]
      exact hother
    show Function.update u.heap s.next ⟨[]⟩ id = s.heap id
    rw [Function.update_of_ne hother, hk.heap id hmem harena, hold]

/-- After the pop the type is as good as before the push. -/
theorem RRegSet.Good.pop (h : s.Good) (hk : s.push.Kept u) : u.pop.Good ∧ s.Kept u.pop ∧ u.pop.cur = s.cur := by
  obtain ⟨hpool, harena, hregs, hnext, hheap⟩ := h.pop_restores hk
  have hmem : s.arena ∈ s.pool := List.mem_of_getLast? h.tail
  have hcur : u.pop.cur = s.cur := by
    rw [RRegSet.cur, harena, hheap s.arena hmem]
    rfl
  refine ⟨⟨?_, ?_, ?_, ?_, ?_⟩, ⟨hpool, harena, hregs, hnext, fun id hid _ => hheap id hid⟩, hcur⟩
  · rw [hpool, harena]
    exact h.tail
  · rw [hpool]
    exact h.nodup
  · rw [hpool]
    intro id hid
    exact Nat.lt_of_lt_of_le (h.below id hid) hnext
  · rw [hcur]
    exact h.low
  · rw [hcur]
    exact h.high

end Sets

section Calls

variable {reg : RReg}

/-- Every type is good. -/
def RReg.Good (reg : RReg) : Prop := ∀ t, (reg.regset t).Good

/-- Only current arenas have changed. -/
structure RReg.Kept (reg reg' : RReg) : Prop where
  bigEndian : reg'.bigEndian = reg.bigEndian
  sets : ∀ t, (reg.regset t).Kept (reg'.regset t)

theorem RReg.Kept.refl (reg : RReg) : reg.Kept reg := ⟨rfl, fun t => .refl (reg.regset t)⟩

theorem RReg.Kept.trans {reg' reg'' : RReg} (h : reg.Kept reg') (h' : reg'.Kept reg'') : reg.Kept reg'' :=
  ⟨h'.bigEndian.trans h.bigEndian, fun t => (h.sets t).trans (h'.sets t)⟩

theorem RReg.Good.setArena (h : reg.Good) (t : RRegisterType) {a : RRegArena} (hlow : 1 ≤ a.bytes.length)
    (hhigh : a.bytes.length ≤ 2147483639) : (reg.setArena t a).Good ∧ reg.Kept (reg.setArena t a) := by
  have hset : ∀ t', ((reg.setArena t a).regset t').Good ∧ (reg.regset t').Kept ((reg.setArena t a).regset t') := by
    intro t'
    rw [RReg.setArena]
    by_cases ht : t' = t
    · simp only [ht, Function.update_self]
      exact (h t).setCur hlow hhigh
    · simp only [Function.update_of_ne ht]
      exact ⟨h t', .refl _⟩
  exact ⟨fun t' => (hset t').1, rfl, fun t' => (hset t').2⟩

theorem storeBytes_some {bytes src : List Ut8} {off : Int} (hlow : 0 ≤ off) (hfit : off + src.length ≤ bytes.length) :
    ∃ bs, storeBytes bytes off src = some bs ∧ bs.length = bytes.length := by
  refine ⟨_, if_pos ⟨hlow, hfit⟩, ?_⟩
  simp only [List.length_append, List.length_take, List.length_drop]
  omega

theorem valueBytes_size {stack : Nat → Ut8} {be : Bool} {size : Int} {v : Ut64} {src : List Ut8}
    (h : valueBytes stack be size v = some src) : ∃ n : Nat, size = ((8 * n : Nat) : Int) := by
  unfold valueBytes at h
  split_ifs at h with h80 h64 h32 h16 h8
  · exact ⟨(size / 8).toNat, by omega⟩
  · exact ⟨8, h64⟩
  · exact ⟨4, h32⟩
  · exact ⟨2, h16⟩
  · exact ⟨1, h8⟩

/-- A value is written into the arena, or nothing is. -/
theorem rRegSetValue_ok {item : RRegItem} (hlow : 0 ≤ item.offset)
    (hflag : item.size = 1 → item.offset < 8 * (reg.regset item.type).cur.bytes.length) (stack : Nat → Ut8) (v : Ut64) :
    ∃ r, rRegSetValue stack reg item v = some r ∧ (r.1 = reg ∨ ∃ bytes : List Ut8,
      bytes.length = (reg.regset item.type).cur.bytes.length ∧ r.1 = reg.setArena item.type ⟨bytes⟩) := by
  obtain ⟨o, ho⟩ := Int.eq_ofNat_of_zero_le hlow
  unfold rRegSetValue
  by_cases hone : item.size = 1
  · have hlt := hflag hone
    have hload := loadBytes_nat (show o / 8 + 1 ≤ (reg.regset item.type).cur.bytes.length by omega)
    have hwin := window_one (show o / 8 < (reg.regset item.type).cur.bytes.length by omega)
    simp only [hone, if_true, ho, tdiv_eight, hload, hwin, bitMask_nat, Option.bind_eq_bind, Option.bind_some,
      List.map_cons, List.map_nil]
    obtain ⟨bs, hbs, hlen⟩ := storeBytes_some (show (0 : Int) ≤ ((o / 8 : Nat) : Int) by omega)
      (show ((o / 8 : Nat) : Int) + ([if v ≠ 0 then (reg.regset item.type).cur.bytes[o / 8] &&&
        (255 ^^^ (1 : Ut8) <<< (o % 8)) ||| (1 : Ut8) <<< (o % 8)
        else (reg.regset item.type).cur.bytes[o / 8] &&& (255 ^^^ (1 : Ut8) <<< (o % 8))].length : Int) ≤
        (reg.regset item.type).cur.bytes.length by rw [List.length_singleton]; omega)
    rw [hbs]
    exact ⟨_, rfl, .inr ⟨bs, hlen, rfl⟩⟩
  · simp only [hone, if_false]
    cases hsrc : valueBytes stack reg.bigEndian item.size v with
    | none => exact ⟨_, rfl, .inl rfl⟩
    | some src =>
      obtain ⟨n, hn⟩ := valueBytes_size hsrc
      have hlen : (reg.regset item.type).cur.size = (reg.regset item.type).cur.bytes.length := rfl
      simp only [hn, ho, bits2bytes_nat, Int.toNat_natCast]
      split_ifs with hfits
      · have htake : (src.take n).length ≤ n := by
          rw [List.length_take]
          omega
        obtain ⟨bs, hbs, hlen'⟩ := storeBytes_some
          (show (0 : Int) ≤ (((o + 7) / 8 : Nat) : Int) by omega)
          (show (((o + 7) / 8 : Nat) : Int) + ((src.take n).length : Int) ≤ (reg.regset item.type).cur.bytes.length by
            omega)
        have hcopy : rMemCopybits (reg.regset item.type).cur.bytes (((o + 7) / 8 : Nat) : Int) src (8 * n) = some bs := by
          rw [rMemCopybits, Nat.mul_div_cancel_left n (by omega), hbs]
          simp
        rw [hcopy]
        exact ⟨_, rfl, .inr ⟨bs, hlen', rfl⟩⟩
      · exact ⟨_, rfl, .inl rfl⟩

/-- A call under its condition. -/
theorem RegOp.step (h : reg.Good) {op : RegOp} (hok : op.Ok reg) :
    ∃ reg', op.run reg = some reg' ∧ reg'.Good ∧ reg.Kept reg' := by
  cases op with
  | setValue stack item value =>
    obtain ⟨r, hr, hcases⟩ := rRegSetValue_ok hok.1 hok.2 stack value
    refine ⟨r.1, by rw [RegOp.run, hr]; rfl, ?_⟩
    rcases hcases with hsame | ⟨bytes, hlen, hset⟩
    · rw [hsame]
      exact ⟨h, .refl reg⟩
    · rw [hset]
      exact h.setArena item.type (hlen ▸ (h item.type).low) (hlen ▸ (h item.type).high)
  | setBytes type buf =>
    refine ⟨_, rfl, ?_⟩
    have hlow := (h type).low
    have hhigh := (h type).high
    have hbuf : buf.length ≤ 2147483639 := hok
    unfold rRegSetBytes
    split_ifs with hempty
    · exact ⟨h, .refl reg⟩
    · apply h.setArena type
      · simp only [List.length_append, List.length_take, List.length_replicate]
        omega
      · simp only [List.length_append, List.length_take, List.length_replicate]
        omega
  | arenaZero =>
    refine ⟨_, rfl, ?_⟩
    have hset : ∀ t, (reg.regset t).zero.Good ∧ (reg.regset t).Kept (reg.regset t).zero := by
      intro t
      apply (h t).setCur
      · rw [List.length_replicate]
        exact (h t).low
      · rw [List.length_replicate]
        exact (h t).high
    exact ⟨fun t => (hset t).1, rfl, fun t => (hset t).2⟩

theorem RReg.Good.push (h : reg.Good) : (rRegArenaPush reg).Good := fun t => (h t).push

theorem RReg.Good.pop (h : reg.Good) {reg' : RReg} (hk : (rRegArenaPush reg).Kept reg')
    (longDouble : List Ut8 → Int → Ut64) :
    (rRegArenaPop reg').Good ∧ reg.Kept (rRegArenaPop reg') ∧ SameValues longDouble reg (rRegArenaPop reg') := by
  have hset : ∀ t, (reg'.regset t).pop.Good ∧ (reg.regset t).Kept (reg'.regset t).pop ∧
      (reg'.regset t).pop.cur = (reg.regset t).cur := fun t => (h t).pop (hk.sets t)
  have hbe : (rRegArenaPop reg').bigEndian = reg.bigEndian := hk.bigEndian
  refine ⟨fun t => (hset t).1, ⟨hbe, fun t => (hset t).2.1⟩, fun t => (hset t).2.2, fun item _ => ?_⟩
  have hcur : ((rRegArenaPop reg').regset item.type).cur = (reg.regset item.type).cur := (hset item.type).2.2
  rw [rRegGetValue, rRegGetValue, hcur, hbe]

/-- Well-nested calls under their conditions. -/
theorem Nested.right (longDouble : List Ut8 → Int → Ut64) (calls : Nested) (h : reg.Good) (hok : calls.Ok reg) :
    calls.Right longDouble reg ∧ ∃ reg', calls.run reg = some reg' ∧ reg'.Good ∧ reg.Kept reg' := by
  have htail : reg.AtTail := fun t => (h t).tail
  induction calls generalizing reg with
  | done => exact ⟨htail, reg, rfl, h, .refl reg⟩
  | call op rest ih =>
    obtain ⟨reg1, hrun, hgood, hkept⟩ := RegOp.step h hok.1
    obtain ⟨hright, reg2, hrest, hgood', hkept'⟩ := ih hgood (hok.2 reg1 hrun) (fun t => (hgood t).tail)
    refine ⟨⟨htail, reg1, hrun, hright⟩, reg2, ?_, hgood', hkept.trans hkept'⟩
    rw [Nested.run, hrun]
    exact hrest
  | snapshot body rest ihb ihr =>
    have hpush := h.push
    obtain ⟨hbody, reg1, hrun, -, hkept⟩ := ihb hpush hok.1 (fun t => (hpush t).tail)
    obtain ⟨hgood, hback, hsame⟩ := h.pop hkept longDouble
    obtain ⟨hright, reg2, hrest, hgood', hkept'⟩ := ihr hgood (hok.2 reg1 hrun) (fun t => (hgood t).tail)
    refine ⟨⟨htail, hbody, reg1, hrun, hsame, hright⟩, reg2, ?_, hgood', hback.trans hkept'⟩
    rw [Nested.run, hrun]
    exact hrest

end Calls

/-- The register file of an accepted profile. -/
theorem Profiled.good {bigEndian : Bool} {reg : RReg} (h : Profiled bigEndian reg) : reg.Good := by
  intro t
  obtain ⟨hpool, harena, hnext⟩ := h.pool t
  have hle := fitSize_le (reg.regset t).regs
  refine ⟨?_, ?_, ?_, ?_, ?_⟩
  · rw [hpool, harena]
    rfl
  · rw [hpool]
    decide
  · rw [hpool, hnext]
    decide
  · rw [h.cur, List.length_replicate]
    omega
  · rw [h.cur, List.length_replicate]
    omega

/-- The profile of one register of 32 bits. -/
def eaxProfile : CStr := "gpr eax .32 0 0\n".toList

def eaxItem : RRegItem :=
  { name := "eax".toList, type := .gpr, size := 32, offset := 0, packedSize := 0, flags := none }

theorem eaxProfile_accepted : rRegSetProfileString { rRegNew with bigEndian := false } eaxProfile =
    some (profiled false eaxProfile, true) :=
  profiled_eq (by decide)

/-- An arena that is too long is not copied. -/
theorem RRegSet.push_long {s : RRegSet} (h : s.cur.bytes.length = 2147483647) : s.push = s := by
  have hsize : s.cur.size = 2147483647 := by
    rw [RRegArena.size, h]
    rfl
  have hnone : rRegArenaNew s.cur.size = none := by
    rw [hsize]
    decide
  rw [RRegSet.push, hnone]

/-- What the register of the profile reads in an arena. -/
theorem eaxItem_value {reg : RReg} {bytes : List Ut8} (hcur : (reg.regset .gpr).cur = ⟨bytes⟩)
    (hlen : 4 ≤ bytes.length) (hbe : reg.bigEndian = false) :
    rRegGetValue (fun _ _ => 0) reg eaxItem = some (BitVec.ofNat 64 (leNat (bytes.take 4))) := by
  have hin : Inside eaxItem (reg.regset eaxItem.type).cur.bytes.length := by
    rw [show eaxItem.type = .gpr from rfl, hcur]
    exact ⟨by decide, by show (0 : Int) + 32 ≤ 8 * (bytes.length : Int); omega⟩
  rw [rRegGetValue_inside (by decide) hin, show eaxItem.type = .gpr from rfl, hcur, hbe]
  rfl

end Radare.Reg
