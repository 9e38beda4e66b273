import Radare.Reg.Reg

namespace Radare.Reg

section Sizes

theorem tdiv_nonpos {x : Int} (h : x ≤ 0) : x.tdiv 8 ≤ 0 := by
  obtain ⟨n, hn⟩ : ∃ n : Nat, x = -(n : Int) := ⟨x.natAbs, by omega⟩
  have hdiv : (n : Int).tdiv 8 = ((n / 8 : Nat) : Int) := rfl
  rw [hn, Int.neg_tdiv, hdiv]
  omega

/-- Below the first byte nothing counts for more than one. -/
theorem bits2bytes_nonpos {x : Int} (h : x ≤ 0) : bits2bytes x ≤ 1 := by
  have hdiv := tdiv_nonpos h
  unfold bits2bytes
  split_ifs <;> omega

theorem bits2bytes_le {x : Int} (h : x < 2147483648) : bits2bytes x ≤ 268435456 := by
  by_cases hx : 0 ≤ x
  · obtain ⟨n, rfl⟩ := Int.eq_ofNat_of_zero_le hx
    rw [bits2bytes_nat]
    omega
  · have hone := bits2bytes_nonpos (show x ≤ 0 by omega)
    omega

theorem fold_max (f : RRegItem → Int) (regs : List RRegItem) (start : Int) :
    start ≤ regs.foldl (fun newsize r => max (f r) newsize) start ∧
      (∀ r ∈ regs, f r ≤ regs.foldl (fun newsize r => max (f r) newsize) start) ∧
      (regs.foldl (fun newsize r => max (f r) newsize) start = start ∨
        ∃ r ∈ regs, regs.foldl (fun newsize r => max (f r) newsize) start = f r) := by
  induction regs generalizing start with
  | nil => exact ⟨Int.le_refl _, by simp, .inl rfl⟩
  | cons x regs ih =>
    obtain ⟨hstart, hall, hreach⟩ := ih (max (f x) start)
    rw [List.foldl_cons]
    refine ⟨by omega, fun r hr => ?_, ?_⟩
    · rcases List.mem_cons.mp hr with heq | hmem
      · rw [heq]
        omega
      · exact hall r hmem
    · rcases hreach with heq | ⟨r, hr, heq⟩
      · by_cases hx : f x ≤ start
        · left
          omega
        · exact .inr ⟨x, List.mem_cons_self, by omega⟩
      · exact .inr ⟨r, List.mem_cons_of_mem _ hr, heq⟩

/-- No register ends behind the size that is found, and one ends there. -/
theorem fitSize_spec (regs : List RRegItem) : 0 ≤ fitSize regs ∧
    (∀ r ∈ regs, bits2bytes (wrapInt (r.offset + r.size)) ≤ fitSize regs) ∧
    (fitSize regs = 0 ∨ ∃ r ∈ regs, fitSize regs = bits2bytes (wrapInt (r.offset + r.size))) :=
  fold_max (fun r => bits2bytes (wrapInt (r.offset + r.size))) regs 0

theorem fitSize_le (regs : List RRegItem) : fitSize regs ≤ 268435456 := by
  rcases (fitSize_spec regs).2.2 with h | ⟨r, -, h⟩
  · omega
  · rw [h]
    exact bits2bytes_le (wrapInt_range _).2

theorem rRegArenaNew_eq {size : Int} (h : size ≤ 2147483639) :
    rRegArenaNew size = some ⟨List.replicate (max 1 size).toNat 0⟩ := by
  have hmax : (if size < 1 then 1 else size) = max 1 size := by
    split_ifs <;> omega
  have hwrap : wrapInt (max 1 size + 8) = max 1 size + 8 := wrapInt_of_range (by omega) (by omega)
  unfold rRegArenaNew
  simp only [hmax, hwrap]
  rw [if_neg (by omega)]

end Sizes

section Push

variable {s : RRegSet}

/-- A copy of the current arena becomes the current one. -/
theorem RRegSet.push_eq (h : s.cur.size ≤ 2147483639) :
    s.push = { s with
      heap := Function.update s.heap s.next ⟨s.cur.bytes ++ List.replicate (1 - s.cur.bytes.length) 0⟩,
      next := s.next + 1, pool := s.pool ++ [s.next], arena := s.next } := by
  have hsize : s.cur.size = s.cur.bytes.length := rfl
  have hlen : (List.replicate (max 1 s.cur.size).toNat (0 : Ut8)).length = max 1 s.cur.bytes.length := by
    rw [List.length_replicate]
    omega
  have hrest : max 1 s.cur.bytes.length - s.cur.bytes.length = 1 - s.cur.bytes.length := by omega
  rw [RRegSet.push, rRegArenaNew_eq h]
  simp only [hlen, hrest, List.take_of_length_le (show s.cur.bytes.length ≤ max 1 s.cur.bytes.length by omega)]

theorem RRegSet.push_cur (h : s.cur.size ≤ 2147483639) :
    s.push.cur = ⟨s.cur.bytes ++ List.replicate (1 - s.cur.bytes.length) 0⟩ := by
  rw [RRegSet.push_eq h]
  exact Function.update_self s.next _ s.heap

theorem RRegSet.push_regs (s : RRegSet) : s.push.regs = s.regs := by
  unfold RRegSet.push
  cases rRegArenaNew s.cur.size with
  | none => rfl
  | some b => rfl

@[simp] theorem RRegSet.setCur_cur (s : RRegSet) (a : RRegArena) : (s.setCur a).cur = a := by
  show Function.update s.heap s.arena a s.arena = a
  exact Function.update_self s.arena a s.heap

/-- The arena that a profile gives a type of registers. -/
theorem RRegSet.fit_push_cur (s : RRegSet) :
    s.fit.push.cur = ⟨List.replicate (max 1 (fitSize s.regs)).toNat 0⟩ ∧
      s.fit.push.pool = s.pool ++ [s.next] ∧ s.fit.push.arena = s.next ∧ s.fit.push.next = s.next + 1 ∧
      s.fit.push.regs = s.regs := by
  have hpos := (fitSize_spec s.regs).1
  have hle := fitSize_le s.regs
  obtain ⟨n, hn⟩ := Int.eq_ofNat_of_zero_le hpos
  have hcur : s.fit = s.setCur ⟨List.replicate n 0⟩ := by
    rw [RRegSet.fit, hn]
    split_ifs with h
    · rw [show n = 0 by omega]
      rfl
    · rw [Int.toNat_natCast]
  have hsize : (s.setCur ⟨List.replicate n 0⟩).cur.size = n := by
    rw [RRegSet.setCur_cur, RRegArena.size, List.length_replicate]
  have hfits : (s.setCur ⟨List.replicate n 0⟩).cur.size ≤ 2147483639 := by omega
  rw [hcur]
  refine ⟨?_, ?_⟩
  · rw [RRegSet.push_cur hfits, RRegSet.setCur_cur, hn]
    simp only [List.length_replicate, List.replicate_append_replicate]
    congr 2
    omega
  · rw [RRegSet.push_eq hfits]
    exact ⟨rfl, rfl, rfl, rfl⟩

end Push

/-- What reading a profile changes. -/
structure Parsed (start reg : RReg) : Prop where
  bigEndian : reg.bigEndian = start.bigEndian
  sets : ∀ t, reg.regset t = { start.regset t with regs := (reg.regset t).regs }
  ranges : ∀ t, ∀ r ∈ (reg.regset t).regs, r.type = t ∧ -2147483648 ≤ r.offset ∧ r.offset < 2147483648

section Parse

theorem Parsed.append {start reg : RReg} (h : Parsed start reg) (item : RRegItem)
    (hoff : -2147483648 ≤ item.offset ∧ item.offset < 2147483648) : Parsed start (reg.append item) := by
  refine ⟨h.bigEndian, fun t => ?_, fun t r hr => ?_⟩
  · by_cases ht : t = item.type
    · rw [ht, RReg.append]
      simp only [Function.update_self]
      rw [h.sets item.type]
    · have hsame : (reg.append item).regset t = reg.regset t := Function.update_of_ne ht _ _
      rw [hsame]
      exact h.sets t
  · by_cases ht : t = item.type
    · rw [ht, RReg.append] at hr
      simp only [Function.update_self] at hr
      rcases List.mem_append.mp hr with hr | hr
      · rw [ht]
        exact h.ranges item.type r hr
      · rw [List.mem_singleton.mp hr]
        exact ⟨ht.symm, hoff⟩
    · have hsame : (reg.append item).regset t = reg.regset t := Function.update_of_ne ht _ _
      rw [hsame] at hr
      exact h.ranges t r hr

theorem Parsed.defItem {start reg reg' : RReg} (h : Parsed start reg) {type name size offset packed : CStr}
    {flags : Option CStr} (hdef : defItem reg type name size offset packed flags = .ok reg') : Parsed start reg' := by
  unfold Reg.defItem at hdef
  split at hdef
  · cases hdef
  · simp only at hdef
    split_ifs at hdef
    cases hdef
    exact h.append _ (wrapInt_range _)

theorem Parsed.parseDef {start reg reg' : RReg} (h : Parsed start reg) {tok : List CStr}
    (hdef : parseDef reg tok = .ok reg') : Parsed start reg' := by
  unfold Reg.parseDef at hdef
  split at hdef
  · exact h.defItem hdef
  · exact h.defItem hdef
  · cases hdef

/-- A line adds registers at most. -/
theorem Parsed.parseLines {start reg reg' : RReg} (h : Parsed start reg) {fuel : Nat} {p : CStr}
    (hp : parseLines fuel p reg = some (.ok reg')) : Parsed start reg' := by
  induction fuel generalizing p reg with
  | zero => cases hp
  | succ fuel ih =>
    rw [Reg.parseLines] at hp
    split_ifs at hp with hcomment
    · cases hskip : skipToEol p with
      | none =>
        rw [hskip] at hp
        cases hp
      | some q =>
        rw [hskip] at hp
        cases q with
        | nil =>
          cases hp
          exact h
        | cons c rest => exact ih h hp
    · cases hwords : lineWords 9 p [] with
      | none =>
        rw [hwords] at hp
        cases hp
      | some w =>
        rw [hwords] at hp
        simp only [Option.bind_eq_bind, Option.bind_some] at hp
        -- in each of the three branches the lines go on behind the character at `w.1`
        split at hp
        · split at hp
          · cases hp
            exact h
          · exact ih h hp
        · split_ifs at hp with halias
          · split at hp
            · cases hp
            · split at hp
              · cases hp
                exact h
              · exact ih h hp
          · split at hp
            · cases hp
            · rename_i hdef
              split at hp
              · cases hp
                exact h.parseDef hdef
              · exact ih (h.parseDef hdef) hp

end Parse

theorem RRegSet.pop_short {s : RRegSet} (h : s.pool.length < 2) : s.pop = s := if_pos h

theorem rRegArenaPush_regset (reg : RReg) (t : RRegisterType) :
    (rRegArenaPush reg).regset t = (reg.regset t).push := rfl

theorem rRegNew_set (t : RRegisterType) : (rRegNew.regset t).pool = [1] ∧ (rRegNew.regset t).next = 2 := by
  have hcur : RRegSet.first.cur = ⟨[0]⟩ := rfl
  have hsize : RRegSet.first.cur.size ≤ 2147483639 := by
    rw [hcur]
    decide
  have hset : rRegNew.regset t = RRegSet.first.push := by rw [rRegNew, rRegArenaPush_regset]
  rw [hset, RRegSet.push_eq hsize]
  exact ⟨rfl, rfl⟩

/-- The register file that an accepted profile makes. -/
structure Profiled (bigEndian : Bool) (reg : RReg) : Prop where
  bigEndian : reg.bigEndian = bigEndian
  cur : ∀ t, (reg.regset t).cur = ⟨List.replicate (max 1 (fitSize (reg.regset t).regs)).toNat 0⟩
  pool : ∀ t, (reg.regset t).pool = [1, 2] ∧ (reg.regset t).arena = 2 ∧ (reg.regset t).next = 3
  ranges : ∀ t, ∀ r ∈ (reg.regset t).regs, r.type = t ∧ -2147483648 ≤ r.offset ∧ r.offset < 2147483648

/-- The register file that a new profile is read into. -/
def purged (reg : RReg) (str : CStr) : RReg := { rRegFreeInternal (rRegArenaPop reg) with regProfileStr := some str }

/-- A profile is known already, or refused, or read as a whole. -/
theorem rRegSetProfileString_cases {reg reg' : RReg} {str : CStr} {ok : Bool}
    (h : rRegSetProfileString reg str = some (reg', ok)) :
    (reg.regProfileStr = some str ∧ reg' = reg ∧ ok = true) ∨
      (reg.regProfileStr ≠ some str ∧ reg'.regProfileStr = none ∧ ok = false) ∨
      (reg.regProfileStr ≠ some str ∧ ok = true ∧ ∃ parsed,
        parseLines (str.length + 1) str (purged reg str) = some (.ok parsed) ∧
        reg' = rRegArenaPush (rRegFitArena parsed)) := by
  rw [rRegSetProfileString] at h
  split_ifs at h with hsame
  · cases h
    exact .inl ⟨hsame, rfl, rfl⟩
  · obtain ⟨res, hres, hdone⟩ := Option.bind_eq_some_iff.mp h
    cases res with
    | error e =>
      cases hdone
      exact .inr (.inl ⟨hsame, rfl, rfl⟩)
    | ok parsed =>
      cases hdone
      exact .inr (.inr ⟨hsame, rfl, parsed, hres, rfl⟩)

theorem rRegSetProfileString_profiled {bigEndian : Bool} {str : CStr} {reg : RReg}
    (h : rRegSetProfileString { rRegNew with bigEndian := bigEndian } str = some (reg, true)) :
    Profiled bigEndian reg := by
  obtain ⟨start, hstart⟩ : ∃ start : RReg, start = purged { rRegNew with bigEndian := bigEndian } str := ⟨_, rfl⟩
  have hset : ∀ t, (start.regset t).pool = [1] ∧ (start.regset t).next = 2 ∧ (start.regset t).regs = [] := by
    intro t
    have hkeep : (rRegNew.regset t).pop = rRegNew.regset t := RRegSet.pop_short (by rw [(rRegNew_set t).1]; decide)
    have hfree : start.regset t = { (rRegNew.regset t).pop with regs := [] } := by
      rw [hstart, purged, rRegFreeInternal, rRegArenaPop]
    obtain ⟨hpool, hnext⟩ := rRegNew_set t
    rw [hfree, hkeep]
    generalize rRegNew.regset t = q at hpool hnext ⊢
    exact ⟨hpool, hnext, rfl⟩
  have hbegin : Parsed start start := by
    refine ⟨rfl, fun t => rfl, fun t r hr => ?_⟩
    rw [(hset t).2.2] at hr
    cases hr
  rcases rRegSetProfileString_cases h with ⟨hsame, -, -⟩ | ⟨-, -, hfalse⟩ | ⟨-, -, parsed, hlines, rfl⟩
  · cases hsame
  · cases hfalse
  rw [← hstart] at hlines
  have hp := hbegin.parseLines hlines
  have hpush : ∀ t, (parsed.regset t).pool = [1] ∧ (parsed.regset t).next = 2 := by
    intro t
    rw [hp.sets t]
    exact ⟨(hset t).1, (hset t).2.1⟩
  have hregs : ∀ t, ((rRegArenaPush (rRegFitArena parsed)).regset t).regs = (parsed.regset t).regs :=
    fun t => (parsed.regset t).fit_push_cur.2.2.2.2
  refine ⟨?_, fun t => ?_, fun t => ?_, fun t => ?_⟩
  · have hkeep : (rRegArenaPush (rRegFitArena parsed)).bigEndian = parsed.bigEndian := rfl
    rw [hkeep, hp.bigEndian, hstart, purged, rRegFreeInternal, rRegArenaPop]
  · rw [hregs]
    exact (parsed.regset t).fit_push_cur.1
  · obtain ⟨-, hpool, harena, hnext, -⟩ := (parsed.regset t).fit_push_cur
    obtain ⟨hp1, hn2⟩ := hpush t
    refine ⟨?_, ?_, ?_⟩
    · exact hpool.trans (by rw [hp1, hn2]; rfl)
    · exact harena.trans hn2
    · exact hnext.trans (by rw [hn2])
  · rw [hregs]
    exact hp.ranges t

end Radare.Reg
