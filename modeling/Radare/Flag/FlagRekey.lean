import Radare.Flag.FlagHistory

namespace Radare

open Framework

/-- Neither the list nor a table mentions the item. -/
structure RFlag.NoTrace (f : RFlag) (item : Nat) : Prop where
  unlisted : item ∉ f.flags
  unnamed : ∀ k, f.htName k ≠ some item
  ungrouped : ∀ k l, f.htOff k = some l → item ∉ l

/-- A later `r_flag_unset` leaves no trace of its item. -/
def RFlag.UnsetsCleanly (f : RFlag) : Prop :=
  ∀ item ∈ f.flags, ∃ g, rFlagUnset f item = some g ∧ g.NoTrace item

theorem RFlag.Indexed.unsetsCleanly {f : RFlag} (h : f.Indexed) : f.UnsetsCleanly := by
  intro item hi
  obtain ⟨g, hg, hidx, hfl, -⟩ := rFlagUnset_spec h hi
  have hnot : item ∉ g.flags := by
    rw [hfl]
    exact h.listed.not_mem_erase
  refine ⟨g, hg, hnot, fun k hk => ?_, fun k l hl hmem => ?_⟩
  · exact hnot ((hidx.byName k item).mp hk).1
  · have hgroup := hidx.byOff.mem k item
    rw [hl, Option.getD_some] at hgroup
    exact hnot (hgroup.mp hmem).1

section Calls

variable (numMath : RFlag → CStr → Ut64)

/-- After a rename that succeeds the item is found under the new name only, and the tables are right. -/
def RenameMeets (f : RFlag) (item : Nat) (name : CStr) : Prop :=
  ∃ g r, rFlagRename f item name = some (g, r) ∧
    (r = true →
      (rFlagGet numMath g name).map Prod.snd = some (some item) ∧
      (rFlagGet numMath g (f.nameAt item)).map Prod.snd = some none ∧
      g.Consistent ∧ g.UnsetsCleanly)

/-- After a relocation items are found at their new offsets only, and the tables are right. -/
def RelocateMeets (f : RFlag) (off offMask to_ : Ut64) : Prop :=
  ∃ g n, rFlagRelocate f off offMask to_ = some (g, n) ∧
    (∀ item ∈ g.flags, g.offAt item = relocatedOffset off offMask to_ (f.offAt item)) ∧
    (∀ item ∈ g.flags, ∃ j ∈ g.flags, rFlagGetI numMath g (g.offAt item) = some (g, some j) ∧
      g.offAt j = g.offAt item) ∧
    (∀ o, (∀ item ∈ g.flags, g.offAt item ≠ o) → rFlagGetI numMath g o = some (g, none)) ∧
    g.Consistent ∧ g.UnsetsCleanly

/-- A rename that succeeds leaves the entry of the old name behind. -/
theorem rFlagRename_keeps_old {f g : RFlag} (h : f.Indexed) {item : Nat} (hi : item ∈ f.flags)
    {name : CStr} (hc : CleanName name) (hr : rFlagRename f item name = some (g, true)) :
    g.htName (rStrHash64 (f.nameAt item)) = some item ∧ ∃ x, g.items item = some x := by
  obtain ⟨x, hx, -⟩ := h.live item hi
  have hold : f.htName (rStrHash64 (f.nameAt item)) = some item := h.byName.find hi
  cases hn : f.htName (rStrHash64 name) with
  | some p => simp [rFlagRename, hn] at hr
  | none =>
    have hne : rStrHash64 (f.nameAt item) ≠ rStrHash64 name := by
      intro heq
      rw [heq, hn] at hold
      cases hold
    cases he : name.isEmpty with
    | true => simp [rFlagRename, he] at hr
    | false =>
      simp only [rFlagRename, he, Bool.false_eq_true, if_false, hn, Option.isSome_none, hx,
        Option.bind_eq_bind, Option.bind_some, Option.some.injEq, Prod.mk.injEq, and_true] at hr
      subst hr
      have hhash : (setName x name).namehash = rStrHash64 name := by rw [setName, hc.1, hc.2]
      refine ⟨?_, _, Function.update_self item _ f.items⟩
      rw [hhash]
      exact (Function.update_of_ne hne _ _).trans ((Function.update_of_ne hne _ _).trans hold)

theorem evalFlag_some_ne_none {f : RFlag} {item : Nat} {x : RFlagItem} (hx : f.items item = some x) :
    (evalFlag numMath f (some item)).map Prod.snd = some (some item) := by
  cases ha : x.alias_ with
  | none => simp only [evalFlag, hx, ha, Option.bind_eq_bind, Option.bind_some, Option.map_some]
  | some a => simp only [evalFlag, hx, ha, Option.bind_eq_bind, Option.bind_some, Option.map_some]

/-- `r_flag_rename` does what it should only where it does nothing. -/
theorem renameMeets_iff {f : RFlag} (h : f.Indexed) {item : Nat} (hi : item ∈ f.flags) {name : CStr}
    (hc : CleanName name) (hinj : ∀ j ∈ f.flags, rStrHash64 (f.nameAt j) = rStrHash64 name → f.nameAt j = name) :
    RenameMeets numMath f item name ↔ name = [] ∨ ∃ j ∈ f.flags, f.nameAt j = name := by
  constructor
  · rintro ⟨g, r, hg, hmeets⟩
    cases r with
    | true =>
      obtain ⟨hold, x, hx⟩ := rFlagRename_keeps_old h hi hc hg
      have hget := (hmeets rfl).2.1
      rw [rFlagGet, hold, evalFlag_some_ne_none numMath hx] at hget
      cases hget
    | false =>
      cases hn : f.htName (rStrHash64 name) with
      | some j =>
        obtain ⟨hj, hkey⟩ := (h.byName _ j).mp hn
        exact Or.inr ⟨j, hj, hinj j hj hkey⟩
      | none =>
        obtain ⟨x, hx, -⟩ := h.live item hi
        cases name with
        | nil => exact Or.inl rfl
        | cons c cs => simp [rFlagRename, hn, hx] at hg
  · rintro (rfl | ⟨j, hj, rfl⟩)
    · exact ⟨f, false, rfl, by simp⟩
    · have hfound : f.htName (rStrHash64 (f.nameAt j)) = some j := h.byName.find hj
      refine ⟨f, false, ?_, by simp⟩
      simp only [rFlagRename, hfound, Option.isSome_some, if_true]
      split
      · rfl
      · rfl

/-- The loop of `r_flag_relocate` writes the offsets of its nodes and nothing else. -/
theorem relocateLoop_spec (off offMask to_ : Ut64) (rest : List Nat) (f : RFlag) (hnd : rest.Nodup)
    (hlive : ∀ i ∈ rest, ∃ x, f.items i = some x) (n : Nat) :
    ∃ its k, relocateLoop off offMask to_ rest f n = some ({ f with items := its }, k) ∧
      (∀ i ∈ rest, ∀ x, f.items i = some x →
        its i = some { x with offset := relocatedOffset off offMask to_ x.offset }) ∧
      ∀ i, i ∉ rest → its i = f.items i := by
  induction rest generalizing f n with
  | nil =>
    refine ⟨f.items, n, rfl, ⟨fun i hi => ?_, fun _ _ => rfl⟩⟩
    cases hi
  | cons item rest ih =>
    obtain ⟨hnot, hnd⟩ := List.nodup_cons.mp hnd
    obtain ⟨x, hx⟩ := hlive item List.mem_cons_self
    have hne : ∀ i ∈ rest, i ≠ item := by
      rintro i hi rfl
      exact hnot hi
    by_cases hm : x.offset &&& ~~~offMask = off &&& ~~~offMask
    · let y : RFlagItem := { x with offset := relocatedOffset off offMask to_ x.offset }
      have hkeep : ∀ i ∈ rest, (f.setItem item y).items i = f.items i :=
        fun i hi => Function.update_of_ne (hne i hi) _ _
      obtain ⟨its, k, hrun, hin, hout⟩ := ih (f.setItem item y) hnd
        (fun i hi => by rw [hkeep i hi]; exact hlive i (List.mem_cons_of_mem _ hi)) (n + 1)
      refine ⟨its, k, ?_, ?_, ?_⟩
      · simp only [relocateLoop, hx, Option.bind_eq_bind, Option.bind_some, if_pos hm]
        exact hrun
      · intro i hi z hz
        rcases List.mem_cons.mp hi with rfl | hi
        · rw [hx] at hz
          cases hz
          rw [hout i hnot]
          exact Function.update_self i _ f.items
        · exact hin i hi z ((hkeep i hi).trans hz)
      · intro i hi
        rw [List.mem_cons, not_or] at hi
        rw [hout i hi.2]
        exact Function.update_of_ne hi.1 _ _
    · obtain ⟨its, k, hrun, hin, hout⟩ := ih f hnd (fun i hi => hlive i (List.mem_cons_of_mem _ hi)) n
      refine ⟨its, k, ?_, ?_, ?_⟩
      · simp only [relocateLoop, hx, Option.bind_eq_bind, Option.bind_some, if_neg hm]
        exact hrun
      · intro i hi z hz
        rcases List.mem_cons.mp hi with rfl | hi
        · rw [hx] at hz
          cases hz
          have hsame : relocatedOffset off offMask to_ x.offset = x.offset := by
            rw [relocatedOffset, if_neg hm]
          rw [hout i hnot, hx, hsame]
        · exact hin i hi z hz
      · intro i hi
        rw [List.mem_cons, not_or] at hi
        exact hout i hi.2

/-- The state after `r_flag_relocate`: the items moved, the tables as they were. -/
theorem rFlagRelocate_spec {f : RFlag} (h : f.Indexed) (off offMask to_ : Ut64) :
    ∃ its k, rFlagRelocate f off offMask to_ = some ({ f with items := its }, k) ∧
      (∀ i ∈ f.flags, ∀ x, f.items i = some x →
        its i = some { x with offset := relocatedOffset off offMask to_ x.offset }) ∧
      ∀ i, i ∉ f.flags → its i = f.items i := by
  refine relocateLoop_spec off offMask to_ f.flags f h.listed ?_ 0
  intro i hi
  obtain ⟨x, hx, -⟩ := h.live i hi
  exact ⟨x, hx⟩

/-- `r_flag_relocate` does what it should only where no item moves. -/
theorem relocateMeets_iff {f : RFlag} (h : f.Indexed) (hp : f.NoAlias) (off offMask to_ : Ut64) :
    RelocateMeets numMath f off offMask to_ ↔
      ∀ item ∈ f.flags, relocatedOffset off offMask to_ (f.offAt item) = f.offAt item := by
  obtain ⟨its, k, hrun, hin, hout⟩ := rFlagRelocate_spec h off offMask to_
  constructor
  · rintro ⟨g, n, hg, hnew, -, -, hcons, -⟩ item hi
    rw [hrun] at hg
    cases hg
    -- the item still sits in the list of its old offset
    obtain ⟨l, hl, hil⟩ := h.byOff.find hi
    have hkey := (hcons.grouped _ l hl).2 item hil
    rw [← hnew item hi]
    exact xorOff_inj hkey.2
  · intro hsame
    have hits : its = f.items := by
      funext i
      by_cases hi : i ∈ f.flags
      · obtain ⟨x, hx, -⟩ := h.live i hi
        have ho := hsame i hi
        rw [RFlag.offAt_eq hx] at ho
        rw [hin i hi x hx, ho, hx]
      · exact hout i hi
    subst hits
    refine ⟨f, k, hrun, fun item hi => (hsame item hi).symm, ?_, ?_, h.consistent, h.unsetsCleanly⟩
    · intro item hi
      obtain ⟨r, hr, hsome, hnone⟩ := rFlagGetI_spec numMath h hp (f.offAt item)
      cases r with
      | none => exact absurd rfl (hnone rfl item hi)
      | some j => exact ⟨j, (hsome j rfl).1, hr, (hsome j rfl).2⟩
    · intro o ho
      obtain ⟨r, hr, hsome, -⟩ := rFlagGetI_spec numMath h hp o
      cases r with
      | none => exact hr
      | some j => exact absurd (hsome j rfl).2 (ho j (hsome j rfl).1)

/-- From every consistent state: a rename leaves the tables right only when it does not happen, a
relocation only when it moves no item. -/
theorem flag_rekey_meets_iff {f : RFlag} (h : f.Consistent) (hp : f.NoAlias) :
    (∀ item ∈ f.flags, ∀ name, CleanName name →
      (∀ j ∈ f.flags, rStrHash64 (f.nameAt j) = rStrHash64 name → f.nameAt j = name) →
      (RenameMeets numMath f item name ↔ name = [] ∨ ∃ j ∈ f.flags, f.nameAt j = name)) ∧
    ∀ off offMask to_, RelocateMeets numMath f off offMask to_ ↔
      ∀ item ∈ f.flags, relocatedOffset off offMask to_ (f.offAt item) = f.offAt item :=
  ⟨fun _ hi _ hc hinj => renameMeets_iff numMath h.indexed hi hc hinj,
    fun off offMask to_ => relocateMeets_iff numMath h.indexed hp off offMask to_⟩

end Calls

/-- The state of one flag `a` at 8. -/
theorem oneFlag_run : ∃ f, rFlagNew.run (fun _ _ => 0) [.set ['a'] 8 1] = some f ∧ f.Ok ∧
    f.flags = [0] ∧ f.nameAt 0 = ['a'] ∧ f.offAt 0 = 8 := by
  obtain ⟨f, hf, hok⟩ := RFlag.Ok.new.run (fun _ _ => 0) [.set ['a'] 8 1] (by
    intro op hop
    rw [List.mem_singleton] at hop
    subst hop
    exact ⟨by decide, by decide⟩)
  have hflags := congrArg (Option.map RFlag.flags) hf
  have hname := congrArg (Option.map (RFlag.nameAt · 0)) hf
  have hoff := congrArg (Option.map (RFlag.offAt · 0)) hf
  exact ⟨f, hf, hok, (Option.some.inj hflags).symm, (Option.some.inj hname).symm, (Option.some.inj hoff).symm⟩

theorem flag_rekey_meets_iff_one : ∃ f, rFlagNew.run (fun _ _ => 0) [.set ['a'] 8 1] = some f ∧
    RenameMeets (fun _ _ => 0) f 0 ['a'] ∧ RelocateMeets (fun _ _ => 0) f 16 7 32 := by
  obtain ⟨f, hf, hok, hflags, hname, hoff⟩ := oneFlag_run
  have hiff := flag_rekey_meets_iff (fun _ _ => 0) hok.indexed.consistent hok.plain
  have hmem : 0 ∈ f.flags := by rw [hflags]; exact List.mem_singleton_self 0
  refine ⟨f, hf, ?_, ?_⟩
  · refine (hiff.1 0 hmem ['a'] ⟨by decide, by decide⟩ ?_).mpr (Or.inr ⟨0, hmem, hname⟩)
    intro j hj _
    rw [hflags, List.mem_singleton] at hj
    rw [hj, hname]
  · refine (hiff.2 16 7 32).mpr ?_
    intro item hi
    rw [hflags, List.mem_singleton] at hi
    rw [hi, hoff]
    decide

/-- The old name survives a rename, and a relocated item is found at its old offset only. -/
theorem flag_rekey_dangles : ∃ f, rFlagNew.run (fun _ _ => 0) [.set ['a'] 8 1] = some f ∧
    f.Consistent ∧ f.NoAlias ∧ ¬RenameMeets (fun _ _ => 0) f 0 ['b'] ∧
    ¬RelocateMeets (fun _ _ => 0) f 8 7 16 := by
  obtain ⟨f, hf, hok, hflags, hname, hoff⟩ := oneFlag_run
  have hmem : 0 ∈ f.flags := by rw [hflags]; exact List.mem_singleton_self 0
  have hinj : ∀ j ∈ f.flags, rStrHash64 (f.nameAt j) = rStrHash64 ['b'] → f.nameAt j = ['b'] := by
    intro j hj heq
    rw [hflags, List.mem_singleton] at hj
    rw [hj, hname] at heq
    exact absurd heq (by decide)
  refine ⟨f, hf, hok.indexed.consistent, hok.plain, ?_, ?_⟩
  · rw [renameMeets_iff _ hok.indexed hmem ⟨by decide, by decide⟩ hinj]
    rintro (hnil | ⟨j, hj, heq⟩)
    · cases hnil
    · rw [hflags, List.mem_singleton] at hj
      rw [hj, hname] at heq
      exact absurd heq (by decide)
  · rw [relocateMeets_iff _ hok.indexed hok.plain]
    intro hsame
    have := hsame 0 hmem
    rw [hoff] at this
    exact absurd this (by decide)

end Radare
