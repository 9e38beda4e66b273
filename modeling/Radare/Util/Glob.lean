import Radare.Framework.Glob
import Radare.Framework.Simulates
import Radare.Util.Str

namespace Radare

open Framework

/-- The terminator of a text. -/
def nul : Char := '\x00'

/-- The loop up to the first star; `none` inside when `false` is returned. -/
def globHeadAt (str glob : CStr) : Nat → Nat → Nat → Option (Option (Nat × Nat))
  | 0, _, _ => none
  | turns + 1, p, q => do
    let c ← fetch nul str p
    if c = nul then some (some (p, q))
    else do
      let g ← fetch nul glob q
      if g = '*' then some (some (p, q))
      else if g ≠ c then some none
      else globHeadAt str glob turns (p + 1) (q + 1)

/-- `while (*glob == '*') ++glob`, and the last test. -/
def globTailAt (glob : CStr) : Nat → Nat → Option Bool
  | 0, _ => none
  | turns + 1, q => do
    let g ← fetch nul glob q
    if g = '*' then globTailAt glob turns (q + 1) else some (g = nul)

/-- `while (*str)`; `mp` and `cp` begin as null pointers. -/
def globLoopAt (str glob : CStr) : Nat → Nat → Nat → Option Nat → Option Nat → Option Bool
  | 0, _, _, _, _ => none
  | turns + 1, p, q, mp, cp => do
    let c ← fetch nul str p
    if c = nul then globTailAt glob (glob.length + 1) q
    else do
      let g ← fetch nul glob q
      if g = '*' then do
        let g ← fetch nul glob (q + 1)
        if g = nul then some true else globLoopAt str glob turns p (q + 1) (some (q + 1)) (some (p + 1))
      else if g = c then globLoopAt str glob turns (p + 1) (q + 1) mp cp
      else do
        let q ← mp
        let p ← cp
        globLoopAt str glob turns p q mp (some (p + 1))

/-- `r_str_glob` with its cursors. -/
def rStrGlobAt (str : CStr) (glob : Option CStr) : Option Bool :=
  match glob with
  | none => some true
  | some glob =>
    if glob = ['*'] then some true
    else do
      match ← globHeadAt str glob (str.length + 1) 0 0 with
      | none => some false
      | some (p, q) => globLoopAt str glob ((str.length + 2) * (glob.length + 2)) p q none none

section Glob

variable {str glob s g u : CStr} {p q turns : Nat}

/-- The cursors end where the two texts differ, or at a star, or at the end of the text. -/
theorem globHeadAt_spec (hstr : nul ∉ str) (hs : At str p s) (hg : At glob q g) (hturns : s.length < turns) :
    (globHeadAt str glob turns p q = some none ∧ s ∉ Glob.language '*' g) ∨
      ∃ p' q' s' g', globHeadAt str glob turns p q = some (some (p', q')) ∧ At str p' s' ∧ At glob q' g' ∧
        (s ∈ Glob.language '*' g ↔ s' ∈ Glob.language '*' g') ∧ (s' = [] ∨ g'.head? = some '*') := by
  induction s generalizing p q g turns with
  | nil =>
    obtain ⟨turns, rfl⟩ : ∃ n, turns = n + 1 := ⟨turns - 1, by omega⟩
    refine .inr ⟨p, q, [], g, ?_, hs, hg, Iff.rfl, .inl rfl⟩
    rw [globHeadAt, hs.fetch]
    rfl
  | cons c s ih =>
    obtain ⟨turns, rfl⟩ : ∃ n, turns = n + 1 := ⟨turns - 1, by omega⟩
    rw [List.length_cons] at hturns
    have hc : c ≠ nul := fun heq => List.cons_ne_nil c s ((hs.headD_iff hstr).mp heq)
    have hstep : globHeadAt str glob (turns + 1) p q =
        if g.headD nul = '*' then some (some (p, q))
        else if g.headD nul ≠ c then some none else globHeadAt str glob turns (p + 1) (q + 1) := by
      rw [globHeadAt, hs.fetch, hg.fetch]
      exact if_neg hc
    rw [hstep]
    by_cases hstar : g.headD nul = '*'
    · rw [if_pos hstar]
      exact .inr ⟨p, q, c :: s, g, rfl, hs, hg, Iff.rfl, .inr ((headD_eq (by decide)).mp hstar)⟩
    rw [if_neg hstar]
    by_cases hne : g.headD nul = c
    · rw [if_neg (not_not_intro hne)]
      cases g with
      | nil => exact absurd hne.symm hc
      | cons d g =>
        have hd : d = c := hne
        have hstar' : d ≠ '*' := hstar
        have hmem : ∀ t, d :: t ∈ Glob.language '*' (d :: g) ↔ t ∈ Glob.language '*' g := by
          intro t
          rw [Glob.mem_cons hstar']
          exact ⟨fun ⟨t', ht, h⟩ => by rw [(List.cons.inj ht).2]; exact h, fun h => ⟨t, rfl, h⟩⟩
        rw [← hd, hmem]
        exact ih hs.next hg.next (by omega)
    · rw [if_pos hne]
      refine .inl ⟨rfl, Glob.not_mem_of_ne (u := []) (by simp) (fun d hd => ?_)⟩
      cases g with
      | nil => cases hd
      | cons d' g =>
        cases hd
        exact ⟨hstar, hne⟩

theorem globTailAt_spec (hglob : nul ∉ glob) (hg : At glob q g) (hturns : g.length < turns) :
    ∃ b, globTailAt glob turns q = some b ∧ (b = true ↔ ∀ c ∈ g, c = '*') := by
  induction g generalizing q turns with
  | nil =>
    obtain ⟨turns, rfl⟩ : ∃ n, turns = n + 1 := ⟨turns - 1, by omega⟩
    exact ⟨true, by rw [globTailAt, hg.fetch]; rfl, by simp⟩
  | cons c g ih =>
    obtain ⟨turns, rfl⟩ : ∃ n, turns = n + 1 := ⟨turns - 1, by omega⟩
    have hstep : globTailAt glob (turns + 1) q = if c = '*' then globTailAt glob turns (q + 1) else some (c = nul) := by
      rw [globTailAt, hg.fetch]
      rfl
    rw [hstep, List.forall_mem_cons]
    by_cases hstar : c = '*'
    · rw [if_pos hstar]
      obtain ⟨b, hb, hiff⟩ := ih hg.next (Nat.lt_of_succ_lt_succ hturns)
      exact ⟨b, hb, hiff.trans (and_iff_right hstar).symm⟩
    · rw [if_neg hstar]
      have hc : c ≠ nul := fun heq => List.cons_ne_nil c g ((hg.headD_iff hglob).mp heq)
      exact ⟨_, rfl, iff_of_false (by simpa using hc) (fun h => hstar h.1)⟩

theorem globLoopAt_star (hstr : nul ∉ str) (hglob : nul ∉ glob) {c : Char} (hp : At str p (c :: s))
    (hq : At glob q ('*' :: g)) (mp cp : Option Nat) : globLoopAt str glob (turns + 1) p q mp cp =
      if g = [] then some true else globLoopAt str glob turns p (q + 1) (some (q + 1)) (some (p + 1)) := by
  have hc : c ≠ nul := fun heq => List.cons_ne_nil c s ((hp.headD_iff hstr).mp heq)
  rw [globLoopAt, hp.fetch]
  show (if c = nul then _ else _) = _
  rw [if_neg hc, hq.fetch]
  show (fetch nul glob (q + 1) >>= _) = _
  rw [hq.next.fetch]
  show (if g.headD nul = nul then _ else _) = _
  by_cases hend : g = []
  · rw [if_pos hend, if_pos ((hq.next.headD_iff hglob).mpr hend)]
  · rw [if_neg hend, if_neg (fun heq => hend ((hq.next.headD_iff hglob).mp heq))]

theorem globLoopAt_letter (hstr : nul ∉ str) {c : Char} (hp : At str p (c :: s)) (hq : At glob q g)
    (hstar : g.headD nul ≠ '*') (m a : Nat) : globLoopAt str glob (turns + 1) p q (some m) (some a) =
      if g.headD nul = c then globLoopAt str glob turns (p + 1) (q + 1) (some m) (some a)
      else globLoopAt str glob turns a m (some m) (some (a + 1)) := by
  have hc : c ≠ nul := fun heq => List.cons_ne_nil c s ((hp.headD_iff hstr).mp heq)
  rw [globLoopAt, hp.fetch]
  show (if c = nul then _ else _) = _
  rw [if_neg hc, hq.fetch]
  show (if g.headD nul = '*' then _ else _) = _
  rw [if_neg hstar]
  rfl

/-- The loop behind a star, in front of which `mp` and `cp` stand: of the letters behind the star, `u` have matched. -/
theorem globLoopAt_spec (hstr : nul ∉ str) (hglob : nul ∉ glob) {a m : Nat} (hs : At str a (u ++ s))
    (hg : At glob m (u ++ g)) (hu : '*' ∉ u)
    (hturns : (u ++ s).length * ((u ++ g).length + 2) + g.length < turns) :
    ∃ b, globLoopAt str glob turns (a + u.length) (m + u.length) (some m) (some (a + 1)) = some b ∧
      (b = true ↔ u ++ s ∈ Glob.language '*' ('*' :: (u ++ g))) := by
  induction turns generalizing s g u a m with
  | zero => omega
  | succ turns ih =>
    have hp : At str (a + u.length) s := hs.behind
    have hq : At glob (m + u.length) g := hg.behind
    cases s with
    | nil =>
      rw [globLoopAt, hp.fetch, List.append_nil, Glob.star_end hu]
      have hlen := hg.length
      rw [List.length_append] at hlen
      exact globTailAt_spec hglob hq (by omega)
    | cons c s =>
      have hc : c ≠ nul := fun heq => List.cons_ne_nil c s ((hp.headD_iff hstr).mp heq)
      -- the star in front takes one letter more
      have hskip : u ++ c :: s ∉ Glob.language '*' (u ++ g) →
          (∃ b, globLoopAt str glob turns (a + 1) m (some m) (some (a + 1 + 1)) = some b ∧
            (b = true ↔ u ++ c :: s ∈ Glob.language '*' ('*' :: (u ++ g)))) := by
        intro hno
        obtain ⟨x, xs, hx⟩ := List.exists_cons_of_ne_nil (show u ++ c :: s ≠ [] by simp)
        rw [hx] at hs hno hturns ⊢
        rw [Glob.star_skip hno]
        rw [List.length_cons, Nat.add_one_mul] at hturns
        exact ih hs.next hg (u := []) (by simp) 
          (by show xs.length * ((u ++ g).length + 2) + (u ++ g).length < turns; omega)
      cases g with
      | nil =>
        rw [globLoopAt_letter hstr hp hq (by decide), if_neg (fun h => hc h.symm)]
        exact hskip (Glob.not_mem_of_ne hu (fun d hd => by cases hd))
      | cons d g =>
        by_cases hstar : d = '*'
        · rw [hstar] at hq
          rw [globLoopAt_star hstr hglob hp hq, hstar, Glob.star_moves hu]
          have hnext : At glob (m + u.length + 1) g := hq.next
          by_cases hend : g = []
          · rw [if_pos hend, hend]
            exact ⟨true, rfl, iff_of_true rfl (Glob.mem_star.mpr ⟨[], List.nil_suffix, Glob.mem_nil.mpr rfl⟩)⟩
          · rw [if_neg hend]
            refine ih hp hnext (u := []) (by simp) ?_
            have hmul : (c :: s).length * (g.length + 2) ≤ (u ++ c :: s).length * ((u ++ d :: g).length + 2) := by
              refine Nat.mul_le_mul ?_ ?_
              · rw [List.length_append]
                omega
              · rw [List.length_append, List.length_cons]
                omega
            rw [List.length_cons] at hturns
            simp only [List.nil_append]
            omega
        · rw [globLoopAt_letter hstr hp hq hstar, List.headD_cons]
          by_cases hmatch : d = c
          · rw [if_pos hmatch, hmatch]
            have hsplit : ∀ l : CStr, u ++ c :: l = (u ++ [c]) ++ l := fun l => by simp
            rw [hmatch] at hg hturns hstar
            rw [hsplit s, hsplit g] at hturns ⊢
            rw [hsplit s] at hs
            rw [hsplit g] at hg
            have hrest := ih hs hg (by simp [hu, Ne.symm hstar]) (by rw [List.length_cons] at hturns; omega)
            rw [List.length_append, List.length_singleton, ← Nat.add_assoc, ← Nat.add_assoc] at hrest
            exact hrest
          · rw [if_neg hmatch]
            exact hskip (Glob.not_mem_of_ne hu (fun d' hd' => by cases hd'; exact ⟨hstar, hmatch⟩))

theorem globTailAt_texts {b : Bool} (hglob : nul ∉ glob) (h : globTailAt glob turns q = some b) :
    b = ((glob.drop q).dropWhile (· = '*')).isEmpty := by
  induction turns generalizing q with
  | zero => cases h
  | succ turns ih =>
    obtain ⟨c, hc, h⟩ := Option.bind_eq_some_iff.mp h
    obtain ⟨hat, hhead⟩ := At.of_fetch hc
    generalize hg : glob.drop q = g at hat hhead
    cases g with
    | nil =>
      rw [← hhead] at h
      cases h
      rfl
    | cons d g =>
      have hd : d = c := hhead
      have hnul : d ≠ nul := fun heq => List.cons_ne_nil d g ((hat.headD_iff hglob).mp heq)
      rw [← hd] at h
      by_cases hstar : d = '*'
      · rw [if_pos hstar] at h
        rw [List.dropWhile_cons_of_pos (by simpa using hstar), ← hat.next.drop]
        exact ih h
      · rw [if_neg hstar] at h
        rw [List.dropWhile_cons_of_neg (by simpa using hstar)]
        cases h
        exact decide_eq_false hnul

theorem globHeadAt_texts {r : Option (Nat × Nat)} (hstr : nul ∉ str) (h : globHeadAt str glob turns p q = some r) :
    globHead (str.drop p) (glob.drop q) = r.map (fun x => (str.drop x.1, glob.drop x.2)) := by
  induction turns generalizing p q with
  | zero => cases h
  | succ turns ih =>
    obtain ⟨c, hc, h⟩ := Option.bind_eq_some_iff.mp h
    obtain ⟨hat, hhead⟩ := At.of_fetch hc
    generalize hs : str.drop p = s at hat hhead
    cases s with
    | nil =>
      rw [← hhead] at h
      cases h
      show globHead [] _ = some (str.drop p, glob.drop q)
      rw [hs, globHead]
    | cons d s =>
      have hd : d = c := hhead
      have hnul : d ≠ nul := fun heq => List.cons_ne_nil d s ((hat.headD_iff hstr).mp heq)
      rw [← hd, if_neg hnul] at h
      obtain ⟨e, he, h⟩ := Option.bind_eq_some_iff.mp h
      obtain ⟨hatg, hheadg⟩ := At.of_fetch he
      generalize hg : glob.drop q = g at hatg hheadg
      cases g with
      | nil =>
        rw [← hheadg, if_neg (show ¬([] : CStr).headD nul = '*' by decide),
          if_pos (show ([] : CStr).headD nul ≠ d from fun heq => hnul heq.symm)] at h
        cases h
        rfl
      | cons f g =>
        have hf : f = e := hheadg
        rw [← hf] at h
        rw [globHead]
        by_cases hstar : f = '*'
        · rw [if_pos hstar] at h
          cases h
          rw [if_pos hstar]
          show some (d :: s, f :: g) = some (str.drop p, glob.drop q)
          rw [hs, hg]
        · rw [if_neg hstar] at h
          rw [if_neg hstar]
          by_cases hne : f = d
          · rw [if_neg (not_not_intro hne)] at h
            rw [if_pos hne, ← hat.next.drop, ← hatg.next.drop]
            exact ih h
          · rw [if_pos hne] at h
            cases h
            rw [if_neg hne]
            rfl

theorem globLoopAt_texts {b : Bool} (hstr : nul ∉ str) (hglob : nul ∉ glob) {mp cp : Option Nat} {mp' cp' : CStr}
    (hmp : ∀ m ∈ mp, glob.drop m = mp') (hcp : ∀ a ∈ cp, str.drop a = cp')
    (h : globLoopAt str glob turns p q mp cp = some b) : globLoop turns (str.drop p) (glob.drop q) mp' cp' = b := by
  induction turns generalizing p q mp cp mp' cp' with
  | zero => cases h
  | succ turns ih =>
    obtain ⟨c, hc, h⟩ := Option.bind_eq_some_iff.mp h
    obtain ⟨hat, hhead⟩ := At.of_fetch hc
    generalize hs : str.drop p = s at hat hhead
    cases s with
    | nil =>
      rw [← hhead, if_pos (show ([] : CStr).headD nul = nul from rfl)] at h
      rw [globLoop]
      exact (globTailAt_texts hglob h).symm
    | cons d s =>
      have hd : d = c := hhead
      have hnul : d ≠ nul := fun heq => List.cons_ne_nil d s ((hat.headD_iff hstr).mp heq)
      rw [← hd, if_neg hnul] at h
      obtain ⟨e, he, h⟩ := Option.bind_eq_some_iff.mp h
      obtain ⟨hatg, hheadg⟩ := At.of_fetch he
      -- back to the last star
      have hback : (do let q ← mp; let p ← cp; globLoopAt str glob turns p q mp (some (p + 1))) = some b →
          globLoop turns cp' mp' mp' cp'.tail = b := by
        intro h
        obtain ⟨m, hm, h⟩ := Option.bind_eq_some_iff.mp h
        obtain ⟨a, ha, h⟩ := Option.bind_eq_some_iff.mp h
        have hnext : ∀ x, some (a + 1) = some x → str.drop x = cp'.tail := by
          intro x hx
          cases hx
          rw [← hcp a ha, List.tail_drop]
        have hrest := ih hmp hnext h
        rw [hmp m hm, hcp a ha] at hrest
        exact hrest
      generalize hg : glob.drop q = g at hatg hheadg
      cases g with
      | nil =>
        rw [← hheadg, if_neg (show ¬([] : CStr).headD nul = '*' by decide),
          if_neg (show ¬([] : CStr).headD nul = d from fun heq => hnul heq.symm)] at h
        rw [globLoop]
        exact hback h
      | cons f g =>
        have hf : f = e := hheadg
        rw [← hf] at h
        rw [globLoop]
        by_cases hstar : f = '*'
        · rw [if_pos hstar] at h
          rw [if_pos hstar]
          obtain ⟨x, hx, h⟩ := Option.bind_eq_some_iff.mp h
          have hnext : x = g.headD nul := by
            rw [hatg.next.fetch] at hx
            exact (Option.some.inj hx).symm
          by_cases hend : g = []
          · rw [hnext, if_pos (by rw [hend]; rfl)] at h
            cases h
            rw [hend]
            rfl
          · rw [hnext, if_neg (fun heq => hend ((hatg.next.headD_iff hglob).mp heq))] at h
            rw [if_neg (by simpa using hend), ← hs, ← hatg.next.drop, ← hat.next.drop]
            exact ih (fun m hm => by cases hm; rfl) (fun a ha => by cases ha; rfl) h
        · rw [if_neg hstar] at h
          rw [if_neg hstar]
          by_cases hmatch : f = d
          · rw [if_pos hmatch] at h
            rw [if_pos hmatch, ← hat.next.drop, ← hatg.next.drop]
            exact ih hmp hcp h
          · rw [if_neg hmatch] at h
            rw [if_neg hmatch]
            exact hback h

/-- The function on texts gives what the cursors do. -/
theorem rStrGlobAt_texts {b : Bool} (hstr : nul ∉ str) (hglob : nul ∉ glob) (h : rStrGlobAt str (some glob) = some b) :
    rStrGlob str (some glob) = b := by
  unfold rStrGlobAt at h
  unfold rStrGlob
  by_cases hall : glob = ['*']
  · rw [hall] at h ⊢
    cases h
    rfl
  · replace h : (do
      match ← globHeadAt str glob (str.length + 1) 0 0 with
      | none => some false
      | some (p, q) => globLoopAt str glob ((str.length + 2) * (glob.length + 2)) p q none none) = some b := by
      rw [← h]
      exact (if_neg hall).symm
    show (if glob = ['*'] then _ else _) = _
    rw [if_neg hall]
    obtain ⟨r, hr, h⟩ := Option.bind_eq_some_iff.mp h
    have hhead := globHeadAt_texts hstr hr
    rw [List.drop_zero, List.drop_zero] at hhead
    rw [hhead]
    cases r with
    | none =>
      cases h
      rfl
    | some x => exact globLoopAt_texts hstr hglob (fun m hm => by cases hm) (fun a ha => by cases ha) h

theorem rStrGlobAt_decides (hstr : nul ∉ str) (hglob : nul ∉ glob) :
    ∃ b, rStrGlobAt str (some glob) = some b ∧ (b = true ↔ str ∈ Glob.language '*' glob) := by
  unfold rStrGlobAt
  by_cases hall : glob = ['*']
  · rw [hall]
    exact ⟨true, rfl, iff_of_true rfl (Glob.mem_star.mpr ⟨[], List.nil_suffix, Glob.mem_nil.mpr rfl⟩)⟩
  show ∃ b, (if glob = ['*'] then _ else _) = _ ∧ _
  rw [if_neg hall]
  rcases globHeadAt_spec hstr (At.start str) (At.start glob) (Nat.lt_succ_self str.length) with
    ⟨hhead, hno⟩ | ⟨p, q, s, g, hhead, hs, hg, hiff, hstop⟩
  · rw [hhead]
    exact ⟨false, rfl, iff_of_false Bool.false_ne_true hno⟩
  · rw [hhead, hiff]
    show ∃ b, globLoopAt str glob _ p q none none = some b ∧ _
    have hsize := hs.length
    have hgsize := hg.length
    obtain ⟨turns, hturns⟩ : ∃ n, str.length * (glob.length + 2) + (glob.length + 2) + (glob.length + 1) = n :=
      ⟨_, rfl⟩
    have hall : (str.length + 2) * (glob.length + 2) = turns + 1 := by
      rw [← hturns, Nat.add_mul]
      omega
    rw [hall]
    cases s with
    | nil =>
      rw [globLoopAt, hs.fetch, Glob.nil_mem_iff]
      exact globTailAt_spec hglob hg (by omega)
    | cons c s =>
      cases g with
      | nil =>
        rcases hstop with hstop | hstop
        · cases hstop
        · cases hstop
      | cons d g =>
        have hd : d = '*' := Option.some.inj (hstop.resolve_left (List.cons_ne_nil c s))
        rw [hd] at hg ⊢
        rw [globLoopAt_star hstr hglob hs hg]
        by_cases hend : g = []
        · rw [if_pos hend, hend]
          exact ⟨true, rfl, iff_of_true rfl (Glob.mem_star.mpr ⟨[], List.nil_suffix, Glob.mem_nil.mpr rfl⟩)⟩
        · rw [if_neg hend]
          refine globLoopAt_spec hstr hglob hs hg.next (u := []) (by simp) ?_
          have hmul : (c :: s).length * (g.length + 2) ≤ str.length * (glob.length + 2) := by
            rw [List.length_cons] at hgsize
            exact Nat.mul_le_mul (by omega) (by omega)
          rw [List.length_cons] at hgsize
          simp only [List.nil_append]
          omega

/-- The glob decides its language, and no cursor leaves its text. -/
theorem rStrGlob_iff (hstr : nul ∉ str) (hglob : nul ∉ glob) :
    rStrGlobAt str (some glob) = some (rStrGlob str (some glob)) ∧
      (rStrGlob str (some glob) = true ↔ str ∈ Glob.language '*' glob) := by
  obtain ⟨b, hb, hiff⟩ := rStrGlobAt_decides hstr hglob
  rw [rStrGlobAt_texts hstr hglob hb]
  exact ⟨hb, hiff⟩

theorem rStrGlob_iff_sym : rStrGlobAt "sym.main".toList (some "s*m*n".toList) =
      some (rStrGlob "sym.main".toList (some "s*m*n".toList)) ∧
    (rStrGlob "sym.main".toList (some "s*m*n".toList) = true ↔
      "sym.main".toList ∈ Glob.language '*' "s*m*n".toList) :=
  rStrGlob_iff (by decide) (by decide)

end Glob

end Radare
