import Radare.Framework.TextBuffer
import Radare.Util.Glob

namespace Radare

open Framework.TextBuffer

/-- The loop over `p` in `r_str_chop_path`: where it leaves `dst`, the flag `i` and `p`. -/
def parentLoop (mem : CStr) (dst : Nat) : Nat → Bool → Option (Nat × Bool × Nat)
  | 0, i => some (dst, i, 0)
  | p + 1, i => do
    let c ← mem[p + 1]?
    if c = '/' then
      if i then some (p + 2, false, p + 1) else parentLoop mem dst p true
    else parentLoop mem dst p i

/-- What `..` makes of `dst` and `i`. -/
def chopParent (mem : CStr) (dst : Nat) (i : Bool) : Option (Nat × Bool) := do
  let (dst, i, p) ← parentLoop mem dst (dst - 1) i
  let c ← mem[p]?
  some (if p = 0 ∧ c = '/' then p + 1 else dst, i)

/-- `*p == '/' || *p == '\0'` -/
def endsPart (mem : CStr) (p : Nat) : Option Bool := do
  let c ← mem[p]?
  some (c = '/' || c = nul)

/-- `*(src - 1) == '/' && *src == '.' && *(src + 1) == '.'`, with `c` for `*src`. -/
def seesDots (mem : CStr) (src : Nat) (c : Char) : Option Bool := do
  let b ← mem[src - 1]?
  if b = '/' ∧ c = '.' then do
    let d ← mem[src + 1]?
    some (d = '.')
  else some false

/-- `*src == '/' && *(src + 1) == '.' && (*(src + 2) == '/' || *(src + 2) == '\0')`, with `c` for `*src`. -/
def seesDot (mem : CStr) (src : Nat) (c : Char) : Option Bool :=
  if c = '/' then do
    let d ← mem[src + 1]?
    if d = '.' then endsPart mem (src + 2) else some false
  else some false

/-- The loop of `r_str_chop_path`; what it leaves are the memory and `dst`. -/
def chopLoop : Nat → CStr → Nat → Nat → Bool → Option (CStr × Nat)
  | 0, _, _, _, _ => none
  | turns + 1, mem, src, dst, i => do
    let c ← mem[src]?
    if c = nul then some (mem, dst)
    else if ← seesDots mem src c then do
      if ← endsPart mem (src + 2) then do
        let (dst, i) ← chopParent mem dst i
        chopLoop turns mem (src + 3) dst i
      else do
        let mem ← storeAt mem dst c
        chopLoop turns mem (src + 1) (dst + 1) i
    else if ← seesDot mem src c then chopLoop turns mem (src + 2) dst i
    else do
      let b ← mem[src - 1]?
      if c ≠ '/' ∨ b ≠ '/' then do
        let mem ← storeAt mem dst c
        chopLoop turns mem (src + 1) (dst + 1) i
      else chopLoop turns mem (src + 1) dst i

def chopEnd (mem : CStr) (dst : Nat) : Option CStr := do
  let b ← mem[dst - 1]?
  if dst > 1 ∧ b = '/' then storeAt mem (dst - 1) nul else storeAt mem dst nul

/-- `r_str_chop_path`, the memory at `s`. -/
def rStrChopPath (mem : CStr) : Option CStr := do
  let c ← mem[0]?
  if c = nul then some mem
  else do
    let (mem, dst) ← chopLoop (mem.length + 1) mem 1 1 false
    chopEnd mem dst

/-- The components that are left when `..` cancels the one before it. -/
def keptParts (parts : List CStr) : List CStr :=
  parts.foldl (fun kept c => if c = [] ∨ c = ['.'] then kept else if c = ['.', '.'] then kept.dropLast else kept ++ [c]) []

/-- The path of the components. -/
def partsPath (parts : List CStr) : CStr := '/' :: ['/'].intercalate parts

/-- What keeps the code off its wrong turns: the path does not end with `..`; no `.` comes first or right behind `..`;
behind an empty component and a `.` there are only `.`; and behind a `..` that takes the only component that is left, no
`..` finds one. -/
structure ChopsRight (parts : List CStr) : Prop where
  last : parts.getLast? ≠ some ['.', '.']
  first : parts.head? ≠ some ['.']
  behind : ∀ j < parts.length, parts[j]? = some ['.', '.'] → parts[j + 1]? ≠ some ['.']
  empty : ∀ j < parts.length, parts[j]? = some [] → parts[j + 1]? = some ['.'] → ∀ c ∈ parts.drop (j + 1), c = ['.']
  parents : ∀ j < parts.length, parts[j]? = some ['.', '.'] ∧ (keptParts (parts.take j)).length = 1 →
    ∀ k < parts.length, j < k ∧ parts[k]? = some ['.', '.'] → keptParts (parts.take k) = []

/-- The text of components, each with a slash before it. -/
def slashed (parts : List CStr) : CStr := parts.flatMap ('/' :: ·)

theorem slashed_snoc (parts : List CStr) (c : CStr) : slashed (parts ++ [c]) = slashed parts ++ '/' :: c := by
  simp [slashed]

theorem partsPath_eq {parts : List CStr} (h : parts ≠ []) : partsPath parts = slashed parts := by
  induction parts with
  | nil => exact absurd rfl h
  | cons c parts ih =>
    cases parts with
    | nil => simp [partsPath, slashed]
    | cons d parts =>
      have hrest := ih (by simp)
      rw [partsPath] at hrest ⊢
      rw [List.intercalate_cons_cons, slashed, List.flatMap_cons, ← slashed, ← hrest]
      simp

/-- The loop is at `src` with `b` before it, `rest` is still to be read and `out` is what was written so far. -/
structure Chopping (mem junk : CStr) (src dst : Nat) (out rest : CStr) (b : Char) : Prop where
  text : ∃ gap, mem = out ++ (gap ++ (rest ++ nul :: junk)) ∧ src = out.length + gap.length
  dst : dst = out.length
  before : 0 < src ∧ mem[src - 1]? = some b

section Cursor

variable {mem junk out rest t : CStr} {src dst : Nat} {b c : Char}

theorem Chopping.peek (h : Chopping mem junk src dst out (t ++ c :: rest) b) : mem[src + t.length]? = some c := by
  obtain ⟨gap, hmem, hsrc⟩ := h.text
  have hsplit : mem = (out ++ (gap ++ t)) ++ c :: (rest ++ nul :: junk) := by rw [hmem]; simp
  rw [hsplit, hsrc]
  simp [Nat.add_assoc]

theorem Chopping.peek_end (h : Chopping mem junk src dst out t b) : mem[src + t.length]? = some nul := by
  obtain ⟨gap, hmem, hsrc⟩ := h.text
  have hsplit : mem = (out ++ (gap ++ t)) ++ nul :: junk := by rw [hmem]; simp
  rw [hsplit, hsrc]
  simp [Nat.add_assoc]

theorem Chopping.read (h : Chopping mem junk src dst out (c :: rest) b) : mem[src]? = some c := h.peek (t := [])

/-- The loop passes over letters. -/
theorem Chopping.skip (h : Chopping mem junk src dst out (t ++ c :: rest) b) :
    Chopping mem junk (src + t.length + 1) dst out rest c := by
  have hread := h.peek
  obtain ⟨gap, hmem, hsrc⟩ := h.text
  refine ⟨⟨gap ++ (t ++ [c]), by rw [hmem]; simp, ?_⟩, h.dst, Nat.succ_pos _, hread⟩
  rw [List.length_append, List.length_append, List.length_singleton]
  omega

/-- A letter is copied. -/
theorem Chopping.copy (h : Chopping mem junk src dst out (c :: rest) b) :
    ∃ mem', storeAt mem dst c = some mem' ∧ Chopping mem' junk (src + 1) (dst + 1) (out ++ [c]) rest c := by
  have hread := h.read
  obtain ⟨gap, hmem, hsrc⟩ := h.text
  obtain ⟨gap', hstore, hlen⟩ := storeAt_advance out gap (rest ++ nul :: junk) c c
  have hcells : mem = out ++ (gap ++ c :: (rest ++ nul :: junk)) := hmem
  rw [← hcells, ← h.dst] at hstore
  refine ⟨_, hstore, ⟨gap', rfl, ?_⟩, by rw [h.dst, List.length_append, List.length_singleton], Nat.succ_pos _, ?_⟩
  · rw [List.length_append, List.length_singleton]
    omega
  · rw [storeAt] at hstore
    split_ifs at hstore with hin
    rw [← Option.some.inj hstore, Nat.add_sub_cancel, List.getElem?_set]
    split_ifs with heq
    · rfl
    · exact hread

/-- What was written last is taken back. -/
theorem Chopping.back (h : Chopping mem junk src dst (out ++ t) rest b) : Chopping mem junk src out.length out rest b := by
  obtain ⟨gap, hmem, hsrc⟩ := h.text
  refine ⟨⟨t ++ gap, by rw [hmem]; simp, ?_⟩, rfl, h.before⟩
  rw [hsrc, List.length_append, List.length_append]
  omega

/-- Where a component ends there is a slash or the terminator. -/
theorem Chopping.endsPart_iff (h : Chopping mem junk src dst out (t ++ rest) b) (hrest : nul ∉ rest) :
    endsPart mem (src + t.length) = some (decide (rest = [] ∨ rest.head? = some '/')) := by
  cases rest with
  | nil =>
    rw [List.append_nil] at h
    rw [endsPart, h.peek_end]
    simp
  | cons c rest =>
    have hne : c ≠ nul := fun heq => hrest (heq ▸ List.mem_cons_self)
    rw [endsPart, h.peek]
    simp [hne]

end Cursor

section Turns

variable {mem junk out rest : CStr} {src dst turns : Nat} {b c : Char} {i : Bool}

theorem Chopping.before_src (h : Chopping mem junk src dst out rest b) : mem[src - 1]? = some b := h.before.2

theorem seesDots_of_ne (hb : mem[src - 1]? = some b) (hne : ¬ (b = '/' ∧ c = '.')) : seesDots mem src c = some false := by
  rw [seesDots, hb]
  exact if_neg hne

theorem seesDot_of_ne (hc : c ≠ '/') : seesDot mem src c = some false := if_neg hc

/-- A turn that copies a letter of a name. -/
theorem chop_letter (turns : Nat) (h : Chopping mem junk src dst out (c :: rest) b) (hc : c ≠ nul) (hslash : c ≠ '/')
    (hdots : seesDots mem src c = some false ∨ (seesDots mem src c = some true ∧ endsPart mem (src + 2) = some false)) :
    ∃ mem', chopLoop (turns + 1) mem src dst i = chopLoop turns mem' (src + 1) (dst + 1) i ∧
      Chopping mem' junk (src + 1) (dst + 1) (out ++ [c]) rest c := by
  obtain ⟨mem', hstore, hnext⟩ := h.copy
  refine ⟨mem', ?_, hnext⟩
  rw [chopLoop, h.read]
  rcases hdots with hdots | ⟨hdots, hends⟩
  · simp only [Option.bind_eq_bind, Option.bind_some, if_neg hc, hdots, Bool.false_eq_true, if_false, seesDot_of_ne hslash,
      h.before_src, hstore]
    exact if_pos (.inl hslash)
  · simp only [Option.bind_eq_bind, Option.bind_some, if_neg hc, hdots, if_true, hends, Bool.false_eq_true, if_false, hstore]

/-- A slash behind a name is copied, one behind a slash is dropped. -/
theorem chop_slash (turns : Nat) (h : Chopping mem junk src dst out ('/' :: rest) b) (hdot : seesDot mem src '/' = some false) :
    ∃ mem', if b = '/' then
        chopLoop (turns + 1) mem src dst i = chopLoop turns mem' (src + 1) dst i ∧ Chopping mem' junk (src + 1) dst out rest '/'
      else chopLoop (turns + 1) mem src dst i = chopLoop turns mem' (src + 1) (dst + 1) i ∧
        Chopping mem' junk (src + 1) (dst + 1) (out ++ ['/']) rest '/' := by
  have hdots : seesDots mem src '/' = some false := seesDots_of_ne h.before_src fun hno => absurd hno.2 (by decide)
  by_cases hb : b = '/'
  · refine ⟨mem, ?_⟩
    rw [if_pos hb]
    refine ⟨?_, h.skip (t := [])⟩
    rw [chopLoop, h.read]
    simp only [Option.bind_eq_bind, Option.bind_some, hdots, hdot, Bool.false_eq_true, if_false, h.before_src]
    rw [if_neg (by decide), if_neg (by simp [hb])]
  · obtain ⟨mem', hstore, hnext⟩ := h.copy
    refine ⟨mem', ?_⟩
    rw [if_neg hb]
    refine ⟨?_, hnext⟩
    rw [chopLoop, h.read]
    simp only [Option.bind_eq_bind, Option.bind_some, hdots, hdot, Bool.false_eq_true, if_false, h.before_src, hstore]
    rw [if_neg (by decide), if_pos (.inr hb)]

/-- A slash and the dot behind it are dropped. -/
theorem chop_dot (turns : Nat) (h : Chopping mem junk src dst out ('/' :: '.' :: rest) b) (hnul : nul ∉ rest)
    (hrest : rest = [] ∨ rest.head? = some '/') :
    chopLoop (turns + 1) mem src dst i = chopLoop turns mem (src + 2) dst i ∧
      Chopping mem junk (src + 2) dst out rest '.' := by
  have hdots : seesDots mem src '/' = some false := seesDots_of_ne h.before_src fun hno => absurd hno.2 (by decide)
  have hends := h.endsPart_iff (t := ['/', '.']) hnul
  rw [decide_eq_true hrest] at hends
  have hdot : seesDot mem src '/' = some true := by
    have hnext : mem[src + 1]? = some '.' := h.peek (t := ['/'])
    rw [seesDot, if_pos rfl, hnext]
    exact hends
  refine ⟨?_, h.skip (t := ['/'])⟩
  rw [chopLoop, h.read]
  simp only [Option.bind_eq_bind, Option.bind_some, hdots, hdot, Bool.false_eq_true, if_false, if_true]
  exact if_neg (by decide)

theorem chop_letters {name : CStr} (turns : Nat) (h : Chopping mem junk src dst out (name ++ rest) b) (hb : b ≠ '/')
    (hname : '/' ∉ name ∧ nul ∉ name) :
    ∃ mem' d, d ≠ '/' ∧ chopLoop (turns + name.length) mem src dst i =
        chopLoop turns mem' (src + name.length) (dst + name.length) i ∧
      Chopping mem' junk (src + name.length) (dst + name.length) (out ++ name) rest d := by
  induction name generalizing mem src dst out b with
  | nil => exact ⟨mem, b, hb, rfl, by simpa using h⟩
  | cons c name ih =>
    obtain ⟨hslash, hnul⟩ := hname
    rw [List.mem_cons, not_or] at hslash hnul
    obtain ⟨mem1, hturn, h1⟩ := chop_letter (turns + name.length) (i := i) h (Ne.symm hnul.1) (Ne.symm hslash.1)
      (.inl (seesDots_of_ne h.before_src fun hno => hb hno.1))
    obtain ⟨mem', d, hd, hloop, h'⟩ := ih h1 (Ne.symm hslash.1) ⟨hslash.2, hnul.2⟩
    refine ⟨mem', d, hd, ?_, ?_⟩
    · rw [List.length_cons, ← Nat.add_assoc, hturn, hloop]
      congr 1 <;> omega
    · rw [List.append_assoc, List.singleton_append] at h'
      rw [List.length_cons, Nat.add_comm name.length, ← Nat.add_assoc, ← Nat.add_assoc]
      exact h'

/-- A name is copied. -/
theorem chop_name {name : CStr} (turns : Nat) (h : Chopping mem junk src dst out (name ++ rest) '/') (hname : '/' ∉ name ∧ nul ∉ name)
    (hne : name ≠ []) (hdot : name ≠ ['.']) (hdots : name ≠ ['.', '.']) :
    ∃ mem' d, d ≠ '/' ∧ chopLoop (turns + name.length) mem src dst i =
        chopLoop turns mem' (src + name.length) (dst + name.length) i ∧
      Chopping mem' junk (src + name.length) (dst + name.length) (out ++ name) rest d := by
  obtain ⟨c, name, rfl⟩ := List.exists_cons_of_ne_nil hne
  obtain ⟨hslash, hnul⟩ := hname
  rw [List.mem_cons, not_or] at hslash hnul
  have hfirst : seesDots mem src c = some false ∨ (seesDots mem src c = some true ∧ endsPart mem (src + 2) = some false) := by
    by_cases hc : c = '.'
    · subst hc
      cases name with
      | nil => exact absurd rfl hdot
      | cons d name =>
        have hd : mem[src + 1]? = some d := h.peek (t := ['.'])
        have hsees : seesDots mem src '.' = some (decide (d = '.')) := by
          rw [seesDots, h.before_src]
          simp [hd]
        by_cases hdd : d = '.'
        · subst hdd
          cases name with
          | nil => exact absurd rfl hdots
          | cons e name =>
            have he : mem[src + 2]? = some e := h.peek (t := ['.', '.'])
            refine .inr ⟨by rw [hsees]; rfl, ?_⟩
            have hne1 : e ≠ '/' := fun heq => hslash.2 (by simp [heq])
            have hne2 : e ≠ nul := fun heq => hnul.2 (by simp [heq])
            rw [endsPart, he]
            simp [hne1, hne2]
        · exact .inl (by rw [hsees, decide_eq_false hdd])
    · exact .inl (seesDots_of_ne h.before_src fun hno => hc hno.2)
  obtain ⟨mem1, hturn, h1⟩ := chop_letter (turns + name.length) (i := i) h (Ne.symm hnul.1) (Ne.symm hslash.1) hfirst
  obtain ⟨mem', d, hd, hloop, h'⟩ := chop_letters turns (i := i) h1 (Ne.symm hslash.1) ⟨hslash.2, hnul.2⟩
  refine ⟨mem', d, hd, ?_, ?_⟩
  · rw [List.length_cons, ← Nat.add_assoc, hturn, hloop]
    congr 1 <;> omega
  · rw [List.append_assoc, List.singleton_append] at h'
    rw [List.length_cons, Nat.add_comm name.length, ← Nat.add_assoc, ← Nat.add_assoc]
    exact h'

/-- The way back over a name. -/
theorem parentLoop_name (front name behind : CStr) (a : Nat) (ha : front.length = a + 1) (hname : '/' ∉ name) :
    parentLoop (front ++ (name ++ behind)) dst (a + name.length) i = parentLoop (front ++ (name ++ behind)) dst a i := by
  induction name using List.reverseRecOn generalizing behind with
  | nil => rfl
  | append_singleton name c ih =>
    rw [List.mem_append, List.mem_singleton, not_or] at hname
    have hread : (front ++ (name ++ [c] ++ behind))[a + name.length + 1]? = some c := by
      have hsplit : front ++ (name ++ [c] ++ behind) = (front ++ name) ++ c :: behind := by simp
      have hplace : a + name.length + 1 = (front ++ name).length := by
        rw [List.length_append, ha]
        omega
      rw [hsplit, hplace, get_here]
    have hstep := ih ([c] ++ behind) hname.1
    rw [← List.append_assoc name] at hstep
    rw [List.length_append, List.length_singleton, ← Nat.add_assoc, parentLoop, hread]
    simp only [Option.bind_eq_bind, Option.bind_some]
    rw [if_neg (Ne.symm hname.2), hstep]

/-- At the root `..` changes nothing. -/
theorem chopParent_root (h : Chopping mem junk src dst ['/'] rest b) : chopParent mem dst i = some (dst, i) := by
  obtain ⟨gap, hmem, -⟩ := h.text
  have hdst : dst = 1 := h.dst
  have hread : mem[0]? = some '/' := by
    rw [hmem]
    rfl
  rw [chopParent, hdst]
  simp [parentLoop, hread]

/-- The first `..` behind a name takes it back; the flag stays set if that was the only one. -/
theorem chopParent_name {st : List CStr} {name : CStr} (h : Chopping mem junk src dst (slashed (st ++ [name]) ++ ['/']) rest b)
    (hname : '/' ∉ name) :
    chopParent mem dst false = some ((slashed st ++ ['/']).length, decide (st = [])) := by
  obtain ⟨gap, hmem, -⟩ := h.text
  have hsplit : slashed (st ++ [name]) ++ ['/'] = (slashed st ++ ['/']) ++ (name ++ ['/']) := by simp [slashed_snoc]
  have hdst : dst = (slashed st).length + name.length + 1 + 1 := by
    rw [h.dst, hsplit]
    simp only [List.length_append, List.length_singleton]
    omega
  obtain ⟨behind, hbehind⟩ : ∃ behind, behind = '/' :: (gap ++ (rest ++ nul :: junk)) := ⟨_, rfl⟩
  have hcells : mem = (slashed st ++ ['/']) ++ (name ++ behind) := by
    rw [hmem, hsplit, hbehind]
    simp
  have hlast : mem[(slashed st).length + name.length + 1]? = some '/' := by
    have hfront : mem = (slashed st ++ ['/'] ++ name) ++ '/' :: (gap ++ (rest ++ nul :: junk)) := by
      rw [hcells, hbehind]
      simp
    have hplace : (slashed st).length + name.length + 1 = (slashed st ++ ['/'] ++ name).length := by
      simp only [List.length_append, List.length_singleton]
      omega
    rw [hfront, hplace, get_here]
  have hslash : mem[(slashed st).length]? = some '/' := by
    have hfront : mem = slashed st ++ '/' :: (name ++ behind) := by
      rw [hcells]
      simp
    rw [hfront, get_here]
  have hback : parentLoop mem dst ((slashed st).length + name.length) true = parentLoop mem dst (slashed st).length true := by
    rw [hcells]
    exact parentLoop_name _ name behind _ (by simp) hname
  have hloop : parentLoop mem dst (dst - 1) false = parentLoop mem dst (slashed st).length true := by
    have hpred : dst - 1 = (slashed st).length + name.length + 1 := by omega
    rw [hpred, parentLoop, hlast, ← hback]
    simp
  rw [chopParent, hloop]
  cases st with
  | nil =>
    have hzero : (slashed []).length = 0 := rfl
    rw [hzero] at hslash
    simp [parentLoop, slashed, hslash]
  | cons c st =>
    obtain ⟨a, ha⟩ : ∃ a, (slashed (c :: st)).length = a + 1 := ⟨(c ++ slashed st).length, by simp [slashed]⟩
    rw [ha] at hslash ⊢
    simp [parentLoop, hslash, ha]

/-- The turn of a `..` that more follows on. -/
theorem chop_parent {i' : Bool} {dst' : Nat} {front back : CStr} (turns : Nat)
    (h : Chopping mem junk src dst (front ++ back) ('.' :: '.' :: '/' :: rest) '/')
    (hparent : chopParent mem dst i = some (dst', i')) (hdst : dst' = front.length) :
    chopLoop (turns + 1) mem src dst i = chopLoop turns mem (src + 3) dst' i' ∧
      Chopping mem junk (src + 3) dst' front rest '/' := by
  have hdot : mem[src + 1]? = some '.' := h.peek (t := ['.'])
  have hslash : mem[src + 2]? = some '/' := h.peek (t := ['.', '.'])
  have hdots : seesDots mem src '.' = some true := by
    rw [seesDots, h.before_src]
    simp [hdot]
  have hends : endsPart mem (src + 2) = some true := by
    rw [endsPart, hslash]
    rfl
  refine ⟨?_, hdst ▸ (h.skip (t := ['.', '.'])).back⟩
  rw [chopLoop, h.read]
  simp only [Option.bind_eq_bind, Option.bind_some, hdots, hends, hparent, if_true]
  exact if_neg (by decide)

/-- What follows on a slash is no dot. -/
theorem seesDot_part {part : CStr} (h : Chopping mem junk src dst out ('/' :: (part ++ rest)) b) (hpart : '/' ∉ part ∧ nul ∉ part)
    (hne : part ≠ ['.']) (hrest : rest = [] ∨ rest.head? = some '/') : seesDot mem src '/' = some false := by
  cases part with
  | nil =>
    have hnext : ∃ c, mem[src + 1]? = some c ∧ c ≠ '.' := by
      rcases hrest with rfl | hhead
      · exact ⟨nul, h.peek_end, by decide⟩
      · obtain ⟨rest, rfl⟩ := List.head?_eq_some_iff.mp hhead
        exact ⟨'/', h.peek (t := ['/']), by decide⟩
    obtain ⟨c, hc, hdot⟩ := hnext
    rw [seesDot, if_pos rfl, hc]
    exact if_neg hdot
  | cons c part =>
    have hc : mem[src + 1]? = some c := h.peek (t := ['/'])
    rw [seesDot, if_pos rfl, hc]
    by_cases hdot : c = '.'
    · subst hdot
      cases part with
      | nil => exact absurd rfl hne
      | cons d part =>
        have hd : mem[src + 2]? = some d := h.peek (t := ['/', '.'])
        have hslash : d ≠ '/' := fun heq => hpart.1 (by simp [heq])
        have hnul : d ≠ nul := fun heq => hpart.2 (by simp [heq])
        show endsPart mem (src + 2) = _
        rw [endsPart, hd]
        simp [hslash, hnul]
    · exact if_neg hdot

end Turns

section Parts

variable {mem junk : CStr} {src dst turns : Nat} {b : Char} {i : Bool} {st pre rest parts : List CStr} {c : CStr}

/-- From here on the loop comes to the path of the components `st`, and leaves what lies behind the text alone. -/
def ChopEnds (junk : CStr) (turns : Nat) (mem : CStr) (src dst : Nat) (i : Bool) (st : List CStr) : Prop :=
  ∃ behind, ((chopLoop turns mem src dst i).bind fun r => chopEnd r.1 r.2) = some (partsPath st ++ nul :: behind) ∧
    junk <:+ behind

theorem ChopEnds.of_turn {turns' src' dst' : Nat} {mem' : CStr} {i' : Bool}
    (hturn : chopLoop turns mem src dst i = chopLoop turns' mem' src' dst' i') (h : ChopEnds junk turns' mem' src' dst' i' st) :
    ChopEnds junk turns mem src dst i st := by
  obtain ⟨behind, hend, hjunk⟩ := h
  exact ⟨behind, by rw [hturn, hend], hjunk⟩

theorem keptParts_snoc (parts : List CStr) (c : CStr) :
    keptParts (parts ++ [c]) = if c = [] ∨ c = ['.'] then keptParts parts
      else if c = ['.', '.'] then (keptParts parts).dropLast else keptParts parts ++ [c] := by
  rw [keptParts, List.foldl_append]
  rfl

/-- What is kept are names. -/
theorem keptParts_names (parts : List CStr) : ∀ n ∈ keptParts parts, n ∈ parts ∧ n ≠ [] ∧ n ≠ ['.'] ∧ n ≠ ['.', '.'] := by
  induction parts using List.reverseRecOn with
  | nil =>
    intro n hn
    cases hn
  | append_singleton parts c ih =>
    intro n hn
    have hold : n ∈ keptParts parts → n ∈ parts ++ [c] ∧ n ≠ [] ∧ n ≠ ['.'] ∧ n ≠ ['.', '.'] := fun hmem =>
      ⟨List.mem_append_left _ (ih n hmem).1, (ih n hmem).2⟩
    rw [keptParts_snoc] at hn
    split_ifs at hn with hempty hdots
    · exact hold hn
    · exact hold (List.mem_of_mem_dropLast hn)
    · rcases List.mem_append.mp hn with hmem | hmem
      · exact hold hmem
      · rw [not_or] at hempty
        rw [List.mem_singleton.mp hmem]
        exact ⟨by simp, hempty.1, hempty.2, hdots⟩

theorem slashed_head (rest : List CStr) : slashed rest = [] ∨ (slashed rest).head? = some '/' := by
  cases rest with
  | nil => exact .inl rfl
  | cons c rest => exact .inr rfl

theorem slashed_clean (h : ∀ c ∈ rest, nul ∉ c) : nul ∉ slashed rest := by
  intro hmem
  obtain ⟨c, hc, hin⟩ := List.mem_flatMap.mp hmem
  rcases List.mem_cons.mp hin with heq | hin
  · exact absurd heq (by decide)
  · exact h c hc hin

/-- The end behind a slash, which is taken away again. -/
theorem chop_end_slash (h : Chopping mem junk src dst (slashed st ++ ['/']) [] b) : ChopEnds junk (turns + 1) mem src dst i st := by
  have hread : mem[src]? = some nul := h.peek_end
  obtain ⟨gap, hmem, -⟩ := h.text
  have hdst : dst = (slashed st).length + 1 := by rw [h.dst, List.length_append, List.length_singleton]
  have hcells : mem = slashed st ++ '/' :: (gap ++ nul :: junk) := by
    rw [hmem]
    simp
  have hslash : mem[dst - 1]? = some '/' := by rw [hdst, Nat.add_sub_cancel, hcells, get_here]
  have hloop : chopLoop (turns + 1) mem src dst i = some (mem, dst) := by
    rw [chopLoop, hread]
    simp only [Option.bind_eq_bind, Option.bind_some, if_true]
  rw [ChopEnds, hloop, Option.bind_some, chopEnd, hslash]
  simp only [Option.bind_eq_bind, Option.bind_some]
  by_cases hst : st = []
  · subst hst
    have hone : dst = 1 := hdst
    obtain ⟨gap', hstore, -⟩ := storeAt_advance ['/'] gap junk nul nul
    have hfront : mem = ['/'] ++ (gap ++ nul :: junk) := hcells
    rw [← hfront] at hstore
    refine ⟨gap' ++ junk, ?_, List.suffix_append _ _⟩
    rw [hone, if_neg (by omega)]
    exact hstore
  · have hpos : 0 < (slashed st).length := by
      obtain ⟨c, st, rfl⟩ := List.exists_cons_of_ne_nil hst
      simp [slashed]
    rw [if_pos ⟨by omega, trivial⟩, hdst, Nat.add_sub_cancel, hcells, storeAt_here, partsPath_eq hst]
    exact ⟨_, rfl, (List.suffix_cons _ _).trans (List.suffix_append _ _)⟩

/-- The end behind a name. -/
theorem chop_end_name (h : Chopping mem junk src dst (slashed st) [] b) (hst : st ≠ []) (hnames : ∀ n ∈ st, n ≠ [] ∧ '/' ∉ n) :
    ChopEnds junk (turns + 1) mem src dst i st := by
  have hread : mem[src]? = some nul := h.peek_end
  obtain ⟨gap, hmem, -⟩ := h.text
  have hlast : ∃ front d, slashed st = front ++ [d] ∧ d ≠ '/' := by
    obtain ⟨st', n, rfl⟩ := List.eq_nil_or_concat st |>.resolve_left hst
    obtain ⟨hn, hslash⟩ := hnames n (by simp)
    obtain ⟨name, d, rfl⟩ := List.eq_nil_or_concat n |>.resolve_left hn
    refine ⟨slashed st' ++ '/' :: name, d, by simp [slashed_snoc], ?_⟩
    rintro rfl
    exact hslash (by simp)
  obtain ⟨front, d, hout, hd⟩ := hlast
  have hletter : mem[dst - 1]? = some d := by
    rw [h.dst, hmem, hout, List.length_append, List.length_singleton, Nat.add_sub_cancel, List.append_assoc,
      List.singleton_append, get_here]
  have hloop : chopLoop (turns + 1) mem src dst i = some (mem, dst) := by
    rw [chopLoop, hread]
    simp only [Option.bind_eq_bind, Option.bind_some, if_true]
  obtain ⟨gap', hstore, -⟩ := storeAt_advance (slashed st) gap junk nul nul
  have hcells : mem = slashed st ++ (gap ++ nul :: junk) := hmem
  rw [← hcells, ← h.dst] at hstore
  rw [ChopEnds, hloop, Option.bind_some, chopEnd, hletter]
  refine ⟨gap' ++ junk, ?_, List.suffix_append _ _⟩
  simp only [Option.bind_eq_bind, Option.bind_some]
  rw [if_neg fun hno => hd hno.2, hstore, partsPath_eq hst, List.append_assoc]
  rfl

/-- Dots up to the end change nothing. -/
theorem chop_dots (hrest : ∀ c ∈ rest, c = ['.']) (h : Chopping mem junk src dst (slashed st ++ ['/']) (slashed rest) b)
    (hturns : (slashed rest).length < turns) : ChopEnds junk turns mem src dst i st := by
  induction rest generalizing src turns b with
  | nil =>
    obtain ⟨turns, rfl⟩ : ∃ t, turns = t + 1 := ⟨turns - 1, by omega⟩
    exact chop_end_slash h
  | cons c rest ih =>
    obtain ⟨rfl, hdots⟩ := List.forall_mem_cons.mp hrest
    obtain ⟨turns, rfl⟩ : ∃ t, turns = t + 1 := ⟨turns - 1, by omega⟩
    have hclean : nul ∉ slashed rest := slashed_clean fun c hc => by
      rw [hdots c hc]
      decide
    obtain ⟨hturn, hnext⟩ := chop_dot turns (i := i) h hclean (slashed_head rest)
    refine ChopEnds.of_turn hturn (ih hdots hnext ?_)
    simp only [slashed, List.flatMap_cons, List.length_append, List.length_cons] at hturns ⊢
    omega

/-- Where the flag is set, a `..` took the only component. -/
def FlagFrom (pre : List CStr) (i : Bool) : Prop :=
  i = true → ∃ j < pre.length, pre[j]? = some ['.', '.'] ∧ (keptParts (pre.take j)).length = 1

theorem FlagFrom.snoc (h : FlagFrom pre i) (c : CStr) : FlagFrom (pre ++ [c]) i := by
  intro hi
  obtain ⟨j, hj, hdots, hone⟩ := h hi
  refine ⟨j, by rw [List.length_append]; omega, by rw [List.getElem?_append_left hj, hdots], ?_⟩
  rw [List.take_append_of_le_length (by omega), hone]

/-- From behind a name, with `rest` still to come, the loop comes to the right path. -/
def EndsBehind (parts : List CStr) (junk : CStr) (rest : List CStr) : Prop :=
  ∀ (pre : List CStr) (mem : CStr) (src dst turns : Nat) (b : Char) (i : Bool), parts = pre ++ rest → keptParts pre ≠ [] →
    FlagFrom pre i → b ≠ '/' → Chopping mem junk src dst (slashed (keptParts pre)) (slashed rest) b →
    (slashed rest).length < turns → ChopEnds junk turns mem src dst i (keptParts parts)

/-- So it does from the start of a component that is no dot. -/
def EndsAt (parts : List CStr) (junk : CStr) (rest : List CStr) : Prop :=
  ∀ (pre : List CStr) (c mem : CStr) (src dst turns : Nat) (i : Bool), parts = pre ++ c :: rest → c ≠ ['.'] →
    FlagFrom pre i → Chopping mem junk src dst (slashed (keptParts pre) ++ ['/']) (c ++ slashed rest) '/' →
    (c ++ slashed rest).length < turns → ChopEnds junk turns mem src dst i (keptParts parts)

theorem keptParts_skip (hc : c = [] ∨ c = ['.']) : keptParts (pre ++ [c]) = keptParts pre := by
  rw [keptParts_snoc, if_pos hc]

theorem keptParts_dots : keptParts (pre ++ [['.', '.']]) = (keptParts pre).dropLast := by
  rw [keptParts_snoc, if_neg (by decide), if_pos rfl]

theorem keptParts_name (hempty : c ≠ []) (hdot : c ≠ ['.']) (hdots : c ≠ ['.', '.']) :
    keptParts (pre ++ [c]) = keptParts pre ++ [c] := by
  rw [keptParts_snoc, if_neg (not_or.mpr ⟨hempty, hdot⟩), if_neg hdots]

theorem keptParts_append_dots (hrest : ∀ c ∈ rest, c = ['.']) : keptParts (pre ++ rest) = keptParts pre := by
  induction rest using List.reverseRecOn with
  | nil => rw [List.append_nil]
  | append_singleton rest c ih =>
    rw [← List.append_assoc, keptParts_skip (.inr (hrest c (by simp))),
      ih fun d hd => hrest d (List.mem_append_left _ hd)]

theorem slashed_cons (c : CStr) (rest : List CStr) : slashed (c :: rest) = '/' :: (c ++ slashed rest) := rfl

section Run

variable (hright : ChopsRight parts) (hclean : ∀ c ∈ parts, '/' ∉ c ∧ nul ∉ c)

include hclean in
theorem endsBehind_nil : EndsBehind parts junk [] := by
  intro pre mem src dst turns b i hparts hkept hflag hb h hturns
  obtain ⟨turns, rfl⟩ : ∃ t, turns = t + 1 := ⟨turns - 1, by omega⟩
  rw [List.append_nil] at hparts
  subst hparts
  exact chop_end_name h hkept fun n hn => ⟨(keptParts_names parts n hn).2.1, (hclean n (keptParts_names parts n hn).1).1⟩

include hclean in
theorem endsBehind_cons (hbehind : EndsBehind parts junk rest) (hat : EndsAt parts junk rest) :
    EndsBehind parts junk (c :: rest) := by
  intro pre mem src dst turns b i hparts hkept hflag hb h hturns
  obtain ⟨turns, rfl⟩ : ∃ t, turns = t + 1 := ⟨turns - 1, by omega⟩
  have hrest : nul ∉ slashed rest := slashed_clean fun d hd => (hclean d (by rw [hparts]; simp [hd])).2
  rw [slashed_cons] at h hturns
  rw [List.length_cons] at hturns
  by_cases hdot : c = ['.']
  · subst hdot
    have hsame : keptParts (pre ++ [['.']]) = keptParts pre := keptParts_skip (.inr rfl)
    obtain ⟨hturn, hnext⟩ := chop_dot turns (i := i) h hrest (slashed_head rest)
    rw [← hsame] at hkept hnext
    refine ChopEnds.of_turn hturn (hbehind _ _ _ _ _ '.' i (by rw [hparts]; simp) hkept (hflag.snoc _) (by decide) hnext ?_)
    rw [List.length_append] at hturns
    omega
  · have hsees : seesDot mem src '/' = some false :=
      seesDot_part h (hclean c (by rw [hparts]; simp)) hdot (slashed_head rest)
    obtain ⟨mem', hstep⟩ := chop_slash turns (i := i) h hsees
    rw [if_neg hb] at hstep
    exact ChopEnds.of_turn hstep.1 (hat pre c _ _ _ _ i hparts hdot hflag hstep.2 (by omega))

include hright hclean in
theorem endsAt_parent {d : CStr} (hat : EndsAt parts junk rest) {pre : List CStr} {mem : CStr} {src dst turns : Nat} {i : Bool}
    (hparts : parts = pre ++ ['.', '.'] :: d :: rest) (hflag : FlagFrom pre i)
    (h : Chopping mem junk src dst (slashed (keptParts pre) ++ ['/']) (['.', '.'] ++ slashed (d :: rest)) '/')
    (hturns : (d ++ slashed rest).length < turns) : ChopEnds junk (turns + 1) mem src dst i (keptParts parts) := by
  have hlen : pre.length < parts.length := by
    rw [hparts, List.length_append, List.length_cons]
    omega
  have hhere : parts[pre.length]? = some ['.', '.'] := by
    rw [hparts]
    simp
  have hdot : d ≠ ['.'] := by
    rintro rfl
    refine hright.behind pre.length hlen hhere ?_
    rw [hparts]
    simp
  have hsplit : parts = (pre ++ [['.', '.']]) ++ d :: rest := by
    rw [hparts]
    simp
  obtain hnone | ⟨st, name, hst⟩ := (keptParts pre).eq_nil_or_concat
  · -- nothing to cancel
    rw [hnone] at h
    have hroot : Chopping mem junk src dst (['/'] ++ []) ('.' :: '.' :: '/' :: (d ++ slashed rest)) '/' := h
    obtain ⟨hturn, hnext⟩ := chop_parent turns hroot (chopParent_root h) h.dst
    have hkept : keptParts (pre ++ [['.', '.']]) = [] := by rw [keptParts_dots, hnone]; rfl
    refine ChopEnds.of_turn hturn (hat (pre ++ [['.', '.']]) d _ _ _ _ i hsplit hdot (hflag.snoc _) ?_ hturns)
    rw [hkept]
    exact hnext
  · have hi : i = false := by
      rw [← Bool.not_eq_true]
      intro hset
      obtain ⟨j, hj, hdots, hone⟩ := hflag hset
      have htake : ∀ k ≤ pre.length, parts.take k = pre.take k := fun k hk => by
        rw [hparts, List.take_append_of_le_length hk]
      have htook : parts[j]? = some ['.', '.'] ∧ (keptParts (parts.take j)).length = 1 :=
        ⟨by rw [hparts, List.getElem?_append_left hj, hdots], by rw [htake j (by omega), hone]⟩
      have hnil := hright.parents j (by omega) htook pre.length hlen ⟨hj, hhere⟩
      rw [htake _ (Nat.le_refl _), List.take_length, hst] at hnil
      simp at hnil
    have hslash : '/' ∉ name := by
      have hmem : name ∈ keptParts pre := by
        rw [hst]
        simp
      refine (hclean name ?_).1
      rw [hparts]
      exact List.mem_append_left _ (keptParts_names pre name hmem).1
    rw [hst, List.concat_eq_append] at h
    have hkept : keptParts (pre ++ [['.', '.']]) = st := by rw [keptParts_dots, hst]; simp
    have hparent := chopParent_name h hslash
    have hback : slashed (st ++ [name]) ++ ['/'] = (slashed st ++ ['/']) ++ (name ++ ['/']) := by simp [slashed_snoc]
    rw [← hi] at hparent
    rw [hback] at h
    obtain ⟨hturn, hnext⟩ := chop_parent turns h hparent rfl
    refine ChopEnds.of_turn hturn (hat (pre ++ [['.', '.']]) d _ _ _ _ _ hsplit hdot ?_ (by rw [hkept]; exact hnext) hturns)
    intro hset
    refine ⟨pre.length, by simp, by simp, ?_⟩
    rw [List.take_left, hst, of_decide_eq_true hset]
    rfl

include hright hclean in
theorem endsAt_empty (hat : ∀ d rest', rest = d :: rest' → EndsAt parts junk rest') {mem : CStr} {src dst turns : Nat}
    {i : Bool} (hparts : parts = pre ++ [] :: rest) (hflag : FlagFrom pre i)
    (h : Chopping mem junk src dst (slashed (keptParts pre) ++ ['/']) (slashed rest) '/')
    (hturns : (slashed rest).length < turns) : ChopEnds junk turns mem src dst i (keptParts parts) := by
  have hsplit : parts = (pre ++ [[]]) ++ rest := by
    rw [hparts]
    simp
  have hsame : keptParts (pre ++ [[]]) = keptParts pre := keptParts_skip (.inl rfl)
  by_cases hdots : ∀ c ∈ rest, c = ['.']
  · rw [hsplit, keptParts_append_dots hdots, hsame]
    exact chop_dots hdots h hturns
  · obtain ⟨d, rest, rfl⟩ : ∃ d rest', rest = d :: rest' := by
      cases rest with
      | nil => exact absurd (fun c hc => nomatch hc) hdots
      | cons d rest => exact ⟨d, rest, rfl⟩
    have hdot : d ≠ ['.'] := by
      rintro rfl
      refine hdots ?_
      have hall := hright.empty pre.length (by rw [hparts]; simp) (by rw [hparts]; simp) (by rw [hparts]; simp)
      have hlen : pre.length + 1 = (pre ++ [[]]).length := by rw [List.length_append, List.length_singleton]
      rw [hsplit, hlen, List.drop_left] at hall
      exact hall
    obtain ⟨turns, rfl⟩ : ∃ t, turns = t + 1 := ⟨turns - 1, by omega⟩
    have hsees : seesDot mem src '/' = some false :=
      seesDot_part h (hclean d (by rw [hparts]; simp)) hdot (slashed_head rest)
    obtain ⟨mem', hstep⟩ := chop_slash turns (i := i) h hsees
    rw [if_pos rfl, ← hsame] at hstep
    rw [slashed_cons, List.length_cons] at hturns
    exact ChopEnds.of_turn hstep.1 (hat d rest rfl _ d _ _ _ _ i hsplit hdot (hflag.snoc _) hstep.2 (by omega))

include hright hclean in
theorem endsAt_of (hbehind : EndsBehind parts junk rest) (hat : ∀ d rest', rest = d :: rest' → EndsAt parts junk rest') :
    EndsAt parts junk rest := by
  intro pre c mem src dst turns i hparts hdot hflag h hturns
  by_cases hempty : c = []
  · subst hempty
    exact endsAt_empty hright hclean hat hparts hflag h hturns
  by_cases hdots : c = ['.', '.']
  · subst hdots
    obtain ⟨turns, rfl⟩ : ∃ t, turns = t + 1 := ⟨turns - 1, by omega⟩
    cases rest with
    | nil =>
      refine absurd ?_ hright.last
      rw [hparts]
      simp
    | cons d rest =>
      refine endsAt_parent hright hclean (hat d rest rfl) hparts hflag h ?_
      simp only [slashed_cons, List.length_append, List.length_cons] at hturns ⊢
      omega
  · have hname := hclean c (by rw [hparts]; simp)
    obtain ⟨turns, rfl⟩ : ∃ t, turns = t + c.length := ⟨turns - c.length, by rw [List.length_append] at hturns; omega⟩
    obtain ⟨mem', b, hb, hloop, hnext⟩ := chop_name turns (i := i) h hname hempty hdot hdots
    have hkept : keptParts (pre ++ [c]) = keptParts pre ++ [c] := keptParts_name hempty hdot hdots
    refine ChopEnds.of_turn hloop (hbehind (pre ++ [c]) _ _ _ _ b i ?_ ?_ (hflag.snoc _) hb ?_ ?_)
    · rw [hparts]
      simp
    · rw [hkept]
      simp
    · rw [hkept, slashed_snoc, List.append_cons]
      exact hnext
    · rw [List.length_append] at hturns
      omega

include hright hclean in
/-- The loop, from any place among the components. -/
theorem chop_rest (rest : List CStr) : EndsBehind parts junk rest ∧ EndsAt parts junk rest := by
  induction rest with
  | nil =>
    have hbehind : EndsBehind parts junk [] := endsBehind_nil hclean
    exact ⟨hbehind, endsAt_of hright hclean hbehind fun d rest' h => nomatch h⟩
  | cons c rest ih =>
    have hbehind : EndsBehind parts junk (c :: rest) := endsBehind_cons hclean ih.1 ih.2
    refine ⟨hbehind, endsAt_of hright hclean hbehind fun d rest' h => ?_⟩
    rw [← (List.cons.inj h).2]
    exact ih.2

end Run

end Parts

section Path

variable {mem mem' t junk : CStr} {src dst dst' turns : Nat} {i : Bool} {parts : List CStr} {c : Char}

theorem storeAt_length (h : storeAt mem dst c = some mem') : mem'.length = mem.length := by
  rw [storeAt] at h
  split_ifs at h
  rw [← Option.some.inj h, List.length_set]

theorem chopLoop_length (h : chopLoop turns mem src dst i = some (mem', dst')) : mem'.length = mem.length := by
  induction turns generalizing mem src dst i with
  | zero => cases h
  | succ turns ih =>
    have hcopy : ∀ c, ((storeAt mem dst c).bind fun mem => chopLoop turns mem (src + 1) (dst + 1) i) = some (mem', dst') →
        mem'.length = mem.length := by
      intro c hstep
      obtain ⟨mem1, hstore, hstep⟩ := Option.bind_eq_some_iff.mp hstep
      rw [ih hstep, storeAt_length hstore]
    rw [chopLoop, Option.bind_eq_bind, Option.bind_eq_some_iff] at h
    obtain ⟨c, hc, h⟩ := h
    split_ifs at h with hend
    · rw [(Prod.mk.inj (Option.some.inj h)).1]
    obtain ⟨dots, hdots, h⟩ := Option.bind_eq_some_iff.mp h
    split_ifs at h
    · obtain ⟨ends, hends, h⟩ := Option.bind_eq_some_iff.mp h
      split_ifs at h
      · obtain ⟨r, hr, h⟩ := Option.bind_eq_some_iff.mp h
        exact ih h
      · exact hcopy c h
    · obtain ⟨dot, hdot, h⟩ := Option.bind_eq_some_iff.mp h
      split_ifs at h
      · exact ih h
      · obtain ⟨b, hb, h⟩ := Option.bind_eq_some_iff.mp h
        split_ifs at h
        · exact hcopy c h
        · exact ih h

/-- The path is rewritten in place. -/
theorem rStrChopPath_length (h : rStrChopPath mem = some mem') : mem'.length = mem.length := by
  obtain ⟨c, hc, h⟩ := Option.bind_eq_some_iff.mp h
  split_ifs at h with hend
  · rw [← Option.some.inj h]
  obtain ⟨⟨mem1, dst⟩, hloop, h⟩ := Option.bind_eq_some_iff.mp h
  obtain ⟨b, hb, h⟩ := Option.bind_eq_some_iff.mp h
  rw [← chopLoop_length hloop]
  split_ifs at h
  · exact storeAt_length h
  · exact storeAt_length h

theorem rStrChopPath_parts (hright : ChopsRight parts) (hne : parts ≠ []) (hclean : ∀ c ∈ parts, '/' ∉ c ∧ nul ∉ c)
    (junk : CStr) :
    ∃ behind, rStrChopPath (partsPath parts ++ nul :: junk) = some (partsPath (keptParts parts) ++ nul :: behind) ∧
      junk <:+ behind := by
  rw [partsPath_eq hne]
  obtain ⟨c, rest, rfl⟩ := List.exists_cons_of_ne_nil hne
  have hstart : Chopping (slashed (c :: rest) ++ nul :: junk) junk 1 1 (slashed (keptParts []) ++ ['/']) (c ++ slashed rest) '/' :=
    ⟨⟨[], rfl, rfl⟩, rfl, Nat.one_pos, rfl⟩
  have hdot : c ≠ ['.'] := by
    rintro rfl
    exact hright.first rfl
  refine (chop_rest hright hclean rest).2 [] c _ 1 1 _ false rfl hdot (fun hno => nomatch hno) hstart ?_
  simp only [slashed_cons, List.length_append, List.length_cons]
  omega

theorem chopsRight_names (h : ∀ n ∈ parts, n ≠ [] ∧ n ≠ ['.'] ∧ n ≠ ['.', '.']) : ChopsRight parts where
  last := fun hlast => (h _ (List.mem_of_getLast? hlast)).2.2 rfl
  first := fun hfirst => (h _ (List.mem_of_head? hfirst)).2.1 rfl
  behind := fun _ _ hdots => absurd rfl (h _ (List.mem_of_getElem? hdots)).2.2
  empty := fun _ _ hempty => absurd rfl (h _ (List.mem_of_getElem? hempty)).1
  parents := fun _ _ hdots => absurd rfl (h _ (List.mem_of_getElem? hdots.1)).2.2

theorem chopsRight_root : ChopsRight [[]] where
  last := by decide
  first := by decide
  behind := by decide
  empty := by decide
  parents := by decide

theorem keptParts_of_names (h : ∀ n ∈ parts, n ≠ [] ∧ n ≠ ['.'] ∧ n ≠ ['.', '.']) : keptParts parts = parts := by
  induction parts using List.reverseRecOn with
  | nil => rfl
  | append_singleton parts c ih =>
    obtain ⟨hempty, hdot, hdots⟩ := h c (by simp)
    rw [keptParts_name hempty hdot hdots, ih fun n hn => h n (List.mem_append_left _ hn)]

theorem no_slash_of_mem (t : CStr) : ∀ c ∈ t.splitOn '/', '/' ∉ c := by
  induction t with
  | nil => simp
  | cons d t ih =>
    obtain ⟨v, vs, hvs⟩ := List.exists_cons_of_ne_nil (List.splitOn_ne_nil '/' t)
    rw [List.splitOn_cons_eq_if_modifyHead]
    rw [hvs] at ih ⊢
    intro c hc
    split_ifs at hc with hd
    · rcases List.mem_cons.mp hc with rfl | hc
      · exact List.not_mem_nil
      · exact ih c hc
    · rcases List.mem_cons.mp hc with rfl | hc
      · rw [List.mem_cons, not_or]
        exact ⟨fun heq => hd (beq_iff_eq.mpr heq.symm), ih v List.mem_cons_self⟩
      · exact ih c (List.mem_cons_of_mem v hc)

/-- Off its wrong turns, `r_str_chop_path` makes of every absolute path the canonical one, which it then leaves alone. -/
theorem rStrChopPath_of (hnul : nul ∉ t) (junk : CStr) (h : ChopsRight (t.splitOn '/')) :
    ∃ behind, rStrChopPath ('/' :: t ++ nul :: junk) = some (partsPath (keptParts (t.splitOn '/')) ++ nul :: behind) ∧
      junk <:+ behind ∧ (partsPath (keptParts (t.splitOn '/'))).length + behind.length = ('/' :: t).length + junk.length ∧
      ∃ behind', rStrChopPath (partsPath (keptParts (t.splitOn '/')) ++ nul :: behind) =
        some (partsPath (keptParts (t.splitOn '/')) ++ nul :: behind') := by
  have hpath : '/' :: t = partsPath (t.splitOn '/') := by rw [partsPath, List.intercalate_splitOn]
  have hclean : ∀ c ∈ t.splitOn '/', '/' ∉ c ∧ nul ∉ c := by
    refine fun c hc => ⟨no_slash_of_mem t c hc, fun hno => ?_⟩
    have hmem : nul ∈ '/' :: t := by
      rw [hpath, partsPath_eq (List.splitOn_ne_nil '/' t)]
      exact List.mem_flatMap.mpr ⟨c, hc, List.mem_cons_of_mem _ hno⟩
    rcases List.mem_cons.mp hmem with heq | hmem
    · exact absurd heq (by decide)
    · exact hnul hmem
  have hkept : ∀ n ∈ keptParts (t.splitOn '/'), n ≠ [] ∧ n ≠ ['.'] ∧ n ≠ ['.', '.'] := fun n hn => (keptParts_names _ n hn).2
  obtain ⟨behind, hrun, hjunk⟩ := rStrChopPath_parts h (List.splitOn_ne_nil '/' t) hclean junk
  rw [← hpath] at hrun
  refine ⟨behind, hrun, hjunk, ?_, ?_⟩
  · have hlen := rStrChopPath_length hrun
    simp only [List.length_append, List.length_cons] at hlen ⊢
    omega
  · by_cases hnone : keptParts (t.splitOn '/') = []
    · rw [hnone]
      obtain ⟨behind', hagain, -⟩ := rStrChopPath_parts chopsRight_root (by simp) (by decide) behind
      exact ⟨behind', hagain⟩
    · obtain ⟨behind', hagain, -⟩ := rStrChopPath_parts (chopsRight_names hkept) hnone
        (fun n hn => hclean n (keptParts_names _ n hn).1) behind
      rw [keptParts_of_names hkept] at hagain
      exact ⟨behind', hagain⟩

theorem rStrChopPath_of_four :
    ∃ behind, rStrChopPath "/a//b/../c\x00".toList = some ("/a/c\x00".toList ++ behind) := by
  have hright : ChopsRight ("a//b/../c".toList.splitOn '/') := {
    last := by decide
    first := by decide
    behind := by decide
    empty := by decide
    parents := by decide }
  obtain ⟨behind, hrun, -⟩ := rStrChopPath_of (t := "a//b/../c".toList) (by decide) [] hright
  exact ⟨behind, hrun⟩

/-- The flag that `..` leaves behind at the root makes the next `..` a step that goes nowhere. -/
theorem second_parent_lost :
    rStrChopPath "/a/../b/../c\x00".toList = some "/b/c\x00/b/../c\x00".toList ∧
      partsPath (keptParts ("a/../b/../c".toList.splitOn '/')) = "/c".toList := by
  decide

end Path

end Radare
