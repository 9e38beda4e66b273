import Radare.Framework.MachineInt
import Radare.Framework.TextBuffer
import Radare.Util.Glob

namespace Radare

open Framework.TextBuffer

def esc : Char := '\x1b'

/-- The letters that the inner loop of `r_str_ansi_filter` ends at. -/
def endsCsi (c : Char) : Bool := c = 'J' || c = 'm' || c = 'H'

/-- The inner loop; what it leaves is `i`. -/
def skipCsi (len : Nat) (str : CStr) : Nat → Nat → Option Nat
  | 0, _ => none
  | turns + 1, i =>
    if i < len then do
      let c ← str[i]?
      if endsCsi c then some i else skipCsi len str turns (i + 1)
    else some i

/-- The loop over `tmp`; what it leaves are the text, `cps`, `i` and `j`. -/
def ansiLoop (len : Nat) (tmp : CStr) : Nat → CStr → List Nat → Nat → Nat → Option (CStr × List Nat × Nat × Nat)
  | 0, _, _, _, _ => none
  | turns + 1, str, cps, i, j =>
    if i < len then
      if i + 1 < len ∧ tmp[i]? = some esc ∧ tmp[i + 1]? = some '[' then do
        let i ← skipCsi len str (len + 1) (i + 2)
        ansiLoop len tmp turns str cps (i + 1) j
      else do
        let c ← tmp[i]?
        let str ← storeAt str j c
        let cps ← storeAt cps j i
        ansiLoop len tmp turns str cps (i + 1) (j + 1)
    else some (str, cps, i, j)

/-- What `r_str_ansi_filter` returns and leaves in `str`, `*out` and `*cposs`. -/
structure AnsiText where
  count : Int
  str : CStr
  out : CStr
  cposs : List Nat
  deriving DecidableEq

/-- `r_str_ansi_filter` from its first `malloc` on, with places for `out` and `cposs`. -/
def ansiFilterOf (str : CStr) (len : Int) : Option AnsiText :=
  -- `len + 1` is an `int`, and no memory has a negative size
  if len = 2147483647 then none
  else if len < 0 then some ⟨-1, str, [], []⟩
  else if str.length < len.toNat + 1 then none
  else do
    let tmp := str.take (len.toNat + 1)
    let (str, cps, i, j) ← ansiLoop len.toNat tmp (len.toNat + 1) str (List.replicate len.toNat 0) 0 0
    let c ← tmp[i]?
    let str ← storeAt str j c
    some ⟨j, str, tmp, cps⟩

def rStrAnsiFilter (str : CStr) (len : Int) : Option AnsiText :=
  if len < 1 then do
    let n ← strlenAt nul str 0
    ansiFilterOf str (wrapInt n)
  else ansiFilterOf str len

/-- What follows a CSI sequence that `s` goes on with. -/
def afterCsi (s : CStr) : CStr := (s.dropWhile (fun c => !endsCsi c)).tail

theorem length_afterCsi (s : CStr) : (afterCsi s).length ≤ s.length := by
  rw [afterCsi, List.length_tail]
  have hle := (List.dropWhile_suffix (fun c => !endsCsi c) (l := s)).length_le
  omega

/-- The characters that are not part of a CSI sequence. -/
def outsideCsi : CStr → CStr
  | [] => []
  | [c] => [c]
  | c :: d :: s => if c = esc ∧ d = '[' then outsideCsi (afterCsi s) else c :: outsideCsi (d :: s)
termination_by s => s.length
decreasing_by
  · have hle := length_afterCsi s
    simp only [List.length_cons]
    omega
  · simp

/-- Every CSI sequence has its last letter. -/
def csiClosed : CStr → Bool
  | [] => true
  | [_] => true
  | c :: d :: s => if c = esc ∧ d = '[' then s.any endsCsi && csiClosed (afterCsi s) else csiClosed (d :: s)
termination_by s => s.length
decreasing_by
  · have hle := length_afterCsi s
    simp only [List.length_cons]
    omega
  · simp

theorem outsideCsi_keep {c : Char} {s : CStr} (h : ¬ (c = esc ∧ s.head? = some '[')) :
    outsideCsi (c :: s) = c :: outsideCsi s := by
  cases s with
  | nil => rw [outsideCsi, outsideCsi]
  | cons d s => rw [outsideCsi, if_neg (by simpa using h)]

theorem csiClosed_keep {c : Char} {s : CStr} (h : ¬ (c = esc ∧ s.head? = some '[')) :
    csiClosed (c :: s) = csiClosed s := by
  cases s with
  | nil => rw [csiClosed, csiClosed]
  | cons d s => rw [csiClosed, if_neg (by simpa using h)]

theorem outsideCsi_csi (s : CStr) : outsideCsi (esc :: '[' :: s) = outsideCsi (afterCsi s) := by
  rw [outsideCsi, if_pos ⟨rfl, rfl⟩]

theorem csiClosed_csi (s : CStr) : csiClosed (esc :: '[' :: s) = (s.any endsCsi && csiClosed (afterCsi s)) := by
  rw [csiClosed, if_pos ⟨rfl, rfl⟩]

/-- A sequence that goes on with `s` ends in it, or takes all of it. -/
theorem csi_cases (s : CStr) :
    (s.any endsCsi = false ∧ s.takeWhile (fun c => !endsCsi c) = s ∧ afterCsi s = []) ∨
    (s.any endsCsi = true ∧ ∃ f, s = s.takeWhile (fun c => !endsCsi c) ++ f :: afterCsi s) := by
  have hs := List.takeWhile_append_dropWhile (p := fun c => !endsCsi c) (l := s)
  cases hdrop : s.dropWhile (fun c => !endsCsi c) with
  | nil =>
    left
    rw [hdrop, List.append_nil] at hs
    refine ⟨?_, hs, by rw [afterCsi, hdrop]; rfl⟩
    rw [List.dropWhile_eq_nil_iff] at hdrop
    simpa using hdrop
  | cons f after =>
    right
    have hf : endsCsi f = true := by
      have hhead := List.head?_dropWhile_not (fun c => !endsCsi c) s
      rw [hdrop] at hhead
      simpa using hhead
    rw [hdrop] at hs
    refine ⟨List.any_eq_true.mpr ⟨f, by rw [← hs]; simp, hf⟩, f, ?_⟩
    rw [afterCsi, hdrop]
    exact hs.symm

section Loop

theorem skipCsi_spec (len turns : Nat) (before rest after : CStr) (hlen : len = before.length + rest.length)
    (ht : rest.length < turns) :
    skipCsi len (before ++ (rest ++ after)) turns before.length =
      some (before.length + (rest.takeWhile (fun c => !endsCsi c)).length) := by
  induction turns generalizing before rest with
  | zero => omega
  | succ turns ih =>
    cases rest with
    | nil =>
      rw [skipCsi, if_neg (by simp at hlen; omega)]
      rfl
    | cons c rest =>
      rw [skipCsi, if_pos (by simp at hlen; omega), List.cons_append, get_here]
      show (if endsCsi c = true then _ else _) = _
      by_cases hc : endsCsi c = true
      · rw [if_pos hc, List.takeWhile_cons_of_neg (by simp [hc])]
        rfl
      · have hstep := ih (before ++ [c]) rest (by simp at hlen ⊢; omega) (by simp at ht; omega)
        rw [List.append_assoc, List.length_append] at hstep
        rw [if_neg hc, List.takeWhile_cons_of_pos (by simp [hc])]
        refine hstep.trans (congrArg some ?_)
        simp only [List.length_cons, List.length_nil]
        omega

variable {len : Nat} {tmp : CStr}

/-- The test of the loop, with `c :: rest` left of the text. -/
theorem atCsi_iff {pre rest : CStr} {c : Char} (htmp : tmp = pre ++ (c :: rest ++ [nul]))
    (hlen : len = pre.length + (c :: rest).length) :
    (pre.length + 1 < len ∧ tmp[pre.length]? = some esc ∧ tmp[pre.length + 1]? = some '[') ↔
      c = esc ∧ rest.head? = some '[' := by
  subst htmp
  cases rest with
  | nil =>
    have hend : ¬ pre.length + 1 < len := by simp at hlen; omega
    simp [hend]
  | cons d rest =>
    have hin : pre.length + 1 < len := by simp at hlen; omega
    rw [List.cons_append, List.cons_append, get_here, get_next]
    simp [hin]

theorem ansiLoop_end {turns i j : Nat} (str : CStr) (cps : List Nat) (ht : 0 < turns) (hi : ¬ i < len) :
    ansiLoop len tmp turns str cps i j = some (str, cps, i, j) := by
  cases turns with
  | zero => omega
  | succ turns => rw [ansiLoop, if_neg hi]

theorem ansiLoop_spec (turns : Nat) (pre rest out gap : CStr) (ps zs : List Nat)
    (htmp : tmp = pre ++ (rest ++ [nul])) (hlen : len = pre.length + rest.length)
    (hgap : pre.length = out.length + gap.length) (hzs : zs.length = gap.length + rest.length)
    (hps : Picked pre out ps) (ht : rest.length < turns) :
    ∃ ps' gap' zs', ansiLoop len tmp turns (out ++ (gap ++ (rest ++ [nul]))) (ps ++ zs) pre.length out.length =
      some (out ++ outsideCsi rest ++ (gap' ++ [nul]), ps' ++ zs', if csiClosed rest then len else len + 1,
        (out ++ outsideCsi rest).length) ∧ Picked (pre ++ rest) (out ++ outsideCsi rest) ps' := by
  induction turns generalizing pre rest out gap ps zs with
  | zero => omega
  | succ turns ih =>
    cases rest with
    | nil =>
      refine ⟨ps, gap, zs, ?_, by simpa [outsideCsi] using hps⟩
      rw [ansiLoop_end _ _ (by omega) (by simp at hlen; omega)]
      simp [outsideCsi, csiClosed, hlen]
    | cons c rest =>
      have hlt : pre.length < len := by simp at hlen; omega
      rw [ansiLoop, if_pos hlt]
      by_cases hcsi : c = esc ∧ rest.head? = some '['
      · rw [if_pos ((atCsi_iff htmp hlen).mpr hcsi)]
        obtain ⟨rfl, hhead⟩ := hcsi
        obtain ⟨s, rfl⟩ : ∃ s, rest = '[' :: s := by
          cases rest with
          | nil => cases hhead
          | cons d s => exact ⟨s, by rw [Option.some.inj hhead]⟩
        -- the inner loop reads what the stores have not reached
        have hskip := skipCsi_spec len (len + 1) (out ++ (gap ++ [esc, '['])) s [nul]
          (by simp at hlen ⊢; omega) (by simp at hlen; omega)
        have hmem : out ++ (gap ++ [esc, '[']) ++ (s ++ [nul]) = out ++ (gap ++ (esc :: '[' :: s ++ [nul])) := by simp
        have hpre : (out ++ (gap ++ [esc, '['])).length = pre.length + 2 := by simp; omega
        rw [hmem, hpre] at hskip
        rw [hskip]
        show ∃ ps' gap' zs', ansiLoop len tmp turns _ _ _ _ = _ ∧ _
        rw [outsideCsi_csi, csiClosed_csi]
        rcases csi_cases s with ⟨hopen, htake, hafter⟩ | ⟨hclosed, f, hs⟩
        · refine ⟨ps, gap ++ esc :: '[' :: s, zs, ?_, ?_⟩
          · rw [htake, ansiLoop_end _ _ (by simp at ht; omega) (by simp at hlen; omega)]
            simp [hafter, hopen, outsideCsi, hlen]
            omega
          · simpa [hafter, outsideCsi] using hps.append (esc :: '[' :: s)
        · generalize s.takeWhile (fun c => !endsCsi c) = body at hs
          generalize afterCsi s = after at hs
          subst hs
          have hstep := ih (pre ++ (esc :: '[' :: body ++ [f])) after out (gap ++ (esc :: '[' :: body ++ [f])) ps zs
            (by rw [htmp]; simp) (by simp at hlen ⊢; omega) (by simp; omega) (by simp at hzs ⊢; omega)
            (hps.append _) (by simp at ht; omega)
          have hi : (pre ++ (esc :: '[' :: body ++ [f])).length = pre.length + 2 + body.length + 1 := by simp; omega
          rw [hi] at hstep
          rw [hclosed, Bool.true_and]
          simpa using hstep
      · have hread : tmp[pre.length]? = some c := by rw [htmp, List.cons_append, get_here]
        rw [if_neg (fun h => hcsi ((atCsi_iff htmp hlen).mp h)), hread]
        obtain ⟨gap', hstore, hgap'⟩ := storeAt_advance out gap (rest ++ [nul]) c c
        obtain ⟨z, zs, rfl⟩ : ∃ z zs', zs = z :: zs' := by
          cases zs with
          | nil => simp at hzs
          | cons z zs => exact ⟨z, zs, rfl⟩
        have hcps := storeAt_here ps zs z pre.length
        rw [hps.length_eq] at hcps
        simp only [bind, Option.bind_some, List.cons_append, hstore, hcps]
        have hstep := ih (pre ++ [c]) rest (out ++ [c]) gap' (ps ++ [pre.length]) zs (by rw [htmp]; simp)
          (by simp at hlen ⊢; omega) (by simp; omega) (by simp at hzs; omega) (hps.snoc c) (by simp at ht; omega)
        rw [outsideCsi_keep hcsi, csiClosed_keep hcsi]
        simpa using hstep

end Loop

/-- What the doc comment says of the result, for the text `s`. -/
structure AnsiFiltered (s : CStr) (r : AnsiText) : Prop where
  count : r.count = (outsideCsi s).length
  str : outsideCsi s ++ [nul] <+: r.str
  out : r.out = s ++ [nul]
  ascending : (r.cposs.take (outsideCsi s).length).Pairwise (· < ·)
  cposs : (r.cposs.take (outsideCsi s).length).map (fun p => r.out[p]?) = (outsideCsi s).map some

theorem ansiLoop_text {s : CStr} {turns : Nat} (ht : s.length < turns) :
    ∃ ps gap zs, ansiLoop s.length (s ++ [nul]) turns (s ++ [nul]) (List.replicate s.length 0) 0 0 =
      some (outsideCsi s ++ (gap ++ [nul]), ps ++ zs, if csiClosed s then s.length else s.length + 1,
        (outsideCsi s).length) ∧ Picked s (outsideCsi s) ps := by
  have hlen : s.length = ([] : CStr).length + s.length := by simp
  have h := ansiLoop_spec turns [] s [] [] [] (List.replicate s.length 0) rfl hlen rfl (by simp) Picked.nil ht
  simpa using h

theorem rStrAnsiFilter_terminated {s : CStr} {len : Int} (hnul : nul ∉ s) (hlen : len < 1) :
    rStrAnsiFilter (s ++ [nul]) len = ansiFilterOf (s ++ [nul]) (wrapInt s.length) := by
  rw [rStrAnsiFilter, if_pos hlen, strlenAt_start hnul]
  exact Option.bind_some _ _

/-- With all of the text to look at, only an open sequence goes wrong. -/
theorem ansiFilterOf_length {s : CStr} (hlen : s.length < 2147483647) :
    ∃ ps gap zs, Picked s (outsideCsi s) ps ∧ ansiFilterOf (s ++ [nul]) s.length =
      if csiClosed s then
        some ⟨(outsideCsi s).length, outsideCsi s ++ [nul] ++ gap, s ++ [nul], ps ++ zs⟩
      else none := by
  obtain ⟨ps, gap, zs, hloop, hps⟩ := ansiLoop_text (Nat.lt_succ_self s.length)
  obtain ⟨gap', hstore, -⟩ := storeAt_advance (outsideCsi s) gap [] nul nul
  refine ⟨ps, gap', zs, hps, ?_⟩
  rw [ansiFilterOf, if_neg (by omega), if_neg (by omega), if_neg (by simp), Int.toNat_natCast,
    List.take_of_length_le (by simp)]
  show (ansiLoop _ _ _ _ _ _ _).bind _ = _
  rw [hloop, Option.bind_some]
  by_cases hclosed : csiClosed s = true
  · rw [if_pos hclosed, if_pos hclosed]
    show ((s ++ [nul])[s.length]?).bind _ = _
    rw [get_here, Option.bind_some]
    show (storeAt _ _ _).bind _ = _
    rw [hstore, List.append_nil]
    rfl
  · rw [if_neg hclosed, if_neg hclosed]
    show ((s ++ [nul])[s.length + 1]?).bind _ = _
    rw [List.getElem?_eq_none (by simp)]
    rfl

/-- A length that an `int` cannot hold gives no copy of the text. -/
theorem ansiFilterOf_short {str : CStr} {len : Int} {r : AnsiText} (h : ansiFilterOf str len = some r)
    (hlen : len + 1 < str.length) : r.count = -1 ∨ r.out.length < str.length := by
  unfold ansiFilterOf at h
  split_ifs at h with htop hneg hshort
  · cases h
    exact .inl rfl
  · right
    obtain ⟨⟨str', cps, i, j⟩, -, h⟩ := Option.bind_eq_some_iff.mp h
    obtain ⟨c, -, h⟩ := Option.bind_eq_some_iff.mp h
    obtain ⟨str'', -, h⟩ := Option.bind_eq_some_iff.mp h
    cases h
    rw [List.length_take]
    omega

/-- `r_str_ansi_filter` keeps exactly what is outside the CSI sequences of texts that an `int` can index
and that end outside of them. -/
theorem rStrAnsiFilter_iff (s : CStr) (hnul : nul ∉ s) (_hne : s ≠ []) :
    (∃ r, rStrAnsiFilter (s ++ [nul]) 0 = some r ∧ AnsiFiltered s r) ↔
      csiClosed s = true ∧ s.length < 2147483647 := by
  rw [rStrAnsiFilter_terminated hnul (by decide)]
  by_cases hlen : s.length < 2147483647
  · obtain ⟨ps, gap, zs, hps, hrun⟩ := ansiFilterOf_length hlen
    rw [wrapInt_of_range (by omega) (by omega), hrun]
    by_cases hclosed : csiClosed s = true
    · rw [if_pos hclosed]
      refine ⟨fun _ => ⟨hclosed, hlen⟩, fun _ => ⟨_, rfl, rfl, List.prefix_append _ _, rfl, ?_, ?_⟩⟩
      · rw [← hps.length_eq, List.take_left]
        exact hps.ascending
      · rw [← hps.length_eq, List.take_left]
        exact (hps.append [nul]).letters
    · rw [if_neg hclosed]
      refine ⟨fun ⟨r, hr, _⟩ => ?_, fun h => absurd h.1 hclosed⟩
      cases hr
  · refine ⟨fun ⟨r, hr, hspec⟩ => ?_, fun h => absurd h.2 hlen⟩
    exfalso
    have hrange := wrapInt_range s.length
    by_cases htop : wrapInt s.length = 2147483647
    · rw [htop, ansiFilterOf, if_pos rfl] at hr
      cases hr
    · rcases ansiFilterOf_short hr (by simp; omega) with hcount | hout
      · have hpos := hspec.count
        omega
      · rw [hspec.out] at hout
        exact Nat.lt_irrefl _ hout

theorem rStrAnsiFilter_iff_red :
    ∃ r, rStrAnsiFilter ("\x1b[31mred\x1b[0m".toList ++ [nul]) 0 = some r ∧
      AnsiFiltered "\x1b[31mred\x1b[0m".toList r :=
  (rStrAnsiFilter_iff _ (by decide) (by decide)).mpr ⟨by decide +kernel, by decide⟩

theorem open_csi_overruns :
    ¬ ∀ s : CStr, nul ∉ s → s ≠ [] → ∃ r, rStrAnsiFilter (s ++ [nul]) 0 = some r ∧ AnsiFiltered s r := by
  intro h
  obtain ⟨r, hr, -⟩ := h [esc, '['] (by decide) (by decide)
  have hrun : rStrAnsiFilter ([esc, '['] ++ [nul]) 0 = none := by decide
  rw [hrun] at hr
  cases hr

end Radare
