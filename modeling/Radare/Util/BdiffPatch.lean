import Radare.Util.BdiffMatch

namespace Radare

open Framework

def lineText (l : List Line) (i : Nat) : Option (List Ut8) := l[i]?.map Line.text

theorem Equated.classAt_iff {a b : List Line} {al bl : List Link} (h : Equated a b al bl) {i j : Nat}
    (hi : i < a.length) (hj : j < b.length) :
    classAt al i = classAt bl j ↔ lineText a i = lineText b j := by
  have hx : a[i]? = some a[i] := List.getElem?_eq_getElem hi
  have hy : b[j]? = some b[j] := List.getElem?_eq_getElem hj
  have hsame := h.same i j a[i] b[j] hx hy
  rw [sameClass, decide_eq_true_iff] at hsame
  rw [lineText, lineText, hx, hy, Option.map_some, Option.map_some, Option.some_inj]
  exact hsame

/-- A hunk of lines with the same bytes. -/
structure BlockAt (a b : List Line) (h : Hunk) : Prop where
  order : h.a1 ≤ h.a2
  size : h.b2 + h.a1 = h.a2 + h.b1
  endA : h.a2 ≤ a.length
  endB : h.b2 ≤ b.length
  same : ∀ d, h.a1 + d < h.a2 → lineText a (h.a1 + d) = lineText b (h.b1 + d)

/-- The hunks are blocks in order, up to the ends of both files. -/
def Patch (a b : List Line) : Nat → Nat → List Hunk → Prop
  | la, lb, [] => la = a.length ∧ lb = b.length
  | la, lb, h :: rest => la ≤ h.a1 ∧ lb ≤ h.b1 ∧ BlockAt a b h ∧ Patch a b h.a2 h.b2 rest

/-- The hunk `y` comes behind `x`, and `x` cannot be pushed over the end of it. -/
structure TextFollows (a b : List Line) (x y : Hunk) : Prop where
  orderA : x.a2 ≤ y.a1
  orderB : x.b2 ≤ y.b1
  stops : x.a2 = y.a1 ∨ x.b2 = y.b1 →
    ∃ d, y.a1 + d < y.a2 ∧ lineText a (x.a2 + d) ≠ lineText b (x.b2 + d)

section

variable {a b : List Line} (ha : ∀ x ∈ a, x.h = textHash x.text) (hb : ∀ y ∈ b, y.h = textHash y.text)

include ha hb

/-- A hunk is pushed over equal lines. -/
theorem shiftOf_same (curr next : Hunk) {d : Nat} (hd : d < shiftOf a b curr next) :
    curr.a2 + d < a.length ∧ curr.b2 + d < b.length ∧
      lineText a (curr.a2 + d) = lineText b (curr.b2 + d) := by
  have htouch : curr.a2 = next.a1 ∨ curr.b2 = next.b1 := by
    by_contra hno
    rw [shiftOf, if_neg hno] at hd
    exact Nat.not_lt_zero d hd
  rw [shiftOf, if_pos htouch] at hd
  have hd' := (countWhile_spec _ a.length 0 (by rw [List.getElem?_eq_none (by omega)])).2.1 d (Nat.zero_le d) hd
  cases hx : a[curr.a2 + d]? with
  | none =>
    rw [hx] at hd'
    cases hd'
  | some x =>
    cases hy : b[curr.b2 + d]? with
    | none =>
      rw [hx, hy] at hd'
      cases hd'
    | some y =>
      rw [hx, hy] at hd'
      have hcmp : cmp x y = false := by simpa using hd'
      rw [cmp_eq_false (ha x (List.mem_of_getElem? hx)) (hb y (List.mem_of_getElem? hy))] at hcmp
      refine ⟨(List.getElem?_eq_some_iff.mp hx).1, (List.getElem?_eq_some_iff.mp hy).1, ?_⟩
      rw [lineText, lineText, hx, hy, Option.map_some, Option.map_some, hcmp]

theorem shiftOf_le (curr next : Hunk) {d : Nat}
    (hd : lineText a (curr.a2 + d) ≠ lineText b (curr.b2 + d)) : shiftOf a b curr next ≤ d := by
  by_contra hlt
  exact hd (shiftOf_same ha hb curr next (by omega)).2.2

theorem shiftOf_end (curr next : Hunk) (hnext : next.a1 = a.length ∧ next.b1 = b.length) :
    shiftOf a b curr next = 0 := by
  by_contra hne
  have hpos : 0 < shiftOf a b curr next := Nat.pos_of_ne_zero hne
  have hin := shiftOf_same ha hb curr next hpos
  rw [shiftOf] at hpos
  split_ifs at hpos with htouch
  · omega
  · exact absurd hpos (Nat.lt_irrefl 0)

/-- Normalizing keeps the hunks blocks in order. -/
theorem normalize_patch {hunks : List Hunk} {curr : Hunk} {la lb : Nat} (hla : la ≤ curr.a1)
    (hlb : lb ≤ curr.b1) (hcurr : BlockAt a b curr) (hblocks : ∀ h ∈ hunks, BlockAt a b h)
    (hfirst : ∀ y ∈ hunks.head?, TextFollows a b curr y) (hchain : hunks.IsChain (TextFollows a b)) :
    Patch a b la lb
      (normalize a b curr (hunks ++ [⟨a.length, a.length, b.length, b.length⟩])) := by
  induction hunks generalizing curr la lb with
  | nil =>
    have hend : shiftOf a b curr ⟨a.length, a.length, b.length, b.length⟩ = 0 :=
      shiftOf_end ha hb curr _ ⟨rfl, rfl⟩
    rw [List.nil_append, normalize, normalize, hend]
    refine ⟨hla, hlb, hcurr, hcurr.endA, hcurr.endB, ⟨Nat.le_refl _, ?_, Nat.le_refl _, Nat.le_refl _, ?_⟩,
      rfl, rfl⟩
    · exact Nat.add_comm _ _
    · intro d hd
      change a.length + 0 + d < a.length at hd
      omega
  | cons next rest ih =>
    have hnext := hblocks next List.mem_cons_self
    have hfollow := hfirst next rfl
    have hoA := hfollow.orderA
    have hoB := hfollow.orderB
    have hsizeC := hcurr.size
    have hordC := hcurr.order
    have hsizeN := hnext.size
    have hordN := hnext.order
    have hendA := hnext.endA
    have hendB := hnext.endB
    rw [List.cons_append, normalize]
    have hshift : next.a1 + shiftOf a b curr next ≤ next.a2 := by
      by_cases htouch : curr.a2 = next.a1 ∨ curr.b2 = next.b1
      · obtain ⟨d, hd, hne⟩ := hfollow.stops htouch
        have hle := shiftOf_le ha hb curr next hne
        omega
      · rw [shiftOf, if_neg htouch]
        omega
    have hover : ∀ {d}, d < shiftOf a b curr next → lineText a (curr.a2 + d) = lineText b (curr.b2 + d) :=
      fun hd => (shiftOf_same ha hb curr next hd).2.2
    generalize shiftOf a b curr next = s at hshift hover
    refine ⟨hla, hlb, ⟨?_, ?_, ?_, ?_, ?_⟩, ?_⟩
    · show curr.a1 ≤ curr.a2 + s
      omega
    · show curr.b2 + s + curr.a1 = curr.a2 + s + curr.b1
      omega
    · show curr.a2 + s ≤ a.length
      omega
    · show curr.b2 + s ≤ b.length
      omega
    · intro d hd
      change curr.a1 + d < curr.a2 + s at hd
      by_cases hlow : curr.a1 + d < curr.a2
      · exact hcurr.same d hlow
      · have hs := @hover (curr.a1 + d - curr.a2) (by omega)
        rwa [show curr.a2 + (curr.a1 + d - curr.a2) = curr.a1 + d by omega,
          show curr.b2 + (curr.a1 + d - curr.a2) = curr.b1 + d by omega] at hs
    · obtain ⟨hhead, hrest⟩ := List.isChain_cons.mp hchain
      apply ih
      · show curr.a2 + s ≤ next.a1 + s
        omega
      · show curr.b2 + s ≤ next.b1 + s
        omega
      · refine ⟨hshift, ?_, hendA, hendB, ?_⟩
        · show next.b2 + (next.a1 + s) = next.a2 + (next.b1 + s)
          omega
        · intro d hd
          have hs := hnext.same (s + d) (by
            change next.a1 + s + d < next.a2 at hd
            omega)
          rwa [← Nat.add_assoc, ← Nat.add_assoc] at hs
      · exact fun h hh => hblocks h (List.mem_cons_of_mem _ hh)
      · intro y hy
        have hf := hhead y hy
        exact ⟨hf.orderA, hf.orderB, hf.stops⟩
      · exact hrest

end

theorem linesBefore_succ {l : List Line} {i : Nat} {text : List Ut8} (h : lineText l i = some text) :
    linesBefore l (i + 1) = linesBefore l i ++ text := by
  obtain ⟨x, hx, rfl⟩ := Option.map_eq_some_iff.mp h
  rw [linesBefore, linesBefore, List.take_add_one, hx, List.map_append, List.flatten_append]
  simp

theorem linesBefore_le {l : List Line} {i j : Nat} (hij : i ≤ j) :
    ∃ mid, linesBefore l j = linesBefore l i ++ mid := by
  refine ⟨(((l.drop i).take (j - i)).map Line.text).flatten, ?_⟩
  obtain ⟨d, rfl⟩ := Nat.exists_eq_add_of_le hij
  rw [linesBefore, linesBefore, List.take_add, List.map_append, List.flatten_append,
    Nat.add_sub_cancel_left]

theorem LinesOf.linesBefore_prefix {a : List Ut8} {l : List Line} (h : LinesOf a l) (i : Nat) :
    ∃ tail, a = linesBefore l i ++ tail := by
  refine ⟨((l.drop i).map Line.text).flatten, ?_⟩
  rw [linesBefore, ← List.flatten_append, ← List.map_append, List.take_append_drop, h.whole]

theorem LinesOf.linesBefore_all {a : List Ut8} {l : List Line} (h : LinesOf a l) :
    linesBefore l l.length = a := by
  rw [linesBefore, List.take_length, h.whole]

/-- The two sides of a block have the same bytes. -/
theorem BlockAt.bytes {a b : List Line} {h : Hunk} (hh : BlockAt a b h) :
    ∃ mid, linesBefore a h.a2 = linesBefore a h.a1 ++ mid ∧
      linesBefore b h.b2 = linesBefore b h.b1 ++ mid := by
  have hsize := hh.size
  have hendA := hh.endA
  have hrun : ∀ n, h.a1 + n ≤ h.a2 → ∃ mid, linesBefore a (h.a1 + n) = linesBefore a h.a1 ++ mid ∧
      linesBefore b (h.b1 + n) = linesBefore b h.b1 ++ mid := by
    intro n hn
    induction n with
    | zero => exact ⟨[], (List.append_nil _).symm, (List.append_nil _).symm⟩
    | succ n ih =>
      obtain ⟨mid, hA, hB⟩ := ih (by omega)
      have hsame := hh.same n (by omega)
      have hlt : h.a1 + n < a.length := by omega
      have hx : lineText a (h.a1 + n) = some a[h.a1 + n].text := by
        rw [lineText, List.getElem?_eq_getElem hlt, Option.map_some]
      refine ⟨mid ++ a[h.a1 + n].text, ?_, ?_⟩
      · rw [← Nat.add_assoc, linesBefore_succ hx, hA, List.append_assoc]
      · rw [← Nat.add_assoc, linesBefore_succ (hsame ▸ hx), hB, List.append_assoc]
  have horder := hh.order
  have hall := hrun (h.a2 - h.a1) (by omega)
  rwa [show h.a1 + (h.a2 - h.a1) = h.a2 by omega,
    show h.b1 + (h.a2 - h.a1) = h.b2 by omega] at hall

theorem replay_op {sa sb out : List Ut8} {cur n m : Nat} {op : RDiffOp} {rest : List RDiffOp}
    (hcur : cur ≤ op.aOff) (hA : op.aLen = n) (hB : op.bLen = m) (hsa : op.aOff + n ≤ sa.length)
    (hsb : op.bBuf + m ≤ sb.length) (hrest : replay sa sb (op.aOff + n) rest = some out) :
    replay sa sb cur (op :: rest) =
      some ((sa.take op.aOff).drop cur ++ (sb.drop op.bBuf).take m ++ out) := by
  rw [replay, if_pos ⟨hcur, by omega, by omega, by omega, by omega⟩, hA, hB]
  simp only [Int.toNat_natCast, hrest, Option.bind_eq_bind, Option.bind_some]

/-- The operations from some line on, replayed at a cursor that is not behind it, copy what lies
before the line and add the rest of the other buffer. -/
theorem replay_deltaOps {sa sb : List Ut8} {al bl : List Line} (ha : LinesOf sa al)
    (hb : LinesOf sb bl) {hunks : List Hunk} {la lb cur : Nat} (hpatch : Patch al bl la lb hunks)
    (hcur : cur ≤ (linesBefore al la).length) :
    replay sa sb cur (deltaOps sa sb al bl la lb hunks) =
      some ((linesBefore al la).drop cur ++ sb.drop (linesBefore bl lb).length) := by
  induction hunks generalizing la lb cur with
  | nil =>
    obtain ⟨rfl, rfl⟩ := hpatch
    rw [deltaOps, replay, ha.linesBefore_all, hb.linesBefore_all, List.drop_length, List.append_nil]
  | cons h rest ih =>
    obtain ⟨hla, hlb, hblock, hrest⟩ := hpatch
    obtain ⟨mid, hA, hB⟩ := hblock.bytes
    obtain ⟨gapA, hgapA⟩ := linesBefore_le (l := al) hla
    obtain ⟨gapB, hgapB⟩ := linesBefore_le (l := bl) hlb
    obtain ⟨tailA, htailA⟩ := ha.linesBefore_prefix h.a2
    obtain ⟨tailB, htailB⟩ := hb.linesBefore_prefix h.b2
    have hbytes : mid ++ sb.drop (linesBefore bl h.b2).length = sb.drop (linesBefore bl h.b1).length := by
      rw [htailB, List.drop_left, hB, List.append_assoc, List.drop_left]
    rw [deltaOps]
    split_ifs with hop
    · have hlenA : (linesBefore al h.a1).length = (linesBefore al la).length + gapA.length := by
        rw [hgapA, List.length_append]
      have hlenB : (linesBefore bl h.b1).length = (linesBefore bl lb).length + gapB.length := by
        rw [hgapB, List.length_append]
      have hsa : (linesBefore al h.a1).length ≤ sa.length := by
        rw [htailA, hA]
        simp only [List.length_append]
        omega
      have hsb : (linesBefore bl h.b1).length ≤ sb.length := by
        rw [htailB, hB]
        simp only [List.length_append]
        omega
      have htake : sa.take (linesBefore al la).length = linesBefore al la := by
        rw [htailA, hA, hgapA, List.append_assoc, List.append_assoc, List.take_left]
      have hcur' : (linesBefore al h.a1).length ≤ (linesBefore al h.a2).length := by
        rw [hA, List.length_append]
        omega
      have hrun := ih hrest hcur'
      rw [hA, List.drop_left, hbytes, hlenA] at hrun
      simp only [ha.lineStart_eq, hb.lineStart_eq]
      refine Eq.trans (replay_op (n := gapA.length) (m := gapB.length) ?_ ?_ ?_ ?_ ?_ hrun) ?_
      · exact hcur
      · show (_ : Int) - _ = _
        omega
      · show (_ : Int) - _ = _
        omega
      · show (linesBefore al la).length + _ ≤ _
        omega
      · show (linesBefore bl lb).length + _ ≤ _
        omega
      · rw [htake, List.append_assoc, hlenB, ← List.drop_drop, List.take_append_drop]
    · have hlaeq : la = h.a1 := by omega
      have hlbeq : lb = h.b1 := by omega
      rw [← hlaeq] at hA
      rw [ih hrest (by rw [hA, List.length_append]; omega), hA,
        List.drop_append_of_le_length hcur, List.append_assoc, hbytes, hlbeq]

/-- Any patch made of blocks in order rebuilds the second buffer. -/
theorem replay_patch {sa sb : List Ut8} {al bl : List Line} (ha : LinesOf sa al) (hb : LinesOf sb bl)
    {hunks : List Hunk} (hpatch : Patch al bl 0 0 hunks) :
    replay sa sb 0 (deltaOps sa sb al bl 0 0 hunks) = some sb :=
  replay_deltaOps ha hb hpatch (Nat.zero_le _)

theorem diff_patch {a b : List Line} (hb29 : b.length + 1 ≤ 2 ^ 29)
    (ha : ∀ x ∈ a, x.h = textHash x.text) (hb : ∀ y ∈ b, y.h = textHash y.text) :
    ∃ hunks, diff a b = some hunks ∧ Patch a b 0 0 hunks := by
  obtain ⟨al, bl, heq, hequated⟩ := equatelines_equated hb29 ha hb
  obtain ⟨rare, hl⟩ := hequated.linksMeet
  have hpos : PosOk al bl rare (fun _ => ⟨some 0, 0⟩) := fun j hj => absurd rfl hj
  obtain ⟨hunks, pos, hrun, -, hin, hchain⟩ := recurse_hunks hl (a.length + 1) hpos
    (Nat.zero_le a.length) (Nat.zero_le b.length) (by omega)
  have hblock : ∀ h ∈ hunks, BlockAt a b h := by
    intro h hh
    have hi := hin h hh
    have hsome := hi.some
    have hsize := hi.size
    have hendA := hi.endA
    have hendB := hi.endB
    refine ⟨by omega, hsize, hendA, hendB, ?_⟩
    intro d hd
    exact (hequated.classAt_iff (by omega) (by omega)).mp (hi.same d hd)
  have hfollow : hunks.IsChain (TextFollows a b) := by
    apply hchain.imp_of_mem_imp
    intro x y hx hy hxy
    refine ⟨hxy.orderA, hxy.orderB, ?_⟩
    intro htouch
    obtain ⟨d, hd, hne⟩ := hxy.stops htouch
    have hoA := hxy.orderA
    have hoB := hxy.orderB
    have hsize := (hin y hy).size
    have hendA := (hin y hy).endA
    have hendB := (hin y hy).endB
    exact ⟨d, hd, fun hsame => hne ((hequated.classAt_iff (by omega) (by omega)).mpr hsame)⟩
  have hends : (BlockAt a b ⟨a.length, a.length, b.length, b.length⟩) := by
    refine ⟨Nat.le_refl _, Nat.add_comm _ _, Nat.le_refl _, Nat.le_refl _, ?_⟩
    intro d hd
    change a.length + d < a.length at hd
    omega
  simp only [diff, heq, Option.bind_eq_bind, Option.bind_some, hrun]
  cases hunks with
  | nil => exact ⟨_, rfl, Nat.zero_le _, Nat.zero_le _, hends, rfl, rfl⟩
  | cons curr rest =>
    obtain ⟨hhead, hrest⟩ := List.isChain_cons.mp hfollow
    exact ⟨_, rfl, normalize_patch ha hb (Nat.zero_le _) (Nat.zero_le _)
      (hblock curr List.mem_cons_self) (fun h hh => hblock h (List.mem_cons_of_mem _ hh)) hhead hrest⟩

/-- With 2^29 lines the search for the class of the last one leaves the table. -/
theorem equatelines_large (a : List Line) {b : List Line} (hb : 2 ^ 29 < b.length + 1) :
    equatelines a b = none := by
  rw [equatelines]
  rcases tableSize_large hb with hnone | hzero
  · rw [hnone]
    rfl
  · obtain ⟨n, hn⟩ := Nat.exists_eq_add_of_le' (show 1 ≤ b.length by omega)
    have hlast : b[n]? = some b[n] := List.getElem?_eq_getElem (by omega)
    have hchain : chainLines 0 b (n + 1) (fun _ => ⟨none, 0⟩) [] = none := by
      rw [chainLines, hlast]
      rfl
    rw [hzero, hn]
    simp only [Option.bind_eq_bind, Option.bind_some, hchain, Option.bind_none]

/-- The operations are a patch as long as the second buffer has less than 2^29 lines. -/
theorem delta_is_patch_iff {sa sb : List Ut8} {al bl : List Line} (ha : splitlines sa = some al)
    (hb : splitlines sb = some bl) :
    (∃ ops, rDiffBuffersDelta sa sb = some ops ∧ replay sa sb 0 ops = some sb) ↔
      bl.length + 1 ≤ 2 ^ 29 := by
  have hsa := splitlines_linesOf ha
  have hsb := splitlines_linesOf hb
  have hcall : rDiffBuffersDelta sa sb = deltaOfLines sa sb (some al) (some bl) := by
    rw [rDiffBuffersDelta, ha, hb]
  constructor
  · rintro ⟨ops, hops, -⟩
    by_contra hlarge
    have hnone := equatelines_large al (Nat.lt_of_not_le hlarge)
    rw [hcall, deltaOfLines, diff, hnone] at hops
    cases hops
  · intro hsmall
    obtain ⟨hunks, hdiff, hpatch⟩ := diff_patch hsmall hsa.hash hsb.hash
    refine ⟨deltaOps sa sb al bl 0 0 hunks, ?_, replay_patch hsa hsb hpatch⟩
    rw [hcall, deltaOfLines, hdiff]
    rfl

theorem delta_is_patch_iff_three_lines :
    ∃ ops, rDiffBuffersDelta [97, 10, 98, 10] [97, 10, 97, 10, 99] = some ops ∧
      replay [97, 10, 98, 10] [97, 10, 97, 10, 99] 0 ops = some [97, 10, 97, 10, 99] := by
  have ha : splitlines [97, 10, 98, 10] = some (splitLoop 0 0 [] [97, 10, 98, 10]) := by decide
  have hb : splitlines [97, 10, 97, 10, 99] = some (splitLoop 0 0 [] [97, 10, 97, 10, 99]) := by decide
  apply (delta_is_patch_iff ha hb).mpr
  decide

theorem splitLoop_newlines (h : Ut32) (b n : Nat) (text : List Ut8) :
    (splitLoop h b text (List.replicate n 10)).length = n := by
  induction n generalizing h b text with
  | zero => rfl
  | succ n ih => rw [List.replicate_succ, splitLoop, if_pos (.inl rfl), List.length_cons, ih]

/-- For 2^29 newlines the hash table is a block of no bytes. -/
theorem delta_reads_past_table : ¬ ∀ sa sb : List Ut8, sa.length < 2 ^ 31 → sb.length < 2 ^ 31 →
    (splitlines sa).isSome = true → (splitlines sb).isSome = true →
    ∃ ops, rDiffBuffersDelta sa sb = some ops ∧ replay sa sb 0 ops = some sb := by
  intro hall
  have hlen := splitLoop_newlines 0 0 536870912 []
  have hlines : splitlines (List.replicate 536870912 10) =
      some (splitLoop 0 0 [] (List.replicate 536870912 10)) := by
    rw [splitlines]
    generalize splitLoop 0 0 [] (List.replicate 536870912 10) = lines at hlen
    rw [if_neg]
    rw [hlen, wrapInt_of_range (by norm_num) (by norm_num)]
    norm_num
  obtain ⟨ops, hops, -⟩ := hall [] (List.replicate 536870912 10) (by decide) (by
    rw [List.length_replicate]
    norm_num) (by decide) (by rw [hlines]; rfl)
  have hnone := equatelines_large [] (b := splitLoop 0 0 [] (List.replicate 536870912 10)) (by
    rw [hlen]
    norm_num)
  have hsa : splitlines [] = some [] := by decide
  rw [rDiffBuffersDelta, hsa, hlines, deltaOfLines, diff, hnone] at hops
  cases hops

end Radare
