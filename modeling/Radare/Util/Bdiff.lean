import Mathlib.Logic.Function.Basic
import Radare.Framework.MachineInt
import Radare.Framework.Windows
import Mathlib.Tactic.IntervalCases
import Mathlib.Tactic.Linarith
import Radare.Framework.Probing

namespace Radare

/-- A line: its hash, where it starts and its bytes. -/
structure Line where
  h : Ut32
  l : Nat
  text : List Ut8
  deriving DecidableEq

/-- The hash, over bytes that are signed. -/
def lineHash (h : Ut32) (p : Ut8) : Ut32 := h * 1664525 + p.signExtend 32 + 1013904223

/-- The second loop of `splitlines`; `text` is what was read of the line at `b`. -/
def splitLoop (h : Ut32) (b : Nat) (text : List Ut8) : List Ut8 → List Line
  | [] => []
  | p :: rest =>
    if p = 10 ∨ rest = [] then
      ⟨lineHash h p, b, text ++ [p]⟩ :: splitLoop 0 (b + (text ++ [p]).length) [] rest
    else splitLoop (lineHash h p) b (text ++ [p]) rest

/-- `splitlines` without its sentinel; `none` when the line count is no `int` and `malloc` fails. -/
def splitlines (a : List Ut8) : Option (List Line) :=
  let lines := splitLoop 0 0 [] a
  if wrapInt (lines.length + 1) < 0 then none else some lines

/-- `a[i].l - a->l`, where the line behind the last is the sentinel. -/
def lineStart (a : List Ut8) (lines : List Line) (i : Nat) : Nat :=
  match lines[i]? with
  | some x => x.l
  | none => a.length

def cmp (x y : Line) : Bool := x.h ≠ y.h ∨ x.text.length ≠ y.text.length ∨ x.text ≠ y.text

/-- `struct pos`, with `none` for `INT_MAX`. -/
structure Pos where
  pos : Option Nat
  len : Nat

/-- `while (buckets < bn + 1) buckets *= 2`; from 2^30 lines on `buckets` is 0 after 33 rounds. -/
def growBuckets (bn : Nat) : Nat → Int → Option Int
  | 0, _ => none
  | fuel + 1, buckets =>
    if buckets < bn + 1 then growBuckets bn fuel (wrapInt (buckets * 2)) else some buckets

/-- The scale of the first table that `malloc` gives; a negative size is too large for it. -/
def allocTable (buckets : Int) : List Int → Option Int
  | [] => none
  | scale :: rest => if wrapInt (scale * buckets) < 0 then allocTable buckets rest else some scale

/-- How many entries the hash table has. -/
def tableSize (bn : Nat) : Option Nat := do
  let buckets ← growBuckets bn 33 1
  let scale ← allocTable buckets [4, 2, 1]
  some (wrapInt (buckets * scale)).toNat

/-- The loop that finds the equivalence class of a line; `none` when it leaves the table or goes
round in it. -/
def findClass (size : Nat) (b : List Line) (h : Nat → Pos) (x : Line) : Nat → Nat → Option Nat
  | 0, _ => none
  | fuel + 1, j =>
    if j < size then
      match (h j).pos with
      | none => some j
      | some p =>
        match b[p]? with
        | none => none
        | some y => if cmp x y then findClass size b h x fuel ((j + 1) &&& (size - 1)) else some j
    else none

/-- The fields `n` and `e` of a line, with `none` for `INT_MAX`. -/
structure Link where
  n : Option Nat
  e : Nat

def classOf (size : Nat) (b : List Line) (h : Nat → Pos) (x : Line) : Option Nat :=
  findClass size b h x size (x.h.toNat &&& (size - 1))

/-- The loop over the lines of `b`, from the last to the first. -/
def chainLines (size : Nat) (b : List Line) : Nat → (Nat → Pos) → List Link →
    Option ((Nat → Pos) × List Link)
  | 0, h, links => some (h, links)
  | i + 1, h, links => do
    let x ← b[i]?
    let j ← classOf size b h x
    chainLines size b i (Function.update h j ⟨some i, (h j).len + 1⟩) (⟨(h j).pos, j⟩ :: links)

/-- One round of the loop over the lines of `a`. -/
def matchLine (size : Nat) (b : List Line) (h : Nat → Pos) (t : Nat) (x : Line) : Option Link := do
  let j ← classOf size b h x
  some ⟨if (h j).len ≤ t then (h j).pos else none, j⟩

def equatelines (a b : List Line) : Option (List Link × List Link) := do
  let size ← tableSize b.length
  let (h, bl) ← chainLines size b b.length (fun _ => ⟨none, 0⟩) []
  let t := if b.length ≥ 4000 then b.length / 1000 else b.length + 1
  let al ← a.mapM (matchLine size b h t)
  some (al, bl)

/-- The lines of `b` that the fields `n` lead through. -/
def chain (b : List Link) : Nat → Option Nat → List Nat
  | _, none => []
  | 0, some _ => []
  | fuel + 1, some j => j :: chain b fuel (b[j]?.bind (·.n))

/-- The lines that match `a[i]`, less those before the current block and behind it. -/
def candidates (a b : List Link) (b1 b2 i : Nat) : List Nat :=
  ((chain b b.length (a[i]?.bind (·.n))).dropWhile (· < b1)).takeWhile (· < b2)

/-- What the loops of `longest_match` change. -/
structure MatchState where
  of ::
  pos : Nat → Pos
  mi : Nat
  mj : Nat
  mk : Nat

/-- One round of the inner loop: does this extend an earlier match, and is it the best so far? -/
def matchRound (a1 b1 i : Nat) (st : MatchState) (j : Nat) : MatchState :=
  let k := if i > a1 ∧ j > b1 ∧ (st.pos (j - 1)).pos = some (i - 1) then (st.pos (j - 1)).len + 1 else 1
  let pos := Function.update st.pos j ⟨some i, k⟩
  if k > st.mk then ⟨pos, i, j, k⟩ else { st with pos := pos }

/-- `while (p (k)) k++`, at most `fuel` times. -/
def countWhile (p : Nat → Bool) : Nat → Nat → Nat
  | 0, k => k
  | fuel + 1, k => if p k then countWhile p fuel (k + 1) else k

def sameClass (a b : List Link) (i j : Nat) : Bool := a[i]?.map (·.e) = b[j]?.map (·.e)

/-- `longest_match`: where the block starts in both, its length, and `pos`. -/
def longestMatch (a b : List Link) (pos : Nat → Pos) (a1 a2 b1 b2 : Nat) :
    Nat × Nat × Nat × (Nat → Pos) :=
  let st := (List.range' a1 (a2 - a1)).foldl
    (fun st i => (candidates a b b1 b2 i).foldl (matchRound a1 b1 i) st) ⟨pos, a1, b1, 0⟩
  let mi := if st.mk > 0 then st.mi + 1 - st.mk else st.mi
  let mj := if st.mk > 0 then st.mj + 1 - st.mk else st.mj
  let mb := countWhile (fun mb => mi - mb > a1 ∧ mj - mb > b1 ∧
    sameClass a b (mi - mb - 1) (mj - mb - 1)) mi 0
  let mk := countWhile (fun mk => mi + mk < a2 ∧ mj + mk < b2 ∧ sameClass a b (mi + mk) (mj + mk))
    a2 st.mk
  (mi - mb, mj - mb, mk + mb, st.pos)

structure Hunk where
  a1 : Nat
  a2 : Nat
  b1 : Nat
  b2 : Nat
  deriving DecidableEq

/-- `recurse`: the hunks it appends. A call on fewer lines of `a` each time, so `an + 1` is fuel
enough. -/
def recurse (a b : List Link) : Nat → (Nat → Pos) → (a1 a2 b1 b2 : Nat) →
    Option (List Hunk × (Nat → Pos))
  | 0, _, _, _, _, _ => none
  | fuel + 1, pos, a1, a2, b1, b2 =>
    match longestMatch a b pos a1 a2 b1 b2 with
    | (i, j, k, pos) =>
      if k = 0 then some ([], pos)
      else do
        let (left, pos) ← recurse a b fuel pos a1 i b1 j
        let (right, pos) ← recurse a b fuel pos (i + k) a2 (j + k) b2
        some (left ++ ⟨i, i + k, j, j + k⟩ :: right, pos)

/-- How far a hunk can be pushed towards the end. -/
def shiftOf (a b : List Line) (curr next : Hunk) : Nat :=
  if curr.a2 = next.a1 ∨ curr.b2 = next.b1 then
    countWhile (fun shift =>
      match a[curr.a2 + shift]?, b[curr.b2 + shift]? with
      | some x, some y => !cmp x y
      | _, _ => false) a.length 0
  else 0

/-- The loop that normalizes the hunk list, at `curr`. -/
def normalize (a b : List Line) (curr : Hunk) : List Hunk → List Hunk
  | [] => [curr]
  | next :: rest =>
    let shift := shiftOf a b curr next
    { curr with a2 := curr.a2 + shift, b2 := curr.b2 + shift } ::
      normalize a b { next with a1 := next.a1 + shift, b1 := next.b1 + shift } rest

def diff (a b : List Line) : Option (List Hunk) := do
  let (al, bl) ← equatelines a b
  let (hunks, _) ← recurse al bl (a.length + 1) (fun _ => ⟨some 0, 0⟩) 0 a.length 0 b.length
  match hunks ++ [⟨a.length, a.length, b.length, b.length⟩] with
  | [] => some []
  | curr :: rest => some (normalize a b curr rest)

/-- `RDiffOp`, with offsets for the pointers into the two buffers. -/
structure RDiffOp where
  aOff : Nat
  aBuf : Nat
  aLen : Int
  bOff : Nat
  bBuf : Nat
  bLen : Int

/-- The loop of `r_diff_buffers_delta` over the hunks, with a callback that is always true. -/
def deltaOps (sa sb : List Ut8) (al bl : List Line) : Nat → Nat → List Hunk → List RDiffOp
  | _, _, [] => []
  | la, lb, h :: rest =>
    let ops := deltaOps sa sb al bl h.a2 h.b2 rest
    if h.a1 ≠ la ∨ h.b1 ≠ lb then
      { aOff := lineStart sa al la
        aBuf := lineStart sa al la
        aLen := (lineStart sa al h.a1 : Int) - lineStart sa al la
        bOff := lineStart sa al la
        bBuf := lineStart sb bl lb
        bLen := (lineStart sb bl h.b1 : Int) - lineStart sb bl lb } :: ops
    else ops

/-- `r_diff_buffers_delta` behind its two calls of `splitlines`. -/
def deltaOfLines (sa sb : List Ut8) : Option (List Line) → Option (List Line) → Option (List RDiffOp)
  | some al, some bl => do
    let hunks ← diff al bl
    some (deltaOps sa sb al bl 0 0 hunks)
  | _, _ => some []

/-- `r_diff_buffers_delta`: what it passes to the callback. -/
def rDiffBuffersDelta (sa sb : List Ut8) : Option (List RDiffOp) :=
  deltaOfLines sa sb (splitlines sa) (splitlines sb)

/-- The operations replayed on `sa`: what lies between them is copied from the cursor on. -/
def replay (sa sb : List Ut8) : Nat → List RDiffOp → Option (List Ut8)
  | cur, [] => some (sa.drop cur)
  | cur, op :: rest =>
    if cur ≤ op.aOff ∧ 0 ≤ op.aLen ∧ op.aOff + op.aLen ≤ sa.length ∧ 0 ≤ op.bLen ∧
        op.bBuf + op.bLen ≤ sb.length then do
      let out ← replay sa sb (op.aOff + op.aLen.toNat) rest
      some ((sa.take op.aOff).drop cur ++ (sb.drop op.bBuf).take op.bLen.toNat ++ out)
    else none

end Radare

namespace Radare

open Framework

/-- The fields of `RDiff` that `r_diff_buffers_static` reads. -/
structure RDiff where
  offA : Ut64
  offB : Ut64

/-- The operation that `r_diff_buffers_static` hands to the callback at the index `i`. -/
def staticOp (d : RDiff) (i hit : Nat) : RDiffOp :=
  { aOff := (d.offA + BitVec.ofNat 64 i - BitVec.ofNat 64 hit).toNat, aBuf := i - hit, aLen := hit
    bOff := (d.offB + BitVec.ofNat 64 i - BitVec.ofNat 64 hit).toNat, bBuf := i - hit, bLen := hit }

/-- The loop, with the number of indices left first; `ops` is what the callback has got so far. -/
def staticLoop (d : RDiff) (a b : List Ut8) : Nat → Nat → Nat → List RDiffOp → Option (Nat × List RDiffOp)
  | 0, _, hit, ops => some (hit, ops)
  | left + 1, i, hit, ops => do
    let ai ← a[i]?
    let bi ← b[i]?
    if ai ≠ bi then staticLoop d a b left (i + 1) (hit + 1) ops
    else if hit > 0 then staticLoop d a b left (i + 1) 0 (ops ++ [staticOp d i hit])
    else staticLoop d a b left (i + 1) hit ops

/-- `r_diff_buffers_static`: what it hands to the callback, `none` when it reads outside a buffer. -/
def rDiffBuffersStatic (d : RDiff) (a : List Ut8) (la : Int) (b : List Ut8) (lb : Int) : Option (List RDiffOp) := do
  let la := rAbs la
  let lb := rAbs lb
  let len := if la ≠ lb then min la lb else la
  let (hit, ops) ← staticLoop d a b len.toNat 0 0 []
  some (if hit > 0 then ops ++ [staticOp d len.toNat hit] else ops)

/-- The operation for the run of `r.2` indices from `r.1` on. -/
def runOp (d : RDiff) (r : Nat × Nat) : RDiffOp :=
  ⟨(d.offA + BitVec.ofNat 64 r.1).toNat, r.1, r.2, (d.offB + BitVec.ofNat 64 r.1).toNat, r.1, r.2⟩

/-- The reported bytes of `b` in the place of the reported bytes of `a`. -/
def applyOp (b l : List Ut8) (op : RDiffOp) : List Ut8 := overwrite l op.aBuf (window b op.bBuf op.bLen.toNat)

theorem staticOp_eq (d : RDiff) {i hit : Nat} (h : hit ≤ i) : staticOp d i hit = runOp d (i - hit, hit) := by
  have hoff : ∀ off : Ut64, off + BitVec.ofNat 64 i - BitVec.ofNat 64 hit = off + BitVec.ofNat 64 (i - hit) := by
    intro off
    have hsplit : BitVec.ofNat 64 i = BitVec.ofNat 64 (i - hit) + BitVec.ofNat 64 hit := by
      rw [← BitVec.ofNat_add, Nat.sub_add_cancel h]
    rw [hsplit, ← BitVec.add_assoc, BitVec.add_sub_cancel]
  simp [staticOp, runOp, hoff]

/-- The bytes at an index differ. -/
def Differs (a b : List Ut8) (i : Nat) : Prop := a[i]? ≠ b[i]?

theorem closeRun_ops (d : RDiff) {i hit : Nat} {runs : List (Nat × Nat)} (h : hit ≤ i) :
    (closeRun i hit runs).map (runOp d) =
      if hit > 0 then runs.map (runOp d) ++ [staticOp d i hit] else runs.map (runOp d) := by
  rw [closeRun, staticOp_eq d h]
  split_ifs <;> simp

theorem staticLoop_runs (d : RDiff) {a b : List Ut8} {left i hit : Nat} {runs : List (Nat × Nat)}
    (h : RunsTo (Differs a b) i hit runs) (ha : i + left ≤ a.length) (hb : i + left ≤ b.length) :
    ∃ hit' runs', staticLoop d a b left i hit (runs.map (runOp d)) = some (hit', runs'.map (runOp d)) ∧
      RunsTo (Differs a b) (i + left) hit' runs' := by
  induction left generalizing i hit runs with
  | zero => exact ⟨hit, runs, rfl, h⟩
  | succ left ih =>
    have hai : a[i]? = some a[i] := List.getElem?_eq_getElem (by omega)
    have hbi : b[i]? = some b[i] := List.getElem?_eq_getElem (by omega)
    have hdiffers : Differs a b i ↔ a[i] ≠ b[i] := by simp [Differs, hai, hbi]
    have hnext : i + (left + 1) = i + 1 + left := by omega
    simp only [staticLoop, hai, hbi, Option.bind_eq_bind, Option.bind_some, hnext]
    by_cases hne : a[i] ≠ b[i]
    · rw [if_pos hne]
      exact ih (h.extend (hdiffers.mpr hne)) (by omega) (by omega)
    · have hmiss := h.miss (fun hd => hne (hdiffers.mp hd))
      have hrest := ih hmiss (by omega) (by omega)
      rw [closeRun_ops d h.le] at hrest
      rw [if_neg hne]
      by_cases hpos : hit > 0
      · rw [if_pos hpos] at hrest ⊢
        exact hrest
      · rw [if_neg hpos] at hrest ⊢
        rwa [show hit = 0 by omega]

theorem foldl_applyOp (d : RDiff) (b l : List Ut8) (runs : List (Nat × Nat)) :
    (runs.map (runOp d)).foldl (applyOp b) l = patchRuns b l runs := by
  rw [List.foldl_map, patchRuns]
  rfl

/-- Below the end of the shorter buffer the runs of different bytes are reported, each once and in order,
and their bytes of `b` turn the one buffer into the other. -/
theorem static_reports_runs (d : RDiff) (a b : List Ut8) :
    ∃ runs : List (Nat × Nat), rDiffBuffersStatic d a a.length b b.length = some (runs.map (runOp d)) ∧
      runs.Pairwise (fun r r' => r.1 < r'.1) ∧
      (∀ r, r ∈ runs ↔ MaximalRun (Differs a b) (min a.length b.length) r.1 r.2) ∧
      (runs.map (runOp d)).foldl (applyOp b) (a.take (min a.length b.length)) = b.take (min a.length b.length) := by
  have hlen : ∀ x y : Nat, (if rAbs x ≠ rAbs y then min (rAbs x) (rAbs y) else rAbs x).toNat = min x y := by
    intro x y
    have habs : ∀ z : Nat, rAbs z = z := fun z => if_neg (by omega)
    rw [habs, habs]
    split_ifs <;> omega
  generalize hn : min a.length b.length = n
  obtain ⟨hit, runs, hloop, hruns⟩ := staticLoop_runs d (RunsTo.start (Differs a b)) (by omega : 0 + n ≤ a.length)
    (by omega)
  rw [Nat.zero_add] at hruns
  refine ⟨closeRun n hit runs, ?_, hruns.sorted_closeRun, hruns.mem_closeRun_iff, ?_⟩
  · rw [closeRun_ops d hruns.le]
    simp only [rDiffBuffersStatic, hlen, hn]
    rw [show staticLoop d a b n 0 0 [] = _ from hloop]
    rfl
  · have hinside : ∀ r ∈ closeRun n hit runs, r.1 + r.2 ≤ (a.take n).length ∧ r.1 + r.2 ≤ b.length := by
      intro r hr
      have hin := ((hruns.mem_closeRun_iff r).mp hr).inside
      rw [List.length_take]
      omega
    rw [foldl_applyOp]
    apply List.ext_getElem?
    intro j
    rw [getElem?_patchRuns hinside, List.getElem?_take, List.getElem?_take]
    split_ifs with hcovered hj hj
    · rfl
    · obtain ⟨r, hr, hin⟩ := hcovered
      have hle := ((hruns.mem_closeRun_iff r).mp hr).inside
      omega
    · by_contra hne
      exact hcovered (hruns.covered_closeRun hj hne)
    · rfl

def textHash (text : List Ut8) : Ut32 := text.foldl lineHash 0

/-- The first bytes of a buffer, as many lines of them as `i`. -/
def linesBefore (lines : List Line) (i : Nat) : List Ut8 := ((lines.take i).map Line.text).flatten

/-- The lines of a buffer. -/
structure LinesOf (a : List Ut8) (lines : List Line) : Prop where
  whole : (lines.map Line.text).flatten = a
  start : ∀ i x, lines[i]? = some x → x.l = (linesBefore lines i).length
  hash : ∀ x ∈ lines, x.h = textHash x.text

theorem splitLoop_flatten (h : Ut32) (b : Nat) (text rest : List Ut8) :
    ((splitLoop h b text rest).map Line.text).flatten = if rest = [] then [] else text ++ rest := by
  induction rest generalizing h b text with
  | nil => rfl
  | cons p rest ih =>
    rw [if_neg (List.cons_ne_nil p rest), splitLoop]
    split_ifs with hend
    · rw [List.map_cons, List.flatten_cons, ih]
      split_ifs with hrest <;> simp [hrest]
    · have hrest : rest ≠ [] := fun hr => hend (.inr hr)
      rw [ih, if_neg hrest, List.append_assoc]
      rfl

theorem splitLoop_start (h : Ut32) (b : Nat) (text rest : List Ut8) (i : Nat) (x : Line)
    (hx : (splitLoop h b text rest)[i]? = some x) :
    x.l = b + (linesBefore (splitLoop h b text rest) i).length := by
  induction rest generalizing h b text i with
  | nil => cases hx
  | cons p rest ih =>
    rw [splitLoop] at hx ⊢
    split_ifs at hx ⊢ with hend
    · cases i with
      | zero =>
        obtain rfl := Option.some.inj hx
        rfl
      | succ i =>
        rw [List.getElem?_cons_succ] at hx
        rw [ih _ _ _ i hx, linesBefore, linesBefore, List.take_succ_cons, List.map_cons,
          List.flatten_cons, Nat.add_assoc, ← List.length_append]
    · exact ih _ _ _ i hx

theorem splitLoop_hash (b : Nat) (text rest : List Ut8) :
    ∀ x ∈ splitLoop (textHash text) b text rest, x.h = textHash x.text := by
  have hsnoc : ∀ (t : List Ut8) (p : Ut8), lineHash (textHash t) p = textHash (t ++ [p]) := by
    intro t p
    rw [textHash, textHash, List.foldl_append]
    rfl
  induction rest generalizing b text with
  | nil =>
    intro x hx
    cases hx
  | cons p rest ih =>
    intro x hx
    rw [splitLoop] at hx
    split_ifs at hx
    · rcases List.mem_cons.mp hx with rfl | hx
      · exact hsnoc text p
      · exact ih _ [] x hx
    · rw [hsnoc] at hx
      exact ih _ _ x hx

theorem splitlines_linesOf {a : List Ut8} {lines : List Line} (h : splitlines a = some lines) :
    LinesOf a lines := by
  rw [splitlines] at h
  split_ifs at h
  obtain rfl := Option.some.inj h
  refine ⟨?_, ?_, splitLoop_hash 0 [] a⟩
  · rw [splitLoop_flatten]
    split_ifs with ha
    · exact ha.symm
    · rfl
  · intro i x hx
    rw [splitLoop_start 0 0 [] a i x hx, Nat.zero_add]

theorem LinesOf.lineStart_eq {a : List Ut8} {lines : List Line} (h : LinesOf a lines) (i : Nat) :
    lineStart a lines i = (linesBefore lines i).length := by
  rw [lineStart]
  cases hx : lines[i]? with
  | some x => exact h.start i x hx
  | none =>
    dsimp only
    rw [linesBefore, List.take_of_length_le (List.getElem?_eq_none_iff.mp hx), h.whole]

/-- Lines compare equal when they have the same bytes. -/
theorem cmp_eq_false {x y : Line} (hx : x.h = textHash x.text) (hy : y.h = textHash y.text) :
    cmp x y = false ↔ x.text = y.text := by
  rw [cmp, decide_eq_false_iff_not]
  constructor
  · intro h
    by_contra hne
    exact h (.inr (.inr hne))
  · intro h
    rw [hx, hy, h]
    simp

section Buckets

theorem growBuckets_eq {bn : Nat} (fuel : Nat) {j : Nat} (hj : j ≤ 30) (hf : 31 ≤ j + fuel) (hb : bn + 1 ≤ 2 ^ 30)
    (hlow : j = 0 ∨ 2 ^ (j - 1) < bn + 1) :
    ∃ k ≤ 30, growBuckets bn fuel (2 ^ j) = some (2 ^ k) ∧ bn + 1 ≤ 2 ^ k ∧
      (k = 0 ∨ 2 ^ (k - 1) < bn + 1) := by
  induction fuel generalizing j with
  | zero => omega
  | succ fuel ih =>
    rw [growBuckets]
    have hcast : ((2 : Int) ^ j < bn + 1) ↔ 2 ^ j < bn + 1 := by
      exact_mod_cast Iff.rfl
    by_cases hlt : 2 ^ j < bn + 1
    · have hj30 : j < 30 := by
        by_contra hge
        have h30 : j = 30 := by omega
        rw [h30] at hlt
        omega
      have hle : (2 : Int) ^ (j + 1) ≤ 2 ^ 30 := pow_le_pow_right₀ (by decide) (by omega)
      have hpos : (0 : Int) < 2 ^ (j + 1) := by positivity
      rw [if_pos (hcast.mpr hlt), ← pow_succ, wrapInt_of_range (by omega) (by omega)]
      exact ih (by omega) (by omega) (.inr (by simpa using hlt))
    · rw [if_neg (fun h => hlt (hcast.mp h))]
      exact ⟨j, hj, rfl, by omega, hlow⟩

theorem growBuckets_stuck {bn : Nat} (hb : 2 ^ 30 < bn + 1) (fuel j : Nat) :
    growBuckets bn fuel (wrapInt (2 ^ j)) = none := by
  induction fuel generalizing j with
  | zero => rfl
  | succ fuel ih =>
    have hle : wrapInt (2 ^ j) ≤ 2 ^ 30 := by
      by_cases hj : j < 32
      · interval_cases j <;> decide
      · obtain ⟨d, rfl⟩ := Nat.exists_eq_add_of_le (Nat.le_of_not_lt hj)
        have hmul : (2 : Int) ^ (32 + d) = 4294967296 * 2 ^ d := by
          rw [pow_add]
          norm_num
        rw [wrapInt, hmul]
        omega
    have hnext : wrapInt (wrapInt (2 ^ j) * 2) = wrapInt (2 ^ (j + 1)) := by
      rw [pow_succ]
      generalize (2 : Int) ^ j = x
      unfold wrapInt
      omega
    have hcast : wrapInt (2 ^ j) < bn + 1 := by
      have : (2 : Int) ^ 30 < bn + 1 := by exact_mod_cast hb
      omega
    rw [growBuckets, if_pos hcast, hnext]
    exact ih (j + 1)

/-- Up to 2^29 - 1 lines the table is a power of two, larger than the number of lines. -/
theorem tableSize_eq {bn : Nat} (hb : bn + 1 ≤ 2 ^ 29) :
    ∃ k, tableSize bn = some (2 ^ k) ∧ bn < 2 ^ k := by
  obtain ⟨k, hk, hgrow, hbn, hlow⟩ := growBuckets_eq 33 (j := 0) (by omega) (by omega)
    (show bn + 1 ≤ 2 ^ 30 by omega) (.inl rfl)
  have hk29 : k ≤ 29 := by
    by_contra hgt
    have h30 : k = 30 := by omega
    rw [h30] at hlow
    omega
  rw [pow_zero] at hgrow
  rw [tableSize, hgrow]
  by_cases h28 : k ≤ 28
  · refine ⟨k + 2, ?_, ?_⟩
    · interval_cases k <;> rfl
    · have hpow : 2 ^ k ≤ 2 ^ (k + 2) := Nat.pow_le_pow_right (by decide) (by omega)
      omega
  · have h29 : k = 29 := by omega
    subst h29
    exact ⟨30, rfl, by omega⟩

/-- From 2^29 lines on the table has no entry, and from 2^30 on the loop does not end. -/
theorem tableSize_large {bn : Nat} (hb : 2 ^ 29 < bn + 1) :
    tableSize bn = none ∨ tableSize bn = some 0 := by
  by_cases h30 : bn + 1 ≤ 2 ^ 30
  · right
    obtain ⟨k, hk, hgrow, hbn, hlow⟩ := growBuckets_eq 33 (j := 0) (by omega) (by omega) h30
      (.inl rfl)
    have hk30 : k = 30 := by
      by_contra hne
      have hpow : 2 ^ k ≤ 2 ^ 29 := Nat.pow_le_pow_right (by decide) (by omega)
      omega
    subst hk30
    rw [pow_zero] at hgrow
    rw [tableSize, hgrow]
    rfl
  · left
    have hstuck := growBuckets_stuck (Nat.lt_of_not_le h30) 33 0
    have hone : wrapInt (2 ^ 0) = 1 := by decide
    rw [hone] at hstuck
    rw [tableSize, hstuck]
    rfl

end Buckets

end Radare
