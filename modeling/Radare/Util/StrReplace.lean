import Mathlib.Tactic.Ring
import Radare.Framework.Occurrences
import Radare.Util.MemMem
import Radare.Util.StrBuf
import Radare.Util.StrEscape

namespace Radare

open Framework Framework.TextBuffer

/-- `realloc` to `n` bytes; what comes new holds `junk`. -/
def reallocBytes (junk : Nat → Ut8) (p : EscText) (n : Nat) : EscText :=
  p.take n ++ ((List.range n).map junk).drop p.length

/-- `strdup` of the text at a place. -/
def strdupAt (mem : EscText) (i : Nat) : Option EscText :=
  (strlenAt 0 mem i).map (fun _ => textAt 0 mem i)

/-- The part of the loop that puts `val` for the key at `off`; it leaves `str` and `slen`. -/
def replaceAt (junk : Nat → Ut8) (val : EscText) (klen vlen : Int) (str : EscText) (slen off : Int) :
    Option (EscText × Int) := do
  let scnd ← strdupAt str (off + klen).toNat
  let slen ← intSum (slen + (vlen - klen))
  let size ← intSum (slen + klen + 1)
  let str ← copyAt (reallocBytes junk str size.toNat) off.toNat val
  let str ← copyAt str (off + vlen).toNat (scnd ++ [0])
  some (str, slen)

/-- The loop of `r_str_replace`; each `realloc` has junk of its own. -/
def replaceLoop (junk : Nat → Nat → Ut8) (key val : EscText) (klen vlen : Int) (g : Bool) :
    Nat → EscText → Int → Int → Option EscText
  | 0, _, _, _ => none
  | turns + 1, str, slen, i =>
    if i < slen then do
      let p ← rMemMem (slen.toNat + 1) (window str i.toNat (slen - i).toNat) (slen - i) key klen
      match p with
      | none => some str
      | some p => do
        let (str, slen) ← replaceAt (junk turns) val klen vlen str slen (i + p)
        if g then replaceLoop junk key val klen vlen g turns str slen (i + p + vlen) else some str
    else some str

/-- `r_str_replace` on the memory of a text, for a key and a value whose lengths an `int` holds. -/
def rStrReplace (junk : Nat → Nat → Ut8) (str key val : EscText) (g : Bool) : Option EscText := do
  let klen ← intSum key.length
  let vlen ← intSum val.length
  if klen = vlen ∧ key = val then some str
  else do
    let len ← strlenAt 0 str 0
    let slen ← intSum len
    replaceLoop junk key val klen vlen g (len + 1) str slen 0

/-- The text with `val` for the `klen` bytes at each place; the places count from `n`. -/
def replacePlaces (klen : Nat) (val : EscText) : Nat → List Nat → EscText → EscText
  | _, [], s => s
  | n, p :: ps, s => s.take (p - n) ++ (val ++ replacePlaces klen val (p + klen) ps (s.drop (p - n + klen)))

theorem replacePlaces_cons (klen : Nat) (val : EscText) (n p : Nat) (ps : List Nat) (s : EscText) :
    replacePlaces klen val n (p :: ps) s =
      s.take (p - n) ++ (val ++ replacePlaces klen val (p + klen) ps (s.drop (p - n + klen))) := rfl

/-- The occurrences of the key that are replaced: all that do not overlap, from the left, or the first. -/
def replacedPlaces (key : EscText) (g : Bool) (n : Nat) (s : EscText) : List Nat :=
  if g then leftmost key n 0 s else (leftmost key n 0 s).take 1

/-- The length of the block that the round number `k` wants. -/
def roundSize (key val : EscText) (slen : Nat) (k : Nat) : Int :=
  slen + k * ((val.length : Int) - key.length) + key.length + 1

def RoundsFit (key val : EscText) (slen rounds : Nat) : Prop :=
  ∀ k, 1 ≤ k → k ≤ rounds → roundSize key val slen k ≤ 2147483647

section Round

variable {key val done rest : EscText} {g : Bool} {n : Nat}

theorem roundSize_next (slen slen' k : Nat) (h : (slen' : Int) = slen + ((val.length : Int) - key.length)) :
    roundSize key val slen' k = roundSize key val slen (k + 1) := by
  unfold roundSize
  rw [h]
  push_cast
  ring

theorem RoundsFit.succ_iff (slen slen' rounds : Nat) (h : (slen' : Int) = slen + ((val.length : Int) - key.length)) :
    RoundsFit key val slen (rounds + 1) ↔
      roundSize key val slen 1 ≤ 2147483647 ∧ RoundsFit key val slen' rounds := by
  constructor
  · intro hfit
    refine ⟨hfit 1 (Nat.le_refl 1) (by omega), ?_⟩
    intro k hk hle
    rw [roundSize_next slen slen' k h]
    exact hfit (k + 1) (by omega) (by omega)
  · rintro ⟨hone, hfit⟩ k hk hle
    obtain ⟨k, rfl⟩ := Nat.exists_eq_succ_of_ne_zero (Nat.ne_of_gt hk)
    rcases Nat.eq_zero_or_pos k with rfl | hpos
    · exact hone
    · rw [← roundSize_next slen slen' k h]
      exact hfit k hpos (by omega)

/-- What `r_mem_mem` answers on the rest of the text: the first occurrence of the key, or none. -/
theorem rMemMem_rest (hne : key ≠ []) (hkey : key.length ≤ 2147483647) (rest : EscText)
    (hrest : rest.length ≤ 2147483647) (fuel : Nat) (hfuel : rest.length < fuel) (n : Nat) :
    (rMemMem fuel rest rest.length key key.length = some none ∧ leftmost key n 0 rest = []) ∨
      ∃ a b, rest = a ++ (key ++ b) ∧ rMemMem fuel rest rest.length key key.length = some (some (a.length : Int)) ∧
        leftmost key n 0 rest = (n + a.length) :: leftmost key (n + a.length + key.length) 0 b := by
  have hpos := List.length_pos_of_ne_nil hne
  obtain ⟨res, hrun, hspec⟩ := @memMemAligned_run rest key 1 (by omega) hpos
    (by omega) (Nat.le_refl 1)
  rw [rMemMem_eq_aligned, show (1 : Int) = ((1 : Nat) : Int) from rfl, hrun fuel hfuel]
  have hend : alignedEnd rest key 1 = rest.length + 1 - key.length := by
    rw [alignedEnd, Nat.mod_one, Nat.sub_zero]
  have hhit : ∀ {k}, key <+: rest.drop k → HitAt rest key 1 k := by
    intro k hk
    have hlen := hk.length_le
    rw [List.length_drop] at hlen
    exact ⟨Nat.one_dvd k, by omega, (List.prefix_iff_eq_take.mp hk).symm⟩
  rcases hspec with ⟨j, rfl, hj, hit, hfirst⟩ | ⟨rfl, hfree⟩
  · right
    have hin := hit.inside
    have hdrop : rest.drop j = key ++ rest.drop (j + key.length) := by
      rw [← List.drop_drop]
      exact (List.prefix_iff_eq_append.mp (List.prefix_iff_eq_take.mpr hit.same.symm)).symm
    have hsplit : rest = rest.take j ++ (key ++ rest.drop (j + key.length)) := by
      rw [← hdrop, List.take_append_drop]
    have hlen : (rest.take j).length = j := List.length_take_of_le (by omega)
    refine ⟨rest.take j, rest.drop (j + key.length), hsplit, by rw [hlen], ?_⟩
    rw [hlen, leftmost_dead key n rest (d := j) (by omega) (fun q hq hocc => hfirst q hq (hhit hocc)), hdrop,
      leftmost_hit key hne]
  · left
    refine ⟨rfl, ?_⟩
    rw [List.eq_nil_iff_forall_not_mem]
    intro q hq
    have hocc := (mem_leftmost key hq).2
    have hin := (hhit hocc).inside
    exact hfree (q - n) (by omega) (hhit hocc)

theorem length_reallocBytes (junk : Nat → Ut8) (p : EscText) (n : Nat) : (reallocBytes junk p n).length = n := by
  simp only [reallocBytes, List.length_append, List.length_take, List.length_drop, List.length_map, List.length_range]
  omega

/-- A block keeps what it begins with. -/
theorem take_reallocBytes (junk : Nat → Ut8) (front rest : EscText) {n : Nat} (h : front.length ≤ n) :
    (reallocBytes junk (front ++ rest) n).take front.length = front := by
  rw [reallocBytes, List.take_append_of_le_length (by rw [List.length_take, List.length_append]; omega),
    List.take_take, Nat.min_eq_left h, List.take_left]

/-- The copies of a round: the value and the old rest go behind what stays. -/
theorem copies_round (junk : Nat → Ut8) (front old val b : EscText) {n : Nat}
    (h : front.length + val.length + b.length + 1 ≤ n) :
    ∃ after, (copyAt (reallocBytes junk (front ++ old) n) front.length val).bind
        (fun str => copyAt str (front.length + val.length) (b ++ [0])) =
      some (front ++ (val ++ b) ++ 0 :: after) := by
  have hlen := length_reallocBytes junk (front ++ old) n
  have htake := take_reallocBytes junk front old (show front.length ≤ n by omega)
  refine ⟨((reallocBytes junk (front ++ old) n).drop (front.length + val.length)).drop (b.length + 1), ?_⟩
  rw [copyAt, if_pos (by omega), Option.bind_some, htake, copyAt, if_pos]
  · have hbehind : (b ++ [(0 : Ut8)]).length = b.length + 1 := by simp
    rw [← List.length_append, List.take_left, hbehind, ← List.drop_drop, List.drop_left]
    simp
  · simp only [List.length_append, List.length_drop, hlen, List.length_singleton]
    omega

/-- The key between `front` and `b` is replaced where an `int` counts the new block. -/
theorem replaceAt_fits (junk : Nat → Ut8) (front after : EscText) {b : EscText} (hb : (0 : Ut8) ∉ b)
    (hfit : roundSize key val (front ++ (key ++ b)).length 1 ≤ 2147483647) :
    ∃ after', replaceAt junk val key.length val.length (front ++ (key ++ b) ++ 0 :: after) (front ++ (key ++ b)).length
        front.length = some (front ++ val ++ b ++ 0 :: after', ((front ++ val ++ b).length : Int)) := by
  unfold roundSize at hfit
  obtain ⟨after', hcopies⟩ := copies_round junk front (key ++ b ++ 0 :: after) val b
    (n := front.length + val.length + b.length + key.length + 1) (by omega)
  obtain ⟨str, hvalue, hrest⟩ := Option.bind_eq_some_iff.mp hcopies
  refine ⟨after', ?_⟩
  have hdup : strdupAt (front ++ (key ++ b) ++ 0 :: after) ((front.length : Int) + key.length).toNat = some b := by
    have hsplit : front ++ (key ++ b) ++ 0 :: after = (front ++ key) ++ (b ++ 0 :: after) := by simp
    rw [← Int.natCast_add, Int.toNat_natCast, ← List.length_append, hsplit, strdupAt, strlenAt_eq hb, textAt_eq hb,
      Option.map_some]
  simp only [List.length_append] at hfit
  have hslen : intSum ((front ++ (key ++ b)).length + ((val.length : Int) - key.length)) =
      some ((front ++ val ++ b).length : Int) := by
    simp only [List.length_append]
    rw [intSum, if_pos (by omega)]
    congr 1
    omega
  have hsize : intSum ((front ++ val ++ b).length + (key.length : Int) + 1) =
      some ((front.length + val.length + b.length + key.length + 1 : Nat) : Int) := by
    simp only [List.length_append]
    rw [intSum, if_pos (by omega)]
    push_cast
    rw [Int.add_assoc]
  have hold : front ++ (key ++ b) ++ 0 :: after = front ++ (key ++ b ++ 0 :: after) := List.append_assoc _ _ _
  have hsum : ((front.length : Int) + val.length).toNat = front.length + val.length := by omega
  rw [replaceAt, hdup, Option.bind_eq_bind, Option.bind_some, hslen, Option.bind_eq_bind, Option.bind_some, hsize,
    Option.bind_some, Int.toNat_natCast, Int.toNat_natCast, hold, hvalue, Option.bind_some, hsum, hrest,
    Option.bind_some, List.append_assoc front val b]

theorem replaceAt_overflow (junk : Nat → Ut8) (front b after : EscText)
    (hover : 2147483647 < roundSize key val (front ++ (key ++ b)).length 1) :
    replaceAt junk val key.length val.length (front ++ (key ++ b) ++ 0 :: after) (front ++ (key ++ b)).length
      front.length = none := by
  unfold roundSize at hover
  simp only [replaceAt, Option.bind_eq_bind, Option.bind_eq_none_iff]
  intro scnd _ slen hslen size hsize
  rw [intSum] at hslen hsize
  split_ifs at hslen
  split_ifs at hsize
  rw [Option.some.injEq] at hslen
  omega

/-- The rest of the text as `r_mem_mem` gets it. -/
theorem window_rest (done rest after : EscText) :
    window (done ++ rest ++ 0 :: after) (done.length : Int).toNat (((done ++ rest).length : Int) - done.length).toNat =
        rest ∧ ((done ++ rest).length : Int) - done.length = rest.length := by
  have hlen : ((done ++ rest).length : Int) - done.length = rest.length := by
    rw [List.length_append]
    omega
  refine ⟨?_, hlen⟩
  rw [hlen, Int.toNat_natCast, Int.toNat_natCast, window, List.append_assoc, List.drop_left, List.take_left]

end Round

section Loop

variable {key done rest : EscText}

theorem replaceLoop_none (junk : Nat → Nat → Ut8) (val after : EscText) (g : Bool) (turns : Nat)
    (h : rMemMem ((done ++ rest).length + 1) rest rest.length key key.length = some none) :
    replaceLoop junk key val key.length val.length g (turns + 1) (done ++ rest ++ 0 :: after) (done ++ rest).length
      done.length = some (done ++ rest ++ 0 :: after) := by
  obtain ⟨hwindow, hlen⟩ := window_rest done rest after
  rw [replaceLoop, hwindow, hlen, Int.toNat_natCast, h]
  exact ite_self _

theorem replaceLoop_found (junk : Nat → Nat → Ut8) (val after : EscText) (g : Bool) (turns : Nat) {a b : EscText} (hne : key ≠ [])
    (hrest : rest = a ++ (key ++ b))
    (h : rMemMem ((done ++ rest).length + 1) rest rest.length key key.length = some (some (a.length : Int))) :
    replaceLoop junk key val key.length val.length g (turns + 1) (done ++ rest ++ 0 :: after) (done ++ rest).length
      done.length =
      (replaceAt (junk turns) val key.length val.length ((done ++ a) ++ (key ++ b) ++ 0 :: after)
        ((done ++ a) ++ (key ++ b)).length (done ++ a).length).bind fun r =>
        if g then replaceLoop junk key val key.length val.length g turns r.1 r.2 (done ++ a ++ val).length
        else some r.1 := by
  have hpos := List.length_pos_of_ne_nil hne
  obtain ⟨hwindow, hlen⟩ := window_rest done rest after
  have hlt : (done.length : Int) < (done ++ rest).length := by
    rw [hrest]
    simp only [List.length_append]
    omega
  have hoff : (done.length : Int) + a.length = ((done ++ a).length : Int) := by
    rw [List.length_append]
    omega
  have hnext : ((done ++ a).length : Int) + val.length = ((done ++ a ++ val).length : Int) := by
    simp only [List.length_append]
    omega
  have hsplit : done ++ rest = (done ++ a) ++ (key ++ b) := by rw [hrest, List.append_assoc]
  rw [replaceLoop, if_pos hlt, hwindow, hlen, Int.toNat_natCast, h, Option.bind_eq_bind, Option.bind_some]
  dsimp only
  rw [hoff, hnext, hsplit]
  rfl

/-- The loop on the rest of a text: it ends with the occurrences replaced exactly if an `int` counts the blocks of its
rounds. -/
theorem replaceLoop_eq (junk : Nat → Nat → Ut8) (val : EscText) (g : Bool) (hne : key ≠ [])
    (hkey : key.length ≤ 2147483647) (turns : Nat) (done rest after : EscText) (n : Nat) (hrest : (0 : Ut8) ∉ rest)
    (hslen : (done ++ rest).length ≤ 2147483647) (hturns : rest.length < turns) :
    (RoundsFit key val (done ++ rest).length (replacedPlaces key g n rest).length →
        ∃ after', replaceLoop junk key val key.length val.length g turns (done ++ rest ++ 0 :: after)
          (done ++ rest).length done.length =
        some (done ++ replacePlaces key.length val n (replacedPlaces key g n rest) rest ++ 0 :: after')) ∧
      (¬RoundsFit key val (done ++ rest).length (replacedPlaces key g n rest).length →
        replaceLoop junk key val key.length val.length g turns (done ++ rest ++ 0 :: after)
          (done ++ rest).length done.length = none) := by
  induction turns generalizing done rest after n with
  | zero => exact absurd hturns (Nat.not_lt_zero _)
  | succ turns ih =>
    have hlen := @List.length_append _ done rest
    rcases rMemMem_rest hne hkey rest (by omega) ((done ++ rest).length + 1) (by omega) n with
      ⟨hmem, hnone⟩ | ⟨a, b, hsplit, hmem, hplaces⟩
    · have hno : replacedPlaces key g n rest = [] := by
        rw [replacedPlaces, hnone]
        exact ite_self _
      rw [hno, replaceLoop_none junk val after g turns hmem]
      exact ⟨fun _ => ⟨after, rfl⟩, fun hfit => absurd (fun k hk hle => by simp at hle; omega) hfit⟩
    · have hb : (0 : Ut8) ∉ b := by
        rw [hsplit] at hrest
        exact fun h => hrest (List.mem_append_right _ (List.mem_append_right _ h))
      have hsame : done ++ rest = (done ++ a) ++ (key ++ b) := by rw [hsplit, List.append_assoc]
      have hnew : ((done ++ a ++ val ++ b).length : Int) =
          (done ++ rest).length + ((val.length : Int) - key.length) := by
        rw [hsame]
        simp only [List.length_append]
        omega
      have hpos := List.length_pos_of_ne_nil hne
      have hshort : b.length < turns := by
        rw [hsplit] at hturns
        simp only [List.length_append] at hturns
        omega
      have hfound := replaceLoop_found junk val after g turns hne hsplit hmem
      have hcut : ∀ ps, replacePlaces key.length val n ((n + a.length) :: ps) rest =
          a ++ (val ++ replacePlaces key.length val (n + a.length + key.length) ps b) := by
        intro ps
        rw [replacePlaces_cons, Nat.add_sub_cancel_left, hsplit, List.take_left, ← List.drop_drop, List.drop_left,
          List.drop_left]
      have hsucc : ∀ rounds, RoundsFit key val (done ++ rest).length (rounds + 1) ↔
          roundSize key val (done ++ rest).length 1 ≤ 2147483647 ∧ RoundsFit key val (done ++ a ++ val ++ b).length rounds :=
        fun rounds => RoundsFit.succ_iff _ _ rounds hnew
      have hnone : 2147483647 < roundSize key val (done ++ rest).length 1 →
          replaceLoop junk key val key.length val.length g (turns + 1) (done ++ rest ++ 0 :: after) (done ++ rest).length
            done.length = none := by
        intro hover
        rw [hsame] at hover
        rw [hfound, replaceAt_overflow (junk turns) (done ++ a) b after hover, Option.bind_none]
      have hstep : roundSize key val (done ++ rest).length 1 ≤ 2147483647 → ∃ after',
          replaceLoop junk key val key.length val.length g (turns + 1) (done ++ rest ++ 0 :: after) (done ++ rest).length
            done.length =
          if g then replaceLoop junk key val key.length val.length g turns (done ++ a ++ val ++ b ++ 0 :: after')
            (done ++ a ++ val ++ b).length (done ++ a ++ val).length
          else some (done ++ a ++ val ++ b ++ 0 :: after') := by
        intro hfit
        rw [hsame] at hfit
        obtain ⟨after', hrun⟩ := replaceAt_fits (junk turns) (done ++ a) after hb hfit
        exact ⟨after', by rw [hfound, hrun, Option.bind_some]⟩
      cases g with
      | false =>
        have hone : replacedPlaces key false n rest = [n + a.length] := by
          rw [replacedPlaces, if_neg Bool.false_ne_true, hplaces]
          rfl
        have hzero : RoundsFit key val (done ++ a ++ val ++ b).length 0 := fun k hk hle => by omega
        rw [hone, hcut, List.length_singleton, hsucc, and_iff_left hzero]
        constructor
        · intro hfit
          obtain ⟨after', hrun⟩ := hstep hfit
          exact ⟨after', by rw [hrun, if_neg Bool.false_ne_true, replacePlaces]; simp⟩
        · intro hfit
          exact hnone (Int.not_le.mp hfit)
      | true =>
        have hmore : replacedPlaces key true n rest =
            (n + a.length) :: replacedPlaces key true (n + a.length + key.length) b := hplaces
        rw [hmore, hcut, List.length_cons, hsucc]
        constructor
        · rintro ⟨hfit, hrounds⟩
          obtain ⟨after', hrun⟩ := hstep hfit
          have hsize : (done ++ a ++ val ++ b).length ≤ 2147483647 := by
            unfold roundSize at hfit
            omega
          obtain ⟨after'', hlater⟩ :=
            (ih (done ++ a ++ val) b after' (n + a.length + key.length) hb hsize hshort).1 hrounds
          exact ⟨after'', by rw [hrun, if_pos rfl, hlater]; simp⟩
        · intro hfit
          by_cases hone : roundSize key val (done ++ rest).length 1 ≤ 2147483647
          · obtain ⟨after', hrun⟩ := hstep hone
            have hsize : (done ++ a ++ val ++ b).length ≤ 2147483647 := by
              unfold roundSize at hone
              omega
            rw [hrun, if_pos rfl]
            exact (ih (done ++ a ++ val) b after' (n + a.length + key.length) hb hsize hshort).2
              (fun h => hfit ⟨hone, h⟩)
          · exact hnone (Int.not_le.mp hone)

end Loop

/-- The text that `r_str_replace` is there to return. -/
def replacedText (key val : EscText) (g : Bool) (s : EscText) : EscText :=
  replacePlaces key.length val 0 (replacedPlaces key g 0 s) s

/-- The lengths are those of an `int`, and so are the blocks that the rounds want. -/
def ReplaceFits (s key val : EscText) (g : Bool) : Prop :=
  key.length ≤ 2147483647 ∧ val.length ≤ 2147483647 ∧
    (key = val ∨ s.length ≤ 2147483647 ∧ RoundsFit key val s.length (replacedPlaces key g 0 s).length)

/-- The first occurrence of a text that has one. -/
theorem leftmost_split {key : EscText} (hne : key ≠ []) (n : Nat) (s : EscText) :
    leftmost key n 0 s = [] ∨ ∃ a b, s = a ++ (key ++ b) ∧
      leftmost key n 0 s = (n + a.length) :: leftmost key (n + a.length + key.length) 0 b := by
  induction s generalizing n with
  | nil => exact Or.inl rfl
  | cons c s ih =>
    by_cases hhere : key <+: c :: s
    · right
      obtain ⟨b, hb⟩ := hhere
      refine ⟨[], b, hb.symm, ?_⟩
      rw [← hb, leftmost_hit key hne]
      rfl
    · rw [leftmost_cons, if_neg hhere]
      rcases ih (n + 1) with hnone | ⟨a, b, hs, hplaces⟩
      · exact Or.inl hnone
      · refine Or.inr ⟨c :: a, b, by rw [hs]; rfl, ?_⟩
        rw [hplaces, List.length_cons, show n + (a.length + 1) = n + 1 + a.length by omega]

/-- A key that is replaced by itself leaves the text. -/
theorem replacePlaces_self {key : EscText} (hne : key ≠ []) (g : Bool) (n : Nat) (s : EscText) :
    replacePlaces key.length key n (replacedPlaces key g n s) s = s := by
  obtain ⟨d, hd⟩ : ∃ d, s.length = d := ⟨_, rfl⟩
  induction d using Nat.strong_induction_on generalizing n s with
  | _ d ih =>
    have hpos := List.length_pos_of_ne_nil hne
    rcases leftmost_split hne n s with hnone | ⟨a, b, rfl, hplaces⟩
    · rw [replacedPlaces, hnone, List.take_nil, ite_self, replacePlaces]
    · obtain ⟨ps, hps, hrest⟩ : ∃ ps, replacedPlaces key g n (a ++ (key ++ b)) = (n + a.length) :: ps ∧
          replacePlaces key.length key (n + a.length + key.length) ps b = b := by
        cases g with
        | false =>
          refine ⟨[], ?_, rfl⟩
          rw [replacedPlaces, if_neg Bool.false_ne_true, hplaces]
          rfl
        | true =>
          exact ⟨_, hplaces, ih b.length (by rw [← hd]; simp; omega) _ b rfl⟩
      rw [hps, replacePlaces_cons, Nat.add_sub_cancel_left, List.take_left, ← List.drop_drop, List.drop_left,
        List.drop_left, hrest]

theorem mem_replacePlaces {klen n : Nat} {val s : EscText} {ps : List Nat} {c : Ut8}
    (h : c ∈ replacePlaces klen val n ps s) : c ∈ val ∨ c ∈ s := by
  induction ps generalizing n s with
  | nil => exact Or.inr h
  | cons p ps ih =>
    rw [replacePlaces_cons, List.mem_append, List.mem_append] at h
    rcases h with h | h | h
    · exact Or.inr (List.mem_of_mem_take h)
    · exact Or.inl h
    · rcases ih h with h | h
      · exact Or.inl h
      · exact Or.inr (List.mem_of_mem_drop h)

theorem rStrReplace_loop (junk : Nat → Nat → Ut8) {s key val : EscText} (after : EscText) (g : Bool) (hs : (0 : Ut8) ∉ s)
    (hklen : key.length ≤ 2147483647) (hvlen : val.length ≤ 2147483647) (heq : key ≠ val) :
    rStrReplace junk (s ++ 0 :: after) key val g =
      (intSum s.length).bind fun slen =>
        replaceLoop junk key val key.length val.length g (s.length + 1) (s ++ 0 :: after) slen 0 := by
  rw [rStrReplace, intSum_of_le hklen, intSum_of_le hvlen, Option.bind_eq_bind, Option.bind_some, Option.bind_eq_bind,
    Option.bind_some, if_neg (fun h => heq h.2), strlenAt_start hs, Option.bind_some]

/-- A round that is too long ends the call. -/
theorem rStrReplace_overflow (junk : Nat → Nat → Ut8) {s key val : EscText} (after : EscText) (g : Bool)
    (hs : (0 : Ut8) ∉ s) (hne : key ≠ []) (hklen : key.length ≤ 2147483647) (hvlen : val.length ≤ 2147483647)
    (hslen : s.length ≤ 2147483647) (heq : key ≠ val)
    (hover : ¬RoundsFit key val s.length (replacedPlaces key g 0 s).length) :
    rStrReplace junk (s ++ 0 :: after) key val g = none := by
  rw [rStrReplace_loop junk after g hs hklen hvlen heq, intSum_of_le hslen, Option.bind_some]
  exact (replaceLoop_eq junk val g hne hklen (s.length + 1) [] s after 0 hs hslen (Nat.lt_succ_self _)).2 hover

/-- `r_str_replace` returns the text with the occurrences replaced, and stays in its blocks, exactly where an `int` holds
the lengths and the sizes of the blocks. -/
theorem rStrReplace_iff (junk : Nat → Nat → Ut8) (s key val after : EscText) (g : Bool) (hs : (0 : Ut8) ∉ s)
    (hval : (0 : Ut8) ∉ val) (hne : key ≠ []) :
    (∃ after', rStrReplace junk (s ++ 0 :: after) key val g = some (replacedText key val g s ++ 0 :: after') ∧
      (0 : Ut8) ∉ replacedText key val g s) ↔ ReplaceFits s key val g := by
  have hclean : (0 : Ut8) ∉ replacedText key val g s := by
    intro h
    rcases mem_replacePlaces h with h | h
    · exact hval h
    · exact hs h
  have hnone : rStrReplace junk (s ++ 0 :: after) key val g = none →
      ¬∃ after', rStrReplace junk (s ++ 0 :: after) key val g = some (replacedText key val g s ++ 0 :: after') ∧
        (0 : Ut8) ∉ replacedText key val g s := by
    rintro h ⟨after', hrun, -⟩
    rw [h] at hrun
    cases hrun
  unfold ReplaceFits
  by_cases hklen : key.length ≤ 2147483647
  · by_cases hvlen : val.length ≤ 2147483647
    · rw [and_iff_right hklen, and_iff_right hvlen]
      by_cases heq : key = val
      · refine iff_of_true ⟨after, ?_, hclean⟩ (Or.inl heq)
        rw [rStrReplace, intSum_of_le hklen, intSum_of_le hvlen, Option.bind_eq_bind, Option.bind_some,
          Option.bind_eq_bind, Option.bind_some, if_pos ⟨by rw [heq], heq⟩, replacedText, ← heq, replacePlaces_self hne]
      · rw [or_iff_right heq]
        by_cases hslen : s.length ≤ 2147483647
        · rw [and_iff_right hslen]
          constructor
          · intro hrun
            by_contra hover
            exact hnone (rStrReplace_overflow junk after g hs hne hklen hvlen hslen heq hover) hrun
          · intro hrounds
            obtain ⟨after', hrun⟩ := (replaceLoop_eq junk val g hne hklen (s.length + 1) [] s after 0 hs hslen
              (Nat.lt_succ_self _)).1 hrounds
            refine ⟨after', ?_, hclean⟩
            rw [rStrReplace_loop junk after g hs hklen hvlen heq, intSum_of_le hslen, Option.bind_some]
            exact hrun
        · refine iff_of_false (hnone ?_) (fun h => hslen h.1)
          rw [rStrReplace_loop junk after g hs hklen hvlen heq, intSum_of_lt (Nat.lt_of_not_le hslen), Option.bind_none]
    · refine iff_of_false (hnone ?_) (fun h => hvlen h.2.1)
      rw [rStrReplace, intSum_of_le hklen, intSum_of_lt (Nat.lt_of_not_le hvlen)]
      rfl
  · refine iff_of_false (hnone ?_) (fun h => hklen h.1)
    rw [rStrReplace, intSum_of_lt (Nat.lt_of_not_le hklen)]
    rfl

/-- Every "ab" of "xabab" becomes "bab". -/
theorem rStrReplace_iff_longer :
    ∃ after', rStrReplace (fun _ _ => 0) ("xabab".toList.map byteOf ++ 0 :: []) ("ab".toList.map byteOf)
        ("bab".toList.map byteOf) true = some (replacedText ("ab".toList.map byteOf) ("bab".toList.map byteOf) true
          ("xabab".toList.map byteOf) ++ 0 :: after') ∧
      (0 : Ut8) ∉ replacedText ("ab".toList.map byteOf) ("bab".toList.map byteOf) true ("xabab".toList.map byteOf) := by
  have hplaces : (replacedPlaces ("ab".toList.map byteOf) true 0 ("xabab".toList.map byteOf)).length = 2 := by decide
  have hrounds : RoundsFit ("ab".toList.map byteOf) ("bab".toList.map byteOf) 5 2 := by
    intro k hk hle
    simp only [roundSize, List.length_map]
    simp
    omega
  refine (rStrReplace_iff (fun _ _ => 0) _ _ _ [] true (by decide) (by decide) (by decide)).mpr
    ⟨by decide, by decide, Or.inr ⟨by decide, ?_⟩⟩
  rw [hplaces]
  exact hrounds

/-- A text as long as an `int` counts, of which one byte is cut. -/
theorem rStrReplace_longest :
    (0 : Ut8) ∉ List.replicate 2147483647 (byteOf 'a') ∧
      rStrReplace (fun _ _ => 0) (List.replicate 2147483647 (byteOf 'a') ++ [0]) [byteOf 'a'] [] false = none := by
  obtain ⟨s, hs⟩ : ∃ s, s = List.replicate 2147483647 (byteOf 'a') := ⟨_, rfl⟩
  have hlen : s.length = 2147483647 := by rw [hs, List.length_replicate]
  have hclean : (0 : Ut8) ∉ s := by
    rw [hs]
    exact fun h => absurd (List.eq_of_mem_replicate h) (by decide)
  have hfirst : [byteOf 'a'] <+: s.drop 0 := by
    rw [hs, List.drop_zero]
    exact ⟨List.replicate 2147483646 (byteOf 'a'), List.replicate_succ.symm⟩
  have hplaces := List.length_pos_of_ne_nil (leftmost_ne_nil [byteOf 'a'] (by decide) 0 hfirst)
  rw [← hs]
  refine ⟨hclean, rStrReplace_overflow _ [] false hclean (by decide) (by decide) (by decide) (by omega) (by decide) ?_⟩
  intro hfit
  have hround := hfit 1 (Nat.le_refl 1) (by rw [replacedPlaces, if_neg Bool.false_ne_true, List.length_take]; omega)
  rw [roundSize, hlen] at hround
  revert hround
  decide

end Radare
