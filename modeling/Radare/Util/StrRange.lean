import Radare.Framework.TextBuffer
import Radare.Util.Glob

namespace Radare

open Framework.TextBuffer

/-- `atoi`: an `int` from what `strtol` gives. -/
def atoi (s : CStr) : Int := wrapInt (strtoll s).toInt

/-- `for (; from <= to; from++)`, the calls of the callback; `from` is an `int`. -/
def foreachRange : Nat → Int → Int → Option (List Int)
  | 0, _, _ => none
  | turns + 1, from_, to_ =>
    if from_ ≤ to_ then
      if from_ = 2147483647 then none
      else (foreachRange turns (from_ + 1) to_).map (from_ :: ·)
    else some []

/-- `for (r++; *r && *r != ',' && *r != '-'; r++)` behind its `r++`. -/
def skipItem (mem : CStr) : Nat → Nat → Option Nat
  | 0, _ => none
  | turns + 1, r => do
    let c ← mem[r]?
    if c ≠ nul ∧ c ≠ ',' ∧ c ≠ '-' then skipItem mem turns (r + 1) else some r

/-- The loop of `r_str_range_foreach`; what it leaves are `p` and the calls so far. -/
def rangeLoop (mem : CStr) : Nat → Nat → Nat → List Int → Option (Nat × List Int)
  | 0, _, _, _ => none
  | turns + 1, r, p, calls => do
    let c ← mem[r]?
    if c = nul then some (p, calls)
    else if c = ',' then rangeLoop mem turns (r + 1) (r + 1) (calls ++ [atoi (mem.drop p)])
    else if c = '-' then do
      let more ← if p ≠ r then foreachRange 4294967296 (atoi (mem.drop p)) (atoi (mem.drop (r + 1))) else some []
      let r ← skipItem mem mem.length (r + 1)
      rangeLoop mem turns (r + 1) r (calls ++ more)
    else rangeLoop mem turns (r + 1) p calls

/-- `if (*p)` behind the loop. -/
def lastCall (mem : CStr) (p : Nat) (calls : List Int) : Option (List Int) := do
  let c ← mem[p]?
  if c ≠ nul then some (calls ++ [atoi (mem.drop p)]) else some calls

/-- `r_str_range_foreach`, the calls of the callback. -/
def rStrRangeForeach (mem : CStr) : Option (List Int) := do
  let (p, calls) ← rangeLoop mem mem.length 0 0 []
  lastCall mem p calls

/-- An item of a list, its numbers as they are written. -/
inductive RangeItem where
  | num (n : CStr)
  | range (a b : CStr)
  deriving DecidableEq

/-- The number that is written. -/
def decimal (s : CStr) : Nat := s.foldl (fun n c => n * 10 + (c.toNat - 48)) 0

def IsDecimal (s : CStr) : Prop := s ≠ [] ∧ ∀ c ∈ s, '0' ≤ c ∧ c ≤ '9'

instance (s : CStr) : Decidable (IsDecimal s) := inferInstanceAs (Decidable (_ ∧ _))

def RangeItem.Written : RangeItem → Prop
  | .num n => IsDecimal n
  | .range a b => IsDecimal a ∧ IsDecimal b

def RangeItem.text : RangeItem → CStr
  | .num n => n
  | .range a b => a ++ '-' :: b

/-- The integers from `a` on, `n` of them. -/
def intsFrom (a : Int) (n : Nat) : List Int := (List.range n).map fun k : Nat => a + k

/-- The numbers that an item stands for. -/
def RangeItem.numbers : RangeItem → List Int
  | .num n => [(decimal n : Int)]
  | .range a b => intsFrom (decimal a) (decimal b + 1 - decimal a)

/-- What `atoi` makes of a number. -/
def intOf (n : Nat) : Int := wrapInt (min 9223372036854775807 (n : Int))

/-- What is read for the first number of an item, on its own or with a range before it. -/
def readAs (after : Bool) (n : Nat) : Int := if after then 0 else intOf n

@[simp] theorem readAs_true (n : Nat) : readAs true n = 0 := rfl

@[simp] theorem readAs_false (n : Nat) : readAs false n = intOf n := rfl

section Decimal

variable {s rest : CStr}

theorem digitValue_decimal {c : Char} (h : '0' ≤ c ∧ c ≤ '9') : digitValue c = some (c.toNat - 48) ∧ c.toNat - 48 < 10 := by
  have hle : c.toNat ≤ 57 := h.2
  exact ⟨if_pos h, by omega⟩

theorem scanDigits_decimal (hs : ∀ c ∈ s, '0' ≤ c ∧ c ≤ '9') (hrest : ∀ c, rest.head? = some c → digitValue c = none)
    (acc : Nat) : scanDigits 10 (s ++ rest) acc = (s.foldl (fun n c => n * 10 + (c.toNat - 48)) acc, rest) := by
  induction s generalizing acc with
  | nil =>
    cases rest with
    | nil => rfl
    | cons c rest => rw [List.nil_append, scanDigits, hrest c rfl]; rfl
  | cons c s ih =>
    obtain ⟨hc, hlt⟩ := digitValue_decimal (hs c List.mem_cons_self)
    rw [List.cons_append, scanDigits, hc]
    simp only [if_pos hlt, List.foldl_cons]
    exact ih (fun d hd => hs d (List.mem_cons_of_mem _ hd)) _

theorem scanHexPrefix_ten (s : CStr) : scanHexPrefix 10 s = s := by
  unfold scanHexPrefix
  split
  · exact if_neg fun h => absurd h.1 (by decide)
  · rfl

theorem toInt_saturated (n : Nat) : (BitVec.ofInt 64 (min (2 ^ 63 - 1) (n : Int))).toInt = min 9223372036854775807 (n : Int) := by
  have htop : (2 ^ 63 - 1 : Int) = 9223372036854775807 := by norm_num
  rw [htop, BitVec.toInt_ofInt]
  generalize hm : min 9223372036854775807 (n : Int) = m
  have hm0 : 0 ≤ m ∧ m ≤ 9223372036854775807 := by omega
  exact Int.bmod_eq_of_le (by norm_num; omega) (by norm_num; omega)

theorem atoi_decimal (hs : IsDecimal s) (hrest : ∀ c, rest.head? = some c → digitValue c = none) :
    atoi (s ++ rest) = intOf (decimal s) := by
  obtain ⟨c, t, rfl⟩ := List.exists_cons_of_ne_nil hs.1
  obtain ⟨hc, hlt⟩ := digitValue_decimal (hs.2 c List.mem_cons_self)
  have hblank : (c :: (t ++ rest)).dropWhile isSpace = c :: (t ++ rest) :=
    List.dropWhile_cons_of_neg (by simp [digit_not_space hc])
  have hstart : startsWithDigit 10 (c :: (t ++ rest)) = true := by
    simp only [startsWithDigit, hc]
    exact decide_eq_true hlt
  have hscan : scanInteger 10 (c :: (t ++ rest)) = some (false, decimal (c :: t), rest) := by
    have hdigits := scanDigits_decimal hs.2 hrest 0
    rw [List.cons_append] at hdigits
    rw [scanInteger, hblank]
    simp only [scanSign_digit hc, scanHexPrefix_ten, if_pos hstart, hdigits]
    rfl
  have hval : (strtoll (c :: (t ++ rest))).toInt = min 9223372036854775807 (decimal (c :: t) : Int) := by
    rw [strtoll, hscan]
    exact toInt_saturated (decimal (c :: t))
  rw [List.cons_append, atoi, hval, intOf]

/-- The comma in front of the number is no part of one. -/
theorem atoi_comma (s : CStr) : atoi (',' :: s) = 0 := by
  have hval : strtoll (',' :: s) = 0 := rfl
  rw [atoi, hval]
  decide

theorem intOf_small {n : Nat} (h : n ≤ 2147483647) : intOf n = n := by
  rw [intOf, min_eq_right (by omega), wrapInt_of_range (by omega) (by omega)]

theorem intOf_range (n : Nat) : -2147483648 ≤ intOf n ∧ intOf n ≤ 2147483647 := by
  have hrange := wrapInt_range (min 9223372036854775807 (n : Int))
  rw [intOf]
  omega

theorem readAs_range (after : Bool) (n : Nat) : -2147483648 ≤ readAs after n ∧ readAs after n ≤ 2147483647 := by
  cases after with
  | false => exact intOf_range n
  | true => exact ⟨by simp, by simp⟩

end Decimal

section Cursors

variable {mem pre s rest : CStr} {p : Nat} {calls : List Int}

theorem decimal_plain {c : Char} (h : '0' ≤ c ∧ c ≤ '9') : c ≠ nul ∧ c ≠ ',' ∧ c ≠ '-' := by
  refine ⟨?_, ?_, ?_⟩
  all_goals
    rintro rfl
    exact absurd h (by decide)

/-- The loop passes over digits. -/
theorem rangeLoop_digits (turns : Nat) (hmem : mem = pre ++ (s ++ rest)) (hs : ∀ c ∈ s, '0' ≤ c ∧ c ≤ '9') :
    rangeLoop mem (s.length + turns) pre.length p calls = rangeLoop mem turns (pre ++ s).length p calls := by
  induction s generalizing pre with
  | nil => rw [List.length_nil, Nat.zero_add, List.append_nil]
  | cons c s ih =>
    obtain ⟨hnul, hcomma, hdash⟩ := decimal_plain (hs c List.mem_cons_self)
    have hstep := @ih (pre ++ [c]) (by rw [hmem]; simp) fun d hd => hs d (List.mem_cons_of_mem _ hd)
    rw [List.append_cons, ← hstep, List.length_cons, Nat.add_right_comm, rangeLoop, hmem, List.cons_append, get_here]
    simp only [Option.bind_eq_bind, Option.bind_some, hnul, hcomma, hdash, if_false, List.length_append,
      List.length_singleton]

theorem skipItem_digits {turns : Nat} {c : Char} (hmem : mem = pre ++ (s ++ c :: rest)) (hs : ∀ c ∈ s, '0' ≤ c ∧ c ≤ '9')
    (hc : ¬ (c ≠ nul ∧ c ≠ ',' ∧ c ≠ '-')) (ht : s.length < turns) :
    skipItem mem turns pre.length = some (pre ++ s).length := by
  induction s generalizing pre turns with
  | nil =>
    obtain ⟨turns, rfl⟩ : ∃ t, turns = t + 1 := ⟨turns - 1, by omega⟩
    rw [skipItem, hmem, List.nil_append, get_here, List.append_nil]
    exact if_neg hc
  | cons d s ih =>
    obtain ⟨turns, rfl⟩ : ∃ t, turns = t + 1 := ⟨turns - 1, by omega⟩
    have hstep := @ih (pre ++ [d]) turns (by rw [hmem]; simp) (fun e he => hs e (List.mem_cons_of_mem _ he))
      (by simpa using ht)
    rw [List.append_cons, ← hstep, skipItem, hmem, List.cons_append, get_here]
    simp only [Option.bind_eq_bind, Option.bind_some, List.length_append, List.length_singleton]
    exact if_pos (decimal_plain (hs d List.mem_cons_self))

/-- Where `p` is when an item begins behind `pre`: on the comma before it if a range has gone before. -/
def Behind (after : Bool) (mem pre : CStr) (p : Nat) : Prop :=
  if after then p + 1 = pre.length ∧ mem[p]? = some ',' else p = pre.length

theorem Behind.le {after : Bool} (h : Behind after mem pre p) : p ≤ pre.length := by
  unfold Behind at h
  split_ifs at h
  · omega
  · omega

/-- The number that `atoi (p)` gives in front of an item. -/
theorem Behind.atoi {after : Bool} (h : Behind after mem pre p) (hmem : mem = pre ++ (s ++ rest)) (hs : IsDecimal s)
    (hrest : ∀ c, rest.head? = some c → digitValue c = none) :
    atoi (mem.drop p) = readAs after (decimal s) := by
  unfold Behind at h
  cases after with
  | true =>
    obtain ⟨hlt, hcomma⟩ := List.getElem?_eq_some_iff.mp h.2
    rw [List.drop_eq_getElem_cons hlt, hcomma, atoi_comma, readAs_true]
  | false =>
    have hplace : p = pre.length := h
    rw [hplace, hmem, List.drop_left, atoi_decimal hs hrest, readAs_false]

theorem Behind.not_end {after : Bool} (h : Behind after mem pre p) (hmem : mem = pre ++ (s ++ rest)) (hs : IsDecimal s) :
    ∃ c, mem[p]? = some c ∧ c ≠ nul := by
  unfold Behind at h
  split_ifs at h
  · exact ⟨',', h.2, by decide⟩
  · obtain ⟨c, t, rfl⟩ := List.exists_cons_of_ne_nil hs.1
    exact ⟨c, by rw [h, hmem, List.cons_append, get_here], (decimal_plain (hs.2 c List.mem_cons_self)).1⟩

/-- The calls for an item, on its own or with a range before it. -/
def itemCalls (after : Bool) : RangeItem → Option (List Int)
  | .num n => some [readAs after (decimal n)]
  | .range a b => foreachRange 4294967296 (readAs after (decimal a)) (intOf (decimal b))

def RangeItem.isRange : RangeItem → Bool
  | .num _ => false
  | .range _ _ => true

theorem rangeLoop_num {after : Bool} {n : CStr} (turns : Nat) (hmem : mem = pre ++ (n ++ ',' :: rest)) (hn : IsDecimal n)
    (hp : Behind after mem pre p) :
    rangeLoop mem (n.length + (turns + 1)) pre.length p calls =
      rangeLoop mem turns (pre ++ (n ++ [','])).length (pre ++ (n ++ [','])).length
        (calls ++ [readAs after (decimal n)]) := by
  have hcomma : mem[(pre ++ n).length]? = some ',' := by
    rw [hmem, ← List.append_assoc]
    exact get_here _ _ _
  have hatoi := hp.atoi hmem hn fun c hc => by cases hc; rfl
  have hplace : (pre ++ (n ++ [','])).length = (pre ++ n).length + 1 := by simp [Nat.add_assoc]
  rw [rangeLoop_digits _ hmem hn.2, rangeLoop, hcomma, hatoi, hplace]
  rfl

theorem rangeLoop_last {n : CStr} (turns : Nat) (hmem : mem = pre ++ (n ++ [nul])) (hn : IsDecimal n) :
    rangeLoop mem (n.length + (turns + 1)) pre.length p calls = some (p, calls) := by
  have hend : mem[(pre ++ n).length]? = some nul := by
    rw [hmem, ← List.append_assoc]
    exact get_here _ _ _
  rw [rangeLoop_digits _ hmem hn.2, rangeLoop, hend]
  rfl

theorem rangeLoop_range {after : Bool} {a b : CStr} {c : Char} (turns : Nat)
    (hmem : mem = pre ++ (a ++ '-' :: (b ++ c :: rest))) (ha : IsDecimal a) (hb : IsDecimal b) (hc : c = nul ∨ c = ',')
    (hp : Behind after mem pre p) :
    rangeLoop mem (a.length + (turns + 1)) pre.length p calls =
      (itemCalls after (.range a b)).bind fun more =>
        rangeLoop mem turns ((pre ++ (a ++ '-' :: b)).length + 1) (pre ++ (a ++ '-' :: b)).length (calls ++ more) := by
  have hdash : mem[(pre ++ a).length]? = some '-' := by
    rw [hmem, ← List.append_assoc]
    exact get_here _ _ _
  have hmem' : mem = pre ++ a ++ ['-'] ++ (b ++ c :: rest) := by rw [hmem]; simp
  have hplace : (pre ++ a).length + 1 = (pre ++ a ++ ['-']).length := by simp [Nat.add_assoc]
  have hfrom := hp.atoi hmem ha fun c hc => by cases hc; rfl
  have hto : atoi (mem.drop ((pre ++ a).length + 1)) = intOf (decimal b) := by
    rw [hplace, hmem', List.drop_left, atoi_decimal hb]
    intro d hd
    cases hd
    rcases hc with rfl | rfl <;> rfl
  have hskip := @skipItem_digits mem (pre ++ a ++ ['-']) b rest mem.length c hmem' hb.2
    (by rcases hc with rfl | rfl <;> simp) (by rw [hmem']; simp; omega)
  have hne : p ≠ (pre ++ a).length := by
    have hle := hp.le
    have hpos := List.length_pos_iff.mpr ha.1
    rw [List.length_append]
    omega
  rw [rangeLoop_digits _ hmem ha.2, rangeLoop, hdash]
  simp only [Option.bind_eq_bind, Option.bind_some]
  rw [if_neg (by decide), if_neg (by decide), if_pos trivial, if_pos hne, hfrom, hto]
  refine congrArg (Option.bind _) (funext fun more => ?_)
  rw [hplace, hskip]
  simp

/-- The calls for a list; a range in the last place leaves the text. -/
def listCalls (after : Bool) : List RangeItem → Option (List Int)
  | [] => some []
  | item :: items =>
    if items = [] ∧ item.isRange then none
    else do
      let calls ← itemCalls after item
      let more ← listCalls item.isRange items
      some (calls ++ more)

theorem listCalls_cons {after : Bool} {item : RangeItem} {items : List RangeItem} (h : items ≠ []) :
    listCalls after (item :: items) =
      (itemCalls after item).bind fun calls => (listCalls item.isRange items).bind fun more => some (calls ++ more) := by
  rw [listCalls, if_neg fun hlast => h hlast.1]
  rfl

def listText (items : List RangeItem) : CStr := [','].intercalate (items.map RangeItem.text)

theorem listText_cons {item : RangeItem} {items : List RangeItem} (h : items ≠ []) :
    listText (item :: items) = item.text ++ ',' :: listText items := by
  obtain ⟨i, is, rfl⟩ := List.exists_cons_of_ne_nil h
  rw [listText, List.map_cons, List.map_cons, List.intercalate_cons_cons, List.append_assoc]
  rfl

/-- The calls of the whole loop and of the test behind it. -/
theorem rangeLoop_items {after : Bool} (items : List RangeItem) (turns : Nat) (hne : items ≠ [])
    (hitems : ∀ i ∈ items, i.Written) (hmem : mem = pre ++ (listText items ++ [nul])) (hp : Behind after mem pre p)
    (ht : (listText items).length < turns) :
    ((rangeLoop mem turns pre.length p calls).bind fun r => lastCall mem r.1 r.2) =
      (listCalls after items).map (calls ++ ·) := by
  induction items generalizing pre p calls turns after with
  | nil => exact absurd rfl hne
  | cons item items ih =>
    have hitem := hitems item List.mem_cons_self
    by_cases hlast : items = []
    · subst hlast
      have htext : listText [item] = item.text := List.intercalate_singleton
      rw [htext] at hmem ht
      cases item with
      | num n =>
        change mem = pre ++ (n ++ [nul]) at hmem
        change n.length < turns at ht
        obtain ⟨turns, rfl⟩ : ∃ t, turns = n.length + (t + 1) := ⟨turns - n.length - 1, by omega⟩
        obtain ⟨c, hc, hnul⟩ := hp.not_end hmem hitem
        have hatoi := hp.atoi hmem hitem fun c hc => by cases hc; rfl
        rw [rangeLoop_last turns hmem hitem, Option.bind_some, lastCall, hc, hatoi]
        simp [listCalls, itemCalls, hnul, RangeItem.isRange]
      | range a b =>
        -- behind the last range the cursor passes over the terminator
        change mem = pre ++ (a ++ '-' :: b ++ [nul]) at hmem
        change (a ++ '-' :: b).length < turns at ht
        rw [List.length_append, List.length_cons] at ht
        obtain ⟨turns, rfl⟩ : ∃ t, turns = a.length + (t + 1 + 1) := ⟨turns - a.length - 2, by omega⟩
        have hmem' : mem = pre ++ (a ++ '-' :: (b ++ nul :: [])) := by rw [hmem]; simp
        have hout : mem[(pre ++ (a ++ '-' :: b)).length + 1]? = none := by
          rw [hmem, ← List.append_assoc]
          exact List.getElem?_eq_none (by simp; omega)
        rw [rangeLoop_range (turns + 1) hmem' hitem.1 hitem.2 (.inl rfl) hp]
        simp only [rangeLoop, hout]
        cases itemCalls after (.range a b) <;> rfl
    · rw [listText_cons hlast] at hmem ht
      have hrest : ∀ i ∈ items, i.Written := fun i hi => hitems i (List.mem_cons_of_mem _ hi)
      rw [List.length_append, List.length_cons] at ht
      cases item with
      | num n =>
        change mem = pre ++ (n ++ ',' :: listText items ++ [nul]) at hmem
        change n.length + _ < turns at ht
        obtain ⟨turns, rfl⟩ : ∃ t, turns = n.length + (t + 1) := ⟨turns - n.length - 1, by omega⟩
        have hmem' : mem = pre ++ (n ++ ',' :: (listText items ++ [nul])) := by rw [hmem]; simp
        have hstep := @ih (pre ++ (n ++ [','])) (pre ++ (n ++ [','])).length
          (calls ++ [readAs after (decimal n)]) false turns hlast hrest (by rw [hmem]; simp) rfl (by omega)
        rw [rangeLoop_num turns hmem' hitem hp, hstep, listCalls_cons hlast]
        cases hcalls : listCalls false items <;> simp [itemCalls, RangeItem.isRange, hcalls]
      | range a b =>
        change mem = pre ++ (a ++ '-' :: b ++ ',' :: listText items ++ [nul]) at hmem
        change (a ++ '-' :: b).length + _ < turns at ht
        rw [List.length_append, List.length_cons] at ht
        obtain ⟨turns, rfl⟩ : ∃ t, turns = a.length + (t + 1) := ⟨turns - a.length - 1, by omega⟩
        have hmem' : mem = pre ++ (a ++ '-' :: (b ++ ',' :: (listText items ++ [nul]))) := by rw [hmem]; simp
        have hcomma : mem[(pre ++ (a ++ '-' :: b)).length]? = some ',' := by
          rw [hmem, List.append_assoc (a ++ '-' :: b), ← List.append_assoc pre]
          exact get_here _ _ _
        have hplace : (pre ++ (a ++ '-' :: b)).length + 1 = (pre ++ (a ++ '-' :: b) ++ [',']).length := by
          simp [Nat.add_assoc]
        have hstep := fun more => @ih (pre ++ (a ++ '-' :: b) ++ [',']) (pre ++ (a ++ '-' :: b)).length (calls ++ more) true
          turns hlast hrest (by rw [hmem]; simp) ⟨hplace, hcomma⟩ (by omega)
        rw [rangeLoop_range turns hmem' hitem.1 hitem.2 (.inr rfl) hp, hplace, Option.bind_assoc, listCalls_cons hlast]
        simp only [hstep]
        cases itemCalls after (.range a b) with
        | none => rfl
        | some more =>
          cases hcalls : listCalls true items <;> simp [RangeItem.isRange, hcalls]

end Cursors

section Calls

theorem intsFrom_succ (a : Int) (n : Nat) : intsFrom a (n + 1) = a :: intsFrom (a + 1) n := by
  rw [intsFrom, intsFrom, List.range_succ_eq_map, List.map_cons, List.map_map]
  simp [Function.comp_def, Int.add_assoc, Int.add_comm 1]

theorem length_intsFrom (a : Int) (n : Nat) : (intsFrom a n).length = n := by simp [intsFrom]

theorem mem_intsFrom {a x : Int} {n : Nat} : x ∈ intsFrom a n ↔ a ≤ x ∧ x < a + n := by
  rw [intsFrom, List.mem_map]
  constructor
  · rintro ⟨k, hk, rfl⟩
    rw [List.mem_range] at hk
    omega
  · intro h
    exact ⟨(x - a).toNat, List.mem_range.mpr (by omega), by omega⟩

theorem intsFrom_inj {a b : Int} {m n : Nat} (hn : 0 < n) (h : intsFrom a m = intsFrom b n) : a = b ∧ m = n := by
  have hlen := congrArg List.length h
  rw [length_intsFrom, length_intsFrom] at hlen
  subst hlen
  obtain ⟨k, rfl⟩ : ∃ k, m = k + 1 := ⟨m - 1, by omega⟩
  rw [intsFrom_succ, intsFrom_succ] at h
  exact ⟨(List.cons.inj h).1, rfl⟩

/-- An upper end at the largest `int` makes the counter overflow. -/
theorem foreachRange_eq (turns : Nat) {f t : Int} (hf : f ≤ 2147483647) (ht : t ≤ 2147483647)
    (hturns : t ≠ 2147483647 → (t + 1 - f).toNat < turns) :
    foreachRange turns f t =
      if f ≤ t then (if t = 2147483647 then none else some (intsFrom f (t + 1 - f).toNat)) else some [] := by
  induction turns generalizing f with
  | zero =>
    have htop : t = 2147483647 := by
      by_contra h
      exact Nat.not_lt_zero _ (hturns h)
    rw [foreachRange, if_pos (by omega), if_pos htop]
  | succ turns ih =>
    rw [foreachRange]
    by_cases hle : f ≤ t
    · rw [if_pos hle, if_pos hle]
      by_cases hfull : f = 2147483647
      · rw [if_pos hfull, if_pos (by omega)]
      · rw [if_neg hfull, ih (by omega) fun h => by have := hturns h; omega]
        by_cases htop : t = 2147483647
        · rw [if_pos (by omega), if_pos htop, if_pos htop]
          rfl
        · rw [if_neg htop, if_neg htop]
          obtain ⟨k, hk⟩ : ∃ k, (t + 1 - f).toNat = k + 1 := ⟨(t - f).toNat, by omega⟩
          rw [hk, intsFrom_succ]
          by_cases hnext : f + 1 ≤ t
          · rw [if_pos hnext, show (t + 1 - (f + 1)).toNat = k by omega]
            rfl
          · rw [if_neg hnext, show k = 0 by omega]
            rfl
    · rw [if_neg hle, if_neg hle]

/-- What makes an item come out as it is written: its numbers fit an `int`, and behind a range, where `atoi` reads
a comma, the first one is zero anyway. -/
def ItemReads (after : Bool) : RangeItem → Prop
  | .num n => decimal n ≤ 2147483647 ∧ (after = true → decimal n = 0)
  | .range a b =>
    if decimal a ≤ decimal b then decimal b < 2147483647 ∧ (after = true → decimal a = 0)
    else intOf (decimal b) < readAs after (decimal a)

instance (after : Bool) : (item : RangeItem) → Decidable (ItemReads after item)
  | .num _ => inferInstanceAs (Decidable (_ ∧ _))
  | .range _ _ => inferInstanceAs (Decidable (ite _ _ _))

/-- The same for a list, which must not end with a range. -/
def ListReads (after : Bool) : List RangeItem → Prop
  | [] => True
  | item :: items => ItemReads after item ∧ ¬ (items = [] ∧ item.isRange = true) ∧ ListReads item.isRange items

instance decListReads : (after : Bool) → (items : List RangeItem) → Decidable (ListReads after items)
  | _, [] => inferInstanceAs (Decidable True)
  | _, item :: items =>
    have := decListReads item.isRange items
    inferInstanceAs (Decidable (_ ∧ _ ∧ _))

variable {after : Bool} {item : RangeItem} {calls : List Int}

theorem itemCalls_range (after : Bool) (a b : CStr) :
    itemCalls after (.range a b) =
      if readAs after (decimal a) ≤ intOf (decimal b) then
        (if intOf (decimal b) = 2147483647 then none
        else some (intsFrom (readAs after (decimal a))
          (intOf (decimal b) + 1 - readAs after (decimal a)).toNat))
      else some [] := by
  have ha := readAs_range after (decimal a)
  have hb := intOf_range (decimal b)
  apply foreachRange_eq
  · exact ha.2
  · exact hb.2
  · intro htop
    omega

/-- The first number that is called for a range of fitting numbers is not above the one that is written. -/
theorem start_le {n : Nat} (h : n ≤ 2147483647) : readAs after n ≤ (n : Int) := by
  cases after with
  | false => exact le_of_eq (intOf_small h)
  | true => exact Int.natCast_nonneg n

theorem start_eq_iff {n : Nat} (h : n ≤ 2147483647) :
    readAs after n = (n : Int) ↔ (after = true → n = 0) := by
  cases after with
  | false => simp [intOf_small h]
  | true =>
    simp only [readAs_true, true_implies]
    omega

theorem itemCalls_iff : itemCalls after item = some item.numbers ↔ ItemReads after item := by
  cases item with
  | num n =>
    simp only [itemCalls, RangeItem.numbers, ItemReads, Option.some.injEq, List.cons.injEq, and_true]
    by_cases hn : decimal n ≤ 2147483647
    · rw [start_eq_iff hn]
      simp [hn]
    · have hrange := readAs_range after (decimal n)
      exact iff_of_false (by omega) fun h => hn h.1
  | range a b =>
    rw [itemCalls_range, RangeItem.numbers, ItemReads]
    have hb := intOf_range (decimal b)
    have hpos := Int.natCast_nonneg (decimal b)
    by_cases hab : decimal a ≤ decimal b
    · rw [if_pos hab]
      constructor
      · intro h
        split_ifs at h with hle htop
        · obtain ⟨hstart, hcount⟩ := intsFrom_inj (by omega) (Option.some.inj h)
          rw [hstart] at hcount hle
          have hfit : decimal b < 2147483647 := by omega
          exact ⟨hfit, (start_eq_iff (by omega)).mp hstart⟩
        · have hlen := congrArg List.length (Option.some.inj h)
          rw [length_intsFrom, List.length_nil] at hlen
          omega
      · rintro ⟨hfit, hstart⟩
        rw [(start_eq_iff (by omega)).mpr hstart, intOf_small (by omega), if_pos (by omega), if_neg (by omega)]
        congr 2
        omega
    · have hnil : intsFrom (decimal a) (decimal b + 1 - decimal a) = [] := by
        rw [show decimal b + 1 - decimal a = 0 by omega]
        rfl
      rw [if_neg hab, hnil]
      constructor
      · intro h
        split_ifs at h with hle htop
        · have hlen := congrArg List.length (Option.some.inj h)
          rw [length_intsFrom, List.length_nil] at hlen
          omega
        · omega
      · intro h
        exact if_neg (by omega)

/-- An item is read as fewer numbers only if they are too large. -/
theorem itemCalls_length (h : itemCalls after item = some calls) (hfit : ∀ x ∈ item.numbers, x ≤ 2147483647) :
    item.numbers.length ≤ calls.length := by
  cases item with
  | num n =>
    cases h
    exact Nat.le_refl _
  | range a b =>
    rw [RangeItem.numbers] at hfit ⊢
    rw [length_intsFrom]
    by_cases hab : decimal a ≤ decimal b
    · have hlast := hfit (decimal b) (mem_intsFrom.mpr (by omega))
      have hstart := @start_le after (decimal a) (by omega)
      rw [itemCalls_range, intOf_small (n := decimal b) (by omega)] at h
      split_ifs at h with hle htop
      · rw [← Option.some.inj h, length_intsFrom]
        omega
      · omega
    · omega

theorem itemCalls_le (h : itemCalls after item = some calls) : ∀ x ∈ calls, x ≤ 2147483647 := by
  intro x hx
  cases item with
  | num n =>
    cases h
    rw [List.mem_singleton.mp hx]
    exact (readAs_range after (decimal n)).2
  | range a b =>
    have hb := intOf_range (decimal b)
    rw [itemCalls_range] at h
    split_ifs at h with hle htop
    · rw [← Option.some.inj h, mem_intsFrom] at hx
      omega
    · rw [← Option.some.inj h] at hx
      cases hx

theorem listCalls_some {items : List RangeItem} (h : listCalls after (item :: items) = some calls) :
    ¬ (items = [] ∧ item.isRange = true) ∧ ∃ first more, itemCalls after item = some first ∧
      listCalls item.isRange items = some more ∧ calls = first ++ more := by
  rw [listCalls] at h
  by_cases hlast : items = [] ∧ item.isRange = true
  · rw [if_pos hlast] at h
    cases h
  · rw [if_neg hlast] at h
    obtain ⟨first, hfirst, h⟩ := Option.bind_eq_some_iff.mp h
    obtain ⟨more, hmore, h⟩ := Option.bind_eq_some_iff.mp h
    exact ⟨hlast, first, more, hfirst, hmore, (Option.some.inj h).symm⟩

theorem listCalls_le {items : List RangeItem} (h : listCalls after items = some calls) : ∀ x ∈ calls, x ≤ 2147483647 := by
  induction items generalizing after calls with
  | nil =>
    cases h
    intro x hx
    cases hx
  | cons item items ih =>
    obtain ⟨-, first, more, hfirst, hmore, rfl⟩ := listCalls_some h
    intro x hx
    exact (List.mem_append.mp hx).elim (itemCalls_le hfirst x) (ih hmore x)

theorem listCalls_length {items : List RangeItem} (h : listCalls after items = some calls)
    (hfit : ∀ x ∈ items.flatMap RangeItem.numbers, x ≤ 2147483647) :
    (items.flatMap RangeItem.numbers).length ≤ calls.length := by
  induction items generalizing after calls with
  | nil => exact Nat.zero_le _
  | cons item items ih =>
    obtain ⟨-, first, more, hfirst, hmore, rfl⟩ := listCalls_some h
    rw [List.flatMap_cons] at hfit ⊢
    have hitem := itemCalls_length hfirst fun x hx => hfit x (List.mem_append_left _ hx)
    have hrest := ih hmore fun x hx => hfit x (List.mem_append_right _ hx)
    rw [List.length_append, List.length_append]
    omega

/-- No item makes up for another one. -/
theorem listCalls_iff (items : List RangeItem) :
    listCalls after items = some (items.flatMap RangeItem.numbers) ↔ ListReads after items := by
  induction items generalizing after with
  | nil => exact iff_of_true rfl trivial
  | cons item items ih =>
    rw [ListReads, ← itemCalls_iff, ← ih]
    constructor
    · intro h
      have hfit := listCalls_le h
      obtain ⟨hlast, first, more, hfirst, hmore, heq⟩ := listCalls_some h
      rw [List.flatMap_cons] at heq hfit
      have hitem := itemCalls_length hfirst fun x hx => hfit x (List.mem_append_left _ hx)
      have hrest := listCalls_length hmore fun x hx => hfit x (List.mem_append_right _ hx)
      have hlen := congrArg List.length heq
      rw [List.length_append, List.length_append] at hlen
      obtain ⟨h1, h2⟩ := List.append_inj heq (by omega)
      exact ⟨by rw [hfirst, h1], hlast, by rw [hmore, h2]⟩
    · rintro ⟨hitem, hlast, hrest⟩
      rw [listCalls, if_neg hlast, hitem, hrest]
      rfl

end Calls

/-- `r_str_range_foreach` calls back with the numbers that a list stands for exactly if each item is read as it is
written, and no range comes last. -/
theorem rStrRangeForeach_iff (items : List RangeItem) (hne : items ≠ []) (hitems : ∀ i ∈ items, i.Written) :
    rStrRangeForeach (listText items ++ [nul]) = some (items.flatMap RangeItem.numbers) ↔ ListReads false items := by
  have hrun := @rangeLoop_items (listText items ++ [nul]) [] 0 [] false items (listText items ++ [nul]).length hne hitems rfl
    rfl (by simp)
  have hcalls : rStrRangeForeach (listText items ++ [nul]) = listCalls false items := by
    refine hrun.trans ?_
    simp
  rw [hcalls, listCalls_iff]

theorem rStrRangeForeach_iff_mixed :
    rStrRangeForeach (listText [.num ['7'], .range ['3'] ['5'], .num ['0']] ++ [nul]) = some [7, 3, 4, 5, 0] :=
  (rStrRangeForeach_iff [.num ['7'], .range ['3'] ['5'], .num ['0']] (by decide)
    (by simp [RangeItem.Written, IsDecimal])).mpr (by decide)

theorem last_range_overruns :
    ¬ ∀ items : List RangeItem, items ≠ [] → (∀ i ∈ items, i.Written) →
      rStrRangeForeach (listText items ++ [nul]) = some (items.flatMap RangeItem.numbers) := by
  intro h
  have hone := h [.range ['1'] ['2']] (by decide) (by simp [RangeItem.Written, IsDecimal])
  have hrun : rStrRangeForeach (listText [.range ['1'] ['2']] ++ [nul]) = none := by decide
  rw [hrun] at hone
  cases hone

end Radare
