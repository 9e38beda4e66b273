import Radare.Reg.Reg
import Radare.Reg.ProfileItems
import Radare.Reg.RegFile
import Radare.Util.RListData

namespace Radare.Reg

/-- The number that the digits of a base write behind `acc`. -/
def digitsNat (base : Nat) : CStr → Nat → Option Nat
  | [], acc => some acc
  | c :: cs, acc => do
    let d ← digitValue c
    if d < base then digitsNat base cs (acc * base + d) else none

/-- A number without a sign: hexadecimal behind `0x`, octal behind any other zero, decimal else. -/
def unsignedNat (s : CStr) : Option Nat :=
  match s with
  | '0' :: x :: rest =>
    if x = 'x' ∨ x = 'X' then (if rest = [] then none else digitsNat 16 rest 0) else digitsNat 8 (x :: rest) 0
  | _ => digitsNat 10 s 0

/-- A minus leaves only zero a natural number. -/
def signedNat (value : CStr → Option Nat) (s : CStr) : Option Nat :=
  match s with
  | '-' :: c :: rest => (value (c :: rest)).filter (· = 0)
  | '+' :: c :: rest => value (c :: rest)
  | _ => value s

/-- The bits that a size or an offset of a profile writes: bytes before a dot and bits behind it. -/
def bitsNat (s : CStr) : Option Nat :=
  match s with
  | '.' :: rest => signedNat (digitsNat 10 · 0) rest
  | _ =>
    if '.' ∈ s then do
      let bytes ← signedNat unsignedNat (s.takeWhile (· ≠ '.'))
      let bits ← signedNat unsignedNat ((s.dropWhile (· ≠ '.')).drop 1)
      some (8 * bytes + bits)
    else (signedNat unsignedNat s).map (8 * ·)

section Digits

variable {base : Nat} {s : CStr} {acc v : Nat}

theorem scanDigits_of_digitsNat (h : digitsNat base s acc = some v) : scanDigits base s acc = (v, []) := by
  induction s generalizing acc with
  | nil =>
    cases h
    rfl
  | cons c cs ih =>
    obtain ⟨d, hd, hrest⟩ := Option.bind_eq_some_iff.mp h
    split_ifs at hrest with hlt
    simp only [scanDigits, hd, if_pos hlt]
    exact ih hrest

theorem digitsNat_head {c : Char} {cs : CStr} (h : digitsNat base (c :: cs) acc = some v) :
    ∃ d, digitValue c = some d ∧ d < base := by
  obtain ⟨d, hd, hrest⟩ := Option.bind_eq_some_iff.mp h
  split_ifs at hrest with hlt
  exact ⟨d, hd, hlt⟩

theorem startsWithDigit_of_digitsNat (h : digitsNat base s acc = some v) (hne : s ≠ []) :
    startsWithDigit base s = true := by
  cases s with
  | nil => exact absurd rfl hne
  | cons c cs =>
    obtain ⟨d, hd, hlt⟩ := digitsNat_head h
    simp only [startsWithDigit, hd]
    exact decide_eq_true hlt

theorem isDigit_of_digitsNat (h : digitsNat base s acc = some v) : ∀ c ∈ s, (digitValue c).isSome := by
  induction s generalizing acc with
  | nil => simp
  | cons c cs ih =>
    obtain ⟨d, hd, hrest⟩ := Option.bind_eq_some_iff.mp h
    split_ifs at hrest with hlt
    intro x hx
    rcases List.mem_cons.mp hx with heq | hmem
    · rw [heq, hd]
      rfl
    · exact ih hrest x hmem

/-- The text of a number begins with a digit, if it is not empty. -/
def DigitFirst (s : CStr) : Prop := ∀ c ∈ s.head?, (digitValue c).isSome

theorem digitFirst_of_digitsNat (h : digitsNat base s acc = some v) : DigitFirst s := by
  intro c hc
  exact isDigit_of_digitsNat h c (List.mem_of_mem_head? hc)

theorem digitFirst_of_unsignedNat (h : unsignedNat s = some v) : DigitFirst s := by
  unfold unsignedNat at h
  split at h
  · intro c hc
    cases hc
    rfl
  · exact digitFirst_of_digitsNat h

end Digits

section Numbers

variable {base : Nat} {s t : CStr} {neg : Bool} {v : Nat}

/-- A sign with a number behind it. -/
structure Signed (value : CStr → Option Nat) (s : CStr) (neg : Bool) (t : CStr) (v : Nat) : Prop where
  blank : s.dropWhile isSpace = s
  sign : scanSign s = (neg, t)
  value : value t = some v
  filled : t ≠ []
  zero : neg = true → v = 0

theorem signedNat_some {value : CStr → Option Nat} (hvalue : ∀ t v, value t = some v → DigitFirst t)
    (h : signedNat value s = some v) : (s = [] ∧ value [] = some v) ∨ ∃ neg t, Signed value s neg t v := by
  unfold signedNat at h
  split at h
  · rename_i c rest
    obtain ⟨hc, hzero⟩ := Option.filter_eq_some_iff.mp h
    exact .inr ⟨true, c :: rest, rfl, rfl, hc, List.cons_ne_nil c rest, fun _ => of_decide_eq_true hzero⟩
  · rename_i c rest
    exact .inr ⟨false, c :: rest, rfl, rfl, h, List.cons_ne_nil c rest, by simp⟩
  · cases s with
    | nil => exact .inl ⟨rfl, h⟩
    | cons c cs =>
      obtain ⟨d, hd⟩ := Option.isSome_iff_exists.mp (hvalue _ _ h c rfl)
      have hblank : (c :: cs).dropWhile isSpace = c :: cs :=
        List.dropWhile_cons_of_neg (by simp [digit_not_space hd])
      exact .inr ⟨false, c :: cs, hblank, scanSign_digit hd cs, h, List.cons_ne_nil c cs, by simp⟩

/-- `strtoull` reads a signed number whole. -/
theorem Signed.strtoull_eq {value : CStr → Option Nat} {u : CStr} (h : Signed value s neg t v)
    (hmark : scanHexPrefix base t = u) (hu : digitsNat base u 0 = some v) (hne : u ≠ []) (hv : v < 2 ^ 64) :
    strtoull base s = (BitVec.ofNat 64 v, []) := by
  have hscan : scanInteger base s = some (neg, v, []) := by
    rw [scanInteger, h.blank]
    simp only [h.sign, hmark, if_pos (startsWithDigit_of_digitsNat hu hne), scanDigits_of_digitsNat hu]
  simp only [strtoull, hscan]
  rw [if_neg (by omega)]
  cases neg with
  | false => rfl
  | true =>
    rw [h.zero rfl]
    rfl

theorem strtoull_empty (base : Nat) : strtoull base [] = (0, []) := by
  simp [strtoull, scanInteger, scanSign, scanHexPrefix, startsWithDigit]

theorem strtoull_signedNat (h : signedNat (digitsNat 10 · 0) s = some v) (hv : v < 2 ^ 64) :
    strtoull 10 s = (BitVec.ofNat 64 v, []) := by
  rcases signedNat_some (fun t v ht => digitFirst_of_digitsNat ht) h with ⟨rfl, hzero⟩ | ⟨neg, t, hs⟩
  · cases hzero
    exact strtoull_empty 10
  · exact hs.strtoull_eq (scanHexPrefix_digits (isDigit_of_digitsNat hs.value)) hs.value hs.filled hv

/-- The base that the text chooses is the one of its number. -/
theorem strtoul0_signedNat (h : signedNat unsignedNat s = some v) (hv : v < 2 ^ 64) :
    strtoul0 s = (BitVec.ofNat 64 v, []) := by
  rcases signedNat_some (fun t v ht => digitFirst_of_unsignedNat ht) h with ⟨rfl, hzero⟩ | ⟨neg, t, hs⟩
  · cases hzero
    exact strtoull_empty 10
  · have hvalue := hs.value
    unfold strtoul0
    simp only [hs.blank, hs.sign]
    split
    · rename_i x rest
      rw [unsignedNat] at hvalue
      by_cases hx : x = 'x' ∨ x = 'X'
      · rw [if_pos hx] at hvalue
        split_ifs at hvalue with hrest
        have hstart := startsWithDigit_of_digitsNat hvalue hrest
        rw [if_pos ⟨hx, hstart⟩]
        exact hs.strtoull_eq (if_pos ⟨rfl, hx, hstart⟩) hvalue hrest hv
      · rw [if_neg hx] at hvalue
        have hmark : scanHexPrefix 8 ('0' :: x :: rest) = '0' :: x :: rest := by
          rw [scanHexPrefix, if_neg (by simp)]
        rw [if_neg (fun hall => hx hall.1)]
        exact hs.strtoull_eq hmark hvalue hs.filled hv
    · cases hvalue
      exact hs.strtoull_eq rfl rfl hs.filled hv
    · rename_i hzerox hzero
      have hdecimal : digitsNat 10 t 0 = some v := by
        unfold unsignedNat at hvalue
        split at hvalue
        · exact absurd rfl (hzerox _ _)
        · exact hvalue
      exact hs.strtoull_eq (scanHexPrefix_digits (isDigit_of_digitsNat hdecimal)) hdecimal hs.filled hv

end Numbers

/-- A count of bits that an `int` holds is stored as it is written. -/
theorem parseSize_bitsNat {s : CStr} {n : Nat} (h : bitsNat s = some n) (hn : n < 2147483648) :
    toInt (parseSize s).1 = n := by
  have hint : ∀ m : Nat, m < 2147483648 → toInt (BitVec.ofNat 64 m) = m := by
    intro m hm
    rw [toInt, BitVec.toNat_ofNat, Nat.mod_eq_of_lt (by omega), wrapInt_of_range (by omega) (by omega)]
  have hshift : ∀ m : Nat, (BitVec.ofNat 64 m : Ut64) <<< 3 = BitVec.ofNat 64 (8 * m) := by
    intro m
    apply BitVec.eq_of_toNat_eq
    simp only [BitVec.toNat_shiftLeft, BitVec.toNat_ofNat, Nat.shiftLeft_eq]
    omega
  unfold bitsNat at h
  split at h
  · rename_i rest
    have hread : parseSize ('.' :: rest) = strtoull 10 rest := rfl
    rw [hread, strtoull_signedNat h (by omega)]
    exact hint n hn
  · rename_i hplain
    unfold parseSize
    split
    · exact absurd rfl (hplain _)
    split_ifs at h with hdot
    · obtain ⟨bytes, hbytes, hrest⟩ := Option.bind_eq_some_iff.mp h
      obtain ⟨bits, hbits, hsum⟩ := Option.bind_eq_some_iff.mp hrest
      cases hsum
      simp only [if_pos hdot, strtoul0_signedNat hbytes (by omega), strtoul0_signedNat hbits (by omega), hshift,
        ← BitVec.ofNat_add]
      exact hint _ hn
    · obtain ⟨bytes, hbytes, hprod⟩ := Option.map_eq_some_iff.mp h
      simp only [if_neg hdot, strtoul0_signedNat hbytes (by omega), hshift, hprod]
      exact hint n hn

/-- `r_reg_get`; `R_REG_TYPE_ALL` is no type. -/
def rRegGet (reg : RReg) (name : CStr) (type : Option RRegisterType) : Option RRegItem :=
  let types : List RRegisterType := match type with
    | none => [.gpr, .drx, .fpu, .mmx, .xmm, .flg, .seg]
    | some .flg => [.gpr]
    | some t => [t]
  types.findSome? (fun i => (reg.regset i).regs.find? (fun r => r.name == name))

def regcmp (a b : RRegItem) : Int :=
  let offa := wrapInt (wrapInt (a.offset * 16) + a.size)
  let offb := wrapInt (wrapInt (b.offset * 16) + b.size)
  if offb < offa then 1 else 0

/-- `r_reg_reindex`: all the registers with their indexes. -/
def rRegReindex (reg : RReg) : Option (List (RRegItem × Int)) := do
  let all ← sortData regcmp reg.items false
  some (all.1.zipIdx.map (fun r => (r.1, wrapInt r.2)))

/-- A register file with its `allregs`. -/
structure IndexedReg where
  reg : RReg
  allregs : Option (List (RRegItem × Int))

def rRegIndexGet (s : IndexedReg) (idx : Int) : Option (IndexedReg × Option RRegItem) :=
  if idx < 0 then some (s, none)
  else do
    let all ← s.allregs.or (rRegReindex s.reg)
    some ({ s with allregs := some all }, (all.find? (fun r => r.2 = idx)).map Prod.fst)

/-- `r_reg_set_profile_string` with the index that it makes of a new profile. After a profile that is
refused the index is left alone. -/
def setProfile (s : IndexedReg) (str : CStr) : Option (IndexedReg × Bool) := do
  let r ← rRegSetProfileString s.reg str
  if s.reg.regProfileStr = some str ∨ r.2 = false then some ({ s with reg := r.1 }, r.2)
  else
    let all ← rRegReindex r.1
    some (⟨r.1, some all⟩, true)

/-- One profile after the other. -/
def setProfiles : IndexedReg → List CStr → Option IndexedReg
  | s, [] => some s
  | s, str :: rest => do
    let r ← setProfile s str
    setProfiles r.1 rest

def indexedNew (bigEndian : Bool) : IndexedReg := ⟨{ rRegNew with bigEndian := bigEndian }, none⟩

/-- What the line of a register says of it. -/
structure Definition where
  type : RRegisterType
  name : CStr
  size : Nat
  offset : Nat
  packedSize : Nat
  deriving DecidableEq

def definitionOf (line : List CStr) : Option Definition :=
  match line with
  | type :: name :: size :: offset :: packed :: _ => do
    some ⟨← rRegTypeByName type, name, ← bitsNat size, ← bitsNat offset, ← bitsNat packed⟩
  | _ => none

/-- A register with the values of its line. -/
structure Definition.Made (d : Definition) (item : RRegItem) : Prop where
  type : item.type = d.type
  name : item.name = d.name
  size : item.size = d.size
  offset : item.offset = d.offset
  packedSize : item.packedSize = d.packedSize

/-- Every line's register is found, by its name alone and with its type, names are unique, the arenas
reach over their registers, and the index counts each of them once. -/
structure LookupRight (s : IndexedReg) (str : CStr) : Prop where
  found : ∀ line ∈ definitionLines str, ∃ d item, definitionOf line = some d ∧ d.Made item ∧
    rRegGet s.reg d.name none = some item ∧ rRegGet s.reg d.name (some item.type) = some item
  unique : (s.reg.items.map RRegItem.name).Nodup
  inside : ∀ item, s.reg.has item → 0 ≤ item.offset ∧ item.offset + item.size ≤ 8 * (s.reg.regset item.type).cur.size
  enumerated : ∃ all : List RRegItem, all.Perm s.reg.items ∧ ∀ i : Nat, rRegIndexGet s i = some (s, all[i]?)

/-- The definitions of a profile that can be read. -/
def definitions (str : CStr) : List Definition := (definitionLines str).filterMap definitionOf

/-- The profiles whose lines fit the fields of the registers and the arenas of their types. -/
structure Storable (str : CStr) : Prop where
  fields : ∀ line ∈ definitionLines str, ∃ d, definitionOf line = some d ∧ d.type ≠ .flg ∧
    d.size < 2147483648 ∧ d.offset < 2147483648 ∧ d.packedSize < 2147483648
  ends : ∀ d ∈ definitions str, ∃ e ∈ definitions str, e.type = d.type ∧ e.offset + e.size < 2147483648 ∧
    (d.offset + d.size + 7) / 8 ≤ (e.offset + e.size + 7) / 8
  indexed : (definitionLines str).length ≤ 2147483648

section Get

variable {reg : RReg} {items : List RRegItem} {item : RRegItem}

theorem Holds.same (h : Holds reg items) {r : RRegItem} (hr : r ∈ items) (hitem : item ∈ items)
    (hname : r.name = item.name) : r = item :=
  List.inj_on_of_nodup_map h.names hr hitem hname

theorem Holds.mem_regs (h : Holds reg items) {t : RRegisterType} {r : RRegItem} :
    r ∈ (reg.regset t).regs ↔ r ∈ items ∧ r.type = t := by
  rw [h.regs, List.mem_filter, decide_eq_true_iff]

/-- A name is found in the set of its register only. -/
theorem Holds.find (h : Holds reg items) (hitem : item ∈ items) (t : RRegisterType) :
    (reg.regset t).regs.find? (fun r => r.name == item.name) = if t = item.type then some item else none := by
  split_ifs with ht
  · have hmem : item ∈ (reg.regset t).regs := h.mem_regs.mpr ⟨hitem, ht.symm⟩
    cases hfind : (reg.regset t).regs.find? (fun r => r.name == item.name) with
    | none => exact absurd (List.find?_eq_none.mp hfind item hmem) (by simp)
    | some r =>
      have hr := h.mem_regs.mp (List.mem_of_find?_eq_some hfind)
      rw [h.same hr.1 hitem (by simpa using List.find?_some hfind)]
  · refine List.find?_eq_none.mpr (fun r hr hname => ht ?_)
    obtain ⟨hrmem, hrtype⟩ := h.mem_regs.mp hr
    rw [← hrtype, h.same hrmem hitem (by simpa using hname)]

theorem Holds.get_all (h : Holds reg items) (hitem : item ∈ items) : rRegGet reg item.name none = some item := by
  simp only [rRegGet, h.find hitem]
  cases item.type <;> simp

theorem Holds.get_type (h : Holds reg items) (hitem : item ∈ items) (hflg : item.type ≠ .flg) :
    rRegGet reg item.name (some item.type) = some item := by
  simp only [rRegGet, h.find hitem]
  rw [List.findSome?_cons, if_pos rfl]

/-- A lookup for flags finds general purpose registers. -/
theorem Holds.get_flg (h : Holds reg items) {name : CStr} (hget : rRegGet reg name (some .flg) = some item) :
    item.type = .gpr := by
  simp only [rRegGet, List.findSome?_cons, List.findSome?_nil] at hget
  cases hfind : (reg.regset .gpr).regs.find? (fun r => r.name == name) with
  | none =>
    rw [hfind] at hget
    cases hget
  | some r =>
    rw [hfind] at hget
    cases hget
    exact (h.mem_regs.mp (List.mem_of_find?_eq_some hfind)).2

theorem Holds.items_perm (h : Holds reg items) : reg.items.Perm items := by
  refine List.perm_iff_count.mpr (fun a => ?_)
  have hcount : ∀ t, (reg.regset t).regs.count a = if a.type = t then items.count a else 0 := by
    intro t
    rw [h.regs]
    split_ifs with ht
    · exact List.count_filter (by simpa using ht)
    · refine List.count_eq_zero.mpr (fun hmem => ht ?_)
      simpa using (List.mem_filter.mp hmem).2
  simp only [RReg.items, List.count_flatMap, List.map_cons, List.map_nil, List.sum_cons, List.sum_nil,
    Function.comp_apply, hcount]
  cases a.type <;> simp

end Get

section Index

/-- The number of a place is its index, as long as an `int` counts the places. -/
theorem find_index {xs : List RRegItem} (hlen : xs.length ≤ 2147483648) (i : Nat) :
    ((xs.zipIdx.map (fun r => (r.1, wrapInt r.2))).find? (fun r => r.2 = (i : Int))).map Prod.fst = xs[i]? := by
  have hplace : ∀ k : Nat, k < xs.length → wrapInt k = k := fun k hk => wrapInt_of_range (by omega) (by omega)
  cases hfind : (xs.zipIdx.map (fun r => (r.1, wrapInt r.2))).find? (fun r => r.2 = (i : Int)) with
  | none =>
    refine (List.getElem?_eq_none (Nat.le_of_not_lt fun hi => ?_)).symm
    have hmem : (xs[i], i) ∈ xs.zipIdx := List.mem_zipIdx_iff_getElem?.mpr (List.getElem?_eq_getElem hi)
    exact List.find?_eq_none.mp hfind _ (List.mem_map_of_mem hmem) (by simpa using hplace i hi)
  | some r =>
    obtain ⟨x, hx, hr⟩ := List.mem_map.mp (List.mem_of_find?_eq_some hfind)
    have hidx : r.2 = (i : Int) := by simpa using List.find?_some hfind
    have hget := List.mem_zipIdx_iff_getElem?.mp hx
    obtain ⟨hlt, -⟩ := List.getElem?_eq_some_iff.mp hget
    rw [← hr, hplace x.2 hlt, Nat.cast_inj] at hidx
    rw [← hidx, hget, ← hr]
    rfl

/-- No place has a number behind the range of an `int`. -/
theorem find_index_top (xs : List RRegItem) :
    (xs.zipIdx.map (fun r => (r.1, wrapInt r.2))).find? (fun r => r.2 = ((2147483648 : Nat) : Int)) = none := by
  refine List.find?_eq_none.mpr (fun r hr heq => ?_)
  obtain ⟨x, -, hx⟩ := List.mem_map.mp hr
  have hrange := (wrapInt_range x.2).2
  have htop : wrapInt x.2 = 2147483648 := by simpa [← hx] using heq
  omega

theorem rRegReindex_eq (reg : RReg) : ∃ all : List RRegItem, all.Perm reg.items ∧
    rRegReindex reg = some (all.zipIdx.map (fun r => (r.1, wrapInt r.2))) := by
  obtain ⟨all, hsort, hperm, -⟩ := sortData_spec regcmp reg.items false
  refine ⟨all, hperm, ?_⟩
  simp only [rRegReindex, hsort, Option.bind_eq_bind, Option.bind_some]

end Index

/-- A state with the registers of a text, sized arenas and an index. -/
structure Loaded (str : CStr) (s : IndexedReg) : Prop where
  holds : ∃ items, List.Forall₂ LineOf (definitionLines str) items ∧ Holds s.reg items
  cur : ∀ t, (s.reg.regset t).cur.size = max 1 (fitSize (s.reg.regset t).regs)
  index : ∃ all : List RRegItem, all.Perm s.reg.items ∧
    s.allregs = some (all.zipIdx.map (fun r => (r.1, wrapInt r.2)))

section Run

/-- The last profile that was accepted is the one that is loaded. -/
def KeepsLoaded (s : IndexedReg) : Prop := ∀ str, s.reg.regProfileStr = some str → Loaded str s

/-- An accepted text is loaded, whatever was loaded before. -/
theorem loaded_of_parseLines {reg parsed : RReg} {str : CStr} {fuel : Nat} {s : IndexedReg}
    (h : parseLines fuel str (purged reg str) = some (.ok parsed)) (hs : s.reg = rRegArenaPush (rRegFitArena parsed))
    (hindex : s.allregs = rRegReindex s.reg) : Loaded str s ∧ s.reg.regProfileStr = some str := by
  have hnew : Holds (purged reg str) [] := ⟨fun t => rfl, List.nodup_nil⟩
  obtain ⟨items, hlines, hholds, hstr⟩ := hnew.parseLines h
  have hregs : ∀ t, (s.reg.regset t).regs = (parsed.regset t).regs := by
    intro t
    rw [hs]
    exact (parsed.regset t).fit_push_cur.2.2.2.2
  refine ⟨⟨⟨items, hlines, fun t => (hregs t).trans (hholds.regs t), hholds.names⟩, fun t => ?_, ?_⟩, ?_⟩
  · rw [hregs, hs]
    have hcur : ((rRegArenaPush (rRegFitArena parsed)).regset t).cur = _ := (parsed.regset t).fit_push_cur.1
    rw [hcur, RRegArena.size, List.length_replicate]
    omega
  · obtain ⟨all, hperm, heq⟩ := rRegReindex_eq s.reg
    exact ⟨all, hperm, hindex.trans heq⟩
  · rw [hs]
    exact hstr

theorem setProfile_loaded {s s' : IndexedReg} {str : CStr} {ok : Bool} (hs : KeepsLoaded s)
    (h : setProfile s str = some (s', ok)) : KeepsLoaded s' ∧ (ok = true → s'.reg.regProfileStr = some str) := by
  obtain ⟨⟨reg, ok'⟩, hset, hrest⟩ := Option.bind_eq_some_iff.mp h
  rcases rRegSetProfileString_cases hset with ⟨hsame, rfl, rfl⟩ | ⟨-, hnone, rfl⟩ | ⟨hnew, rfl, parsed, hlines, rfl⟩
  · rw [if_pos (.inl hsame)] at hrest
    cases hrest
    exact ⟨hs, fun _ => hsame⟩
  · rw [if_pos (.inr rfl)] at hrest
    cases hrest
    refine ⟨fun other hother => ?_, by simp⟩
    rw [hnone] at hother
    cases hother
  · rw [if_neg (by simp [hnew])] at hrest
    obtain ⟨all, hall, hdone⟩ := Option.bind_eq_some_iff.mp hrest
    cases hdone
    obtain ⟨hload, hstr⟩ := loaded_of_parseLines (s := ⟨_, some all⟩) hlines rfl hall.symm
    refine ⟨fun other hother => ?_, fun _ => hstr⟩
    have heq : str = other := Option.some.inj (hstr.symm.trans hother)
    exact heq ▸ hload

theorem setProfiles_loaded {s s' : IndexedReg} {strs : List CStr} (hs : KeepsLoaded s)
    (h : setProfiles s strs = some s') : KeepsLoaded s' := by
  induction strs generalizing s with
  | nil =>
    cases h
    exact hs
  | cons str strs ih =>
    obtain ⟨⟨next, ok⟩, hnext, hrest⟩ := Option.bind_eq_some_iff.mp h
    exact ih (setProfile_loaded hs hnext).1 hrest

end Run

section Ends

theorem bits2bytes_nonneg {x : Int} (h : 0 ≤ x) : bits2bytes x = (x + 7) / 8 := by
  obtain ⟨n, rfl⟩ := Int.eq_ofNat_of_zero_le h
  rw [bits2bytes_nat]
  omega

/-- An end that an `int` does not hold counts for a byte at most. -/
theorem fit_of_overflow {x : Int} (hlow : 2147483648 ≤ x) (hhigh : x < 4294967296) : bits2bytes (wrapInt x) ≤ 1 := by
  refine bits2bytes_nonpos ?_
  unfold wrapInt
  omega

/-- An arena reaches over a register when the end of some register takes as many bytes. -/
theorem covered_iff {regs : List RRegItem} (hregs : ∀ r ∈ regs, 0 ≤ r.offset ∧ r.offset < 2147483648 ∧ 0 < r.size ∧
    r.size < 2147483648) {item : RRegItem} (hitem : item ∈ regs) :
    item.offset + item.size ≤ 8 * max 1 (fitSize regs) ↔
      ∃ r ∈ regs, r.offset + r.size < 2147483648 ∧ (item.offset + item.size + 7) / 8 ≤ (r.offset + r.size + 7) / 8 := by
  obtain ⟨-, hall, hreach⟩ := fitSize_spec regs
  have hplain : ∀ r ∈ regs, r.offset + r.size < 2147483648 →
      bits2bytes (wrapInt (r.offset + r.size)) = (r.offset + r.size + 7) / 8 := by
    intro r hr hend
    have hpos := hregs r hr
    rw [wrapInt_of_range (by omega) hend, bits2bytes_nonneg (by omega)]
  constructor
  · intro hin
    -- without an end that fits, the arena has one byte
    have hone : fitSize regs ≤ 1 → ∃ r ∈ regs, r.offset + r.size < 2147483648 ∧
        (item.offset + item.size + 7) / 8 ≤ (r.offset + r.size + 7) / 8 :=
      fun hfit => ⟨item, hitem, by omega, le_refl _⟩
    rcases hreach with hzero | ⟨r, hr, hfit⟩
    · exact hone (by omega)
    · have hpos := hregs r hr
      by_cases hend : r.offset + r.size < 2147483648
      · rw [hplain r hr hend] at hfit
        exact ⟨r, hr, hend, by omega⟩
      · have hover := fit_of_overflow (show 2147483648 ≤ r.offset + r.size by omega) (by omega)
        exact hone (by omega)
  · rintro ⟨r, hr, hend, hle⟩
    have hfit := hall r hr
    rw [hplain r hr hend] at hfit
    omega

end Ends

section Lines

variable {line : List CStr} {item : RRegItem} {d : Definition}

theorem DefinedBy.ranges {tok : List CStr} (h : DefinedBy tok item) :
    item.size < 2147483648 ∧ item.offset < 2147483648 ∧ item.packedSize < 2147483648 := by
  obtain ⟨size, -, hsize⟩ := Option.map_eq_some_iff.mp h.size
  obtain ⟨offset, -, hoffset⟩ := Option.map_eq_some_iff.mp h.offset
  obtain ⟨packed, -, hpacked⟩ := Option.map_eq_some_iff.mp h.packedSize
  rw [← hsize, ← hoffset, ← hpacked]
  exact ⟨(wrapInt_range _).2, (wrapInt_range _).2, (wrapInt_range _).2⟩

/-- The fields of a line that an `int` holds are those of its register. -/
theorem LineOf.made (h : LineOf line item) (hd : definitionOf line = some d) (hsize : d.size < 2147483648)
    (hoffset : d.offset < 2147483648) (hpacked : d.packedSize < 2147483648) : d.Made item := by
  obtain ⟨tok, hcut, hdef⟩ := h
  unfold definitionOf at hd
  split at hd
  · rename_i type name size offset packed more
    obtain ⟨t, ht, hd⟩ := Option.bind_eq_some_iff.mp hd
    obtain ⟨m, hm, hd⟩ := Option.bind_eq_some_iff.mp hd
    obtain ⟨k, hk, hd⟩ := Option.bind_eq_some_iff.mp hd
    obtain ⟨n, hn, hd⟩ := Option.bind_eq_some_iff.mp hd
    cases hd
    have hwords : ∀ i < 5, tok[i]? = (type :: name :: size :: offset :: packed :: more)[i]? := by
      intro i hi
      rcases hcut with rfl | rfl
      · rfl
      · exact List.getElem?_append_left (by simp; omega)
    have htype := hdef.type
    have hname := hdef.name
    have hs := hdef.size
    have ho := hdef.offset
    have hp := hdef.packedSize
    rw [hwords 0 (by omega)] at htype
    rw [hwords 1 (by omega)] at hname
    rw [hwords 2 (by omega)] at hs
    rw [hwords 3 (by omega)] at ho
    rw [hwords 4 (by omega)] at hp
    exact ⟨Option.some.inj (htype.symm.trans ht), (Option.some.inj hname).symm,
      (Option.some.inj hs).symm.trans (parseSize_bitsNat hm hsize),
      (Option.some.inj ho).symm.trans (parseSize_bitsNat hk hoffset),
      (Option.some.inj hp).symm.trans (parseSize_bitsNat hn hpacked)⟩
  · cases hd

end Lines

section Condition

variable {str : CStr} {s : IndexedReg} {items : List RRegItem}

theorem exists_right {α β : Type} {r : α → β → Prop} {xs : List α} {ys : List β} (h : List.Forall₂ r xs ys) {x : α}
    (hx : x ∈ xs) : ∃ y ∈ ys, r x y := by
  induction h with
  | nil => cases hx
  | cons hfirst hrest ih =>
    rcases List.mem_cons.mp hx with rfl | hmem
    · exact ⟨_, List.mem_cons_self, hfirst⟩
    · obtain ⟨y, hy, hxy⟩ := ih hmem
      exact ⟨y, List.mem_cons_of_mem _ hy, hxy⟩

theorem exists_left {α β : Type} {r : α → β → Prop} {xs : List α} {ys : List β} (h : List.Forall₂ r xs ys) {y : β}
    (hy : y ∈ ys) : ∃ x ∈ xs, r x y :=
  exists_right (r := flip r) (List.Forall₂.flip (R := flip r) h) hy

theorem Holds.get_mem (h : Holds s.reg items) {name : CStr} {item : RRegItem}
    (hget : rRegGet s.reg name none = some item) : item ∈ items := by
  simp only [rRegGet, List.findSome?_eq_some_iff] at hget
  obtain ⟨-, t, -, -, hfind, -⟩ := hget
  exact (h.mem_regs.mp (List.mem_of_find?_eq_some hfind)).1

/-- The lines whose fields fit are those whose registers are found. -/
theorem found_iff (hlines : List.Forall₂ LineOf (definitionLines str) items) (hholds : Holds s.reg items) :
    (∀ line ∈ definitionLines str, ∃ d item, definitionOf line = some d ∧ d.Made item ∧
      rRegGet s.reg d.name none = some item ∧ rRegGet s.reg d.name (some item.type) = some item) ↔
    ∀ line ∈ definitionLines str, ∃ d, definitionOf line = some d ∧ d.type ≠ .flg ∧
      d.size < 2147483648 ∧ d.offset < 2147483648 ∧ d.packedSize < 2147483648 := by
  constructor
  · intro hfound line hline
    obtain ⟨d, item, hd, hmade, hall, htype⟩ := hfound line hline
    obtain ⟨-, -, tok, -, hdef⟩ := exists_left hlines (hholds.get_mem hall)
    obtain ⟨hsize, hoffset, hpacked⟩ := hdef.ranges
    rw [hmade.size] at hsize
    rw [hmade.offset] at hoffset
    rw [hmade.packedSize] at hpacked
    refine ⟨d, hd, fun hflg => ?_, by omega, by omega, by omega⟩
    rw [hmade.type, hflg] at htype
    have hgpr := hholds.get_flg htype
    rw [hmade.type, hflg] at hgpr
    cases hgpr
  · intro hfields line hline
    obtain ⟨d, hd, hflg, hsize, hoffset, hpacked⟩ := hfields line hline
    obtain ⟨item, hitem, hof⟩ := exists_right hlines hline
    have hmade := hof.made hd hsize hoffset hpacked
    refine ⟨d, item, hd, hmade, ?_, ?_⟩
    · rw [← hmade.name]
      exact hholds.get_all hitem
    · rw [← hmade.name]
      exact hholds.get_type hitem (hmade.type ▸ hflg)

/-- The arenas reach over their registers when the ends that fit an `int` do. -/
theorem inside_ends_iff (hlines : List.Forall₂ LineOf (definitionLines str) items) (hholds : Holds s.reg items)
    (hcur : ∀ t, (s.reg.regset t).cur.size = max 1 (fitSize (s.reg.regset t).regs))
    (hfields : ∀ line ∈ definitionLines str, ∃ d, definitionOf line = some d ∧ d.type ≠ .flg ∧
      d.size < 2147483648 ∧ d.offset < 2147483648 ∧ d.packedSize < 2147483648) :
    (∀ item, s.reg.has item →
      0 ≤ item.offset ∧ item.offset + item.size ≤ 8 * (s.reg.regset item.type).cur.size) ↔
    ∀ d ∈ definitions str, ∃ e ∈ definitions str, e.type = d.type ∧ e.offset + e.size < 2147483648 ∧
      (d.offset + d.size + 7) / 8 ≤ (e.offset + e.size + 7) / 8 := by
  -- a definition and its register
  have hitem : ∀ d ∈ definitions str, ∃ item ∈ items, d.Made item := by
    intro d hd
    obtain ⟨line, hline, hread⟩ := List.mem_filterMap.mp hd
    obtain ⟨e, he, -, hsize, hoffset, hpacked⟩ := hfields line hline
    cases hread.symm.trans he
    obtain ⟨item, hitem, hof⟩ := exists_right hlines hline
    exact ⟨item, hitem, hof.made hread hsize hoffset hpacked⟩
  have hdef : ∀ item ∈ items, item.size ≠ 0 ∧ ∃ d ∈ definitions str, d.Made item ∧
      d.size < 2147483648 ∧ d.offset < 2147483648 := by
    intro item hitem
    obtain ⟨line, hline, hof⟩ := exists_left hlines hitem
    obtain ⟨d, hd, -, hsize, hoffset, hpacked⟩ := hfields line hline
    obtain ⟨tok, -, htok⟩ := id hof
    exact ⟨htok.sized, d, List.mem_filterMap.mpr ⟨line, hline, hd⟩, hof.made hd hsize hoffset hpacked, hsize, hoffset⟩
  have hregs : ∀ t, ∀ r ∈ (s.reg.regset t).regs, 0 ≤ r.offset ∧ r.offset < 2147483648 ∧ 0 < r.size ∧
      r.size < 2147483648 := by
    intro t r hr
    obtain ⟨hsized, d, -, hmade, hsize, hoffset⟩ := hdef r (hholds.mem_regs.mp hr).1
    rw [hmade.size] at hsized
    rw [hmade.offset, hmade.size]
    omega
  have hcover : ∀ item ∈ items, item.offset + item.size ≤ 8 * (s.reg.regset item.type).cur.size ↔
      ∃ r ∈ (s.reg.regset item.type).regs, r.offset + r.size < 2147483648 ∧
        (item.offset + item.size + 7) / 8 ≤ (r.offset + r.size + 7) / 8 := by
    intro item hmem
    rw [hcur]
    exact covered_iff (hregs item.type) (hholds.mem_regs.mpr ⟨hmem, rfl⟩)
  constructor
  · intro hinside d hd
    obtain ⟨item, hmem, hmade⟩ := hitem d hd
    have hhas : s.reg.has item := hholds.mem_regs.mpr ⟨hmem, rfl⟩
    obtain ⟨r, hr, hend, hle⟩ := (hcover item hmem).mp (hinside item hhas).2
    obtain ⟨hrmem, hrtype⟩ := hholds.mem_regs.mp hr
    obtain ⟨-, e, he, hemade, -, -⟩ := hdef r hrmem
    rw [hemade.offset, hemade.size] at hend hle
    rw [hmade.offset, hmade.size] at hle
    exact ⟨e, he, by rw [← hemade.type, hrtype, hmade.type], by omega, by omega⟩
  · intro hends item hhas
    have hmem := (hholds.mem_regs.mp hhas).1
    refine ⟨(hregs _ item hhas).1, (hcover item hmem).mpr ?_⟩
    obtain ⟨-, d, hd, hmade, -, -⟩ := hdef item hmem
    obtain ⟨e, he, htype, hend, hle⟩ := hends d hd
    obtain ⟨r, hr, hrmade⟩ := hitem e he
    refine ⟨r, hholds.mem_regs.mpr ⟨hr, ?_⟩, ?_, ?_⟩
    · rw [hrmade.type, htype, hmade.type]
    · rw [hrmade.offset, hrmade.size]
      omega
    · rw [hmade.offset, hmade.size, hrmade.offset, hrmade.size]
      omega

/-- The index counts every register as long as an `int` counts them. -/
theorem enumerated_iff {all : List RRegItem} (hperm : all.Perm s.reg.items)
    (hindex : s.allregs = some (all.zipIdx.map (fun r => (r.1, wrapInt r.2)))) :
    (∃ xs : List RRegItem, xs.Perm s.reg.items ∧ ∀ i : Nat, rRegIndexGet s i = some (s, xs[i]?)) ↔
      all.length ≤ 2147483648 := by
  have hget : ∀ i : Nat, rRegIndexGet s i = some (s,
      ((all.zipIdx.map (fun r => (r.1, wrapInt r.2))).find? (fun r => r.2 = (i : Int))).map Prod.fst) := by
    intro i
    have hkeep : { s with allregs := some (all.zipIdx.map (fun r => (r.1, wrapInt r.2))) } = s := by rw [← hindex]
    rw [rRegIndexGet, if_neg (by omega), hindex]
    simp only [Option.some_or, Option.bind_eq_bind, Option.bind_some, hkeep]
  constructor
  · rintro ⟨xs, hxs, henum⟩
    by_contra hlong
    have hlen : xs.length = all.length := (hxs.trans hperm.symm).length_eq
    have htop := (hget 2147483648).symm.trans (henum 2147483648)
    rw [find_index_top, List.getElem?_eq_getElem (by omega)] at htop
    cases htop
  · intro hlen
    exact ⟨all, hperm, fun i => by rw [hget, find_index hlen]⟩

theorem Loaded.lookupRight_iff (h : Loaded str s) : LookupRight s str ↔ Storable str := by
  obtain ⟨items, hlines, hholds⟩ := h.holds
  obtain ⟨all, hperm, hindex⟩ := h.index
  have hlen : all.length = (definitionLines str).length :=
    (hperm.trans hholds.items_perm).length_eq.trans hlines.length_eq.symm
  have hfound := found_iff hlines hholds
  constructor
  · intro hright
    have hfields := hfound.mp hright.found
    refine ⟨hfields, (inside_ends_iff hlines hholds h.cur hfields).mp hright.inside, ?_⟩
    rw [← hlen]
    exact (enumerated_iff hperm hindex).mp hright.enumerated
  · intro hstore
    refine ⟨hfound.mpr hstore.fields, ?_, (inside_ends_iff hlines hholds h.cur hstore.fields).mpr hstore.ends, ?_⟩
    · exact (hholds.items_perm.map RRegItem.name).nodup_iff.mpr hholds.names
    · exact (enumerated_iff hperm hindex).mpr (hlen ▸ hstore.indexed)

/-- After any profiles, the registers of an accepted one are found where its lines put them exactly when
its fields and ends fit an `int` and none of its registers is a flag. -/
theorem lookup_iff {bigEndian : Bool} {strs : List CStr} {s s' : IndexedReg} {str : CStr}
    (hrun : setProfiles (indexedNew bigEndian) strs = some s) (h : setProfile s str = some (s', true)) :
    LookupRight s' str ↔ Storable str := by
  have hnew : KeepsLoaded (indexedNew bigEndian) := fun other hother => by cases hother
  obtain ⟨hkeeps, hstr⟩ := setProfile_loaded (setProfiles_loaded hnew hrun) h
  exact (hkeeps str (hstr rfl)).lookupRight_iff

end Condition

/-- The definition that a line has to have. -/
def Definition.fits (d : Definition) : Bool :=
  d.type ≠ .flg ∧ d.size < 2147483648 ∧ d.offset < 2147483648 ∧ d.packedSize < 2147483648

instance (str : CStr) : Decidable (Storable str) :=
  decidable_of_iff ((∀ line ∈ definitionLines str, (definitionOf line).any Definition.fits = true) ∧
    (∀ d ∈ definitions str, ∃ e ∈ definitions str, e.type = d.type ∧ e.offset + e.size < 2147483648 ∧
      (d.offset + d.size + 7) / 8 ≤ (e.offset + e.size + 7) / 8) ∧
    (definitionLines str).length ≤ 2147483648) (by
      simp only [Option.any_eq_true, Definition.fits, decide_eq_true_iff]
      exact ⟨fun h => ⟨h.1, h.2.1, h.2.2⟩, fun h => ⟨h.fields, h.ends, h.indexed⟩⟩)

/-- The register file that a profile makes of a new one, with its index. -/
def indexed (bigEndian : Bool) (str : CStr) : IndexedReg :=
  ((setProfile (indexedNew bigEndian) str).map Prod.fst).getD (indexedNew bigEndian)

theorem indexed_eq {bigEndian : Bool} {str : CStr}
    (h : (setProfile (indexedNew bigEndian) str).map Prod.snd = some true) :
    setProfile (indexedNew bigEndian) str = some (indexed bigEndian str, true) := by
  obtain ⟨r, hr, hsnd⟩ := Option.map_eq_some_iff.mp h
  rw [indexed, hr, ← hsnd]
  rfl

/-- Overlapping registers in bits and in bytes, and one of another type. -/
theorem lookup_iff_eax :
    LookupRight (indexed false "=PC eip\ngpr eax .32 0x0 0\ngpr ah .8 1 0 # high\nfpu st0 8 0 010\n".toList)
      "=PC eip\ngpr eax .32 0x0 0\ngpr ah .8 1 0 # high\nfpu st0 8 0 010\n".toList := by
  have hrun : setProfiles (indexedNew false) [] = some (indexedNew false) := rfl
  exact (lookup_iff hrun (indexed_eq (by decide +kernel))).mpr (by decide)

/-- The register of `flg zf .1 0 0` is not found with its own type. -/
theorem flag_not_found :
    (setProfile (indexedNew false) "flg zf .1 0 0\n".toList).map Prod.snd = some true ∧
      ¬LookupRight (indexed false "flg zf .1 0 0\n".toList) "flg zf .1 0 0\n".toList := by
  refine ⟨by decide, fun hright => ?_⟩
  have hline : ["flg", "zf", ".1", "0", "0"].map String.toList ∈ definitionLines "flg zf .1 0 0\n".toList := by
    decide
  have hread : definitionOf (["flg", "zf", ".1", "0", "0"].map String.toList) =
      some { type := .flg, name := "zf".toList, size := 1, offset := 0, packedSize := 0 } := by decide
  have hnone : rRegGet (indexed false "flg zf .1 0 0\n".toList).reg "zf".toList (some .flg) = none := by decide
  obtain ⟨d, item, hd, hmade, -, htype⟩ := hright.found _ hline
  cases hd.symm.trans hread
  rw [hmade.type, hnone] at htype
  cases htype

end Radare.Reg
