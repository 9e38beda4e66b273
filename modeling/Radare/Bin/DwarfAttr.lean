import Radare.Bin.Dwarf
import Radare.Framework.TextBuffer
import Radare.Framework.Windows
import Radare.Util.Leb128Codec

namespace Radare.Dwarf

open Framework Framework.Leb128 Framework.TextBuffer

/-- `RBinDwarfAttrEnc`, by the member of the union that was written last; `data` and `string` are blocks
of their own, `none` for the null pointer. -/
inductive RBinDwarfAttrEnc where
  | cleared
  | address (v : Ut64)
  | block (length : Ut64) (data : Option (List Ut8))
  | flag (v : Ut8)
  | data (v : Ut64)
  | sdata (v : Ut64)
  | reference (v : Ut64)
  | strStruct (string : Option (List Ut8)) (offset : Ut64)

structure RBinDwarfAttrSpec where
  attrName : Ut64
  attrForm : Ut64

structure RBinDwarfAttrValue where
  name : Ut64
  form : Ut64
  encoding : RBinDwarfAttrEnc

/-- `RBinDwarfCompUnitHdr`, as far as the attributes read it. -/
structure RBinDwarfCompUnitHdr where
  pointerSize : Ut8

/-- `.debug_str` and its length. -/
structure DebugStr where
  bytes : List Ut8
  len : Nat

/-- `READ` at the place `pos` of the buffer. A read outside the buffer is undefined. -/
def readAt (obuf : List Ut8) (obufLen : Int) (size pos : Nat) : Option (Ut64 × Nat) :=
  if ((pos + size : Nat) : Int) < obufLen then
    if pos + size ≤ obuf.length then some (BitVec.ofNat 64 (leNat (window obuf pos size)), pos + size) else none
  else some (0, pos + size)

/-- The loop that fills `block.data`, with `n` bytes to go. -/
def readBlock (obuf : List Ut8) (obufLen : Int) : Nat → Nat → Option (List Ut8 × Nat)
  | 0, pos => some ([], pos)
  | n + 1, pos => do
    let (b, pos) ← readAt obuf obufLen 1 pos
    let (bytes, pos) ← readBlock obuf obufLen n pos
    some (b.setWidth 8 :: bytes, pos)

/-- A copy of the string at a place. -/
def copyString (mem : List Ut8) (pos : Nat) : Option (List Ut8) :=
  (strlenAt 0 mem pos).map (fun _ => textAt 0 mem pos)

/-- The forms of one number: the bytes of the number, and the member it goes to. -/
def readNumber (obuf : List Ut8) (obufLen : Int) (size : Nat) (enc : Ut64 → RBinDwarfAttrEnc) :
    Option (RBinDwarfAttrEnc × Option Nat) := do
  let (v, pos) ← readAt obuf obufLen size 0
  some (enc v, some pos)

/-- `DW_FORM_block2` and `DW_FORM_block4`; an empty block is left null. -/
def readBlockNumber (obuf : List Ut8) (obufLen : Int) (size : Nat) : Option (RBinDwarfAttrEnc × Option Nat) := do
  let (length, pos) ← readAt obuf obufLen size 0
  if length.toNat > 0 then do
    let (bytes, pos) ← readBlock obuf obufLen length.toNat pos
    some (.block length (some bytes), some pos)
  else some (.block length none, some pos)

/-- The pointer that `r_uleb128` and `r_leb128` return, as a place of the buffer. -/
def placeOf (obuf rest : List Ut8) : Nat := obuf.length - rest.length

/-- The `switch` of `r_bin_dwarf_parse_attr_value`: what is stored, and the pointer that is returned. -/
def parseAttrEnc (obuf : List Ut8) (obufLen : Int) (form : Nat) (hdr : RBinDwarfCompUnitHdr)
    (debugStr : Option DebugStr) : Option (RBinDwarfAttrEnc × Option Nat) :=
  match form with
  | 0x01 =>
    match hdr.pointerSize.toNat with
    | 1 => readNumber obuf obufLen 1 .address
    | 2 => readNumber obuf obufLen 2 .address
    | 4 => readNumber obuf obufLen 4 .address
    | 8 => readNumber obuf obufLen 8 .address
    | _ => some (.cleared, none)
  | 0x03 => readBlockNumber obuf obufLen 2
  | 0x04 => readBlockNumber obuf obufLen 4
  | 0x05 => readNumber obuf obufLen 2 .data
  | 0x06 => readNumber obuf obufLen 4 .data
  | 0x07 => readNumber obuf obufLen 8 .data
  | 0x08 => do
    let c ← obuf[0]?
    let len ← strlenAt 0 obuf 0
    some (.strStruct (if c ≠ 0 then some (textAt 0 obuf 0) else none) 0, some (len + 1))
  | 0x09 => do
    let (length, buf) ← rUleb128Len obuf obufLen
    match buf with
    | none => some (.block length none, none)
    | some buf => do
      let (bytes, pos) ← readBlock obuf obufLen length.toNat (placeOf obuf buf)
      some (.block length (some bytes), some pos)
  | 0x0a => do
    let (length, pos) ← readAt obuf obufLen 1 0
    let (bytes, pos) ← readBlock obuf obufLen length.toNat pos
    -- one byte more than the block is allocated
    some (.block length (some (bytes ++ [0])), some pos)
  | 0x0c => readNumber obuf obufLen 1 (fun v => .flag (v.setWidth 8))
  | 0x0d => do
    let (v, buf) ← rLeb128 obuf
    some (.sdata v, some (placeOf obuf buf))
  | 0x0e => do
    let (offset, pos) ← readAt obuf obufLen 4 0
    match debugStr with
    | none => some (.strStruct none offset, some pos)
    | some s =>
      if offset.toNat < s.len then do
        let string ← copyString s.bytes offset.toNat
        some (.strStruct (some string) offset, some pos)
      else some (.strStruct none offset, some pos)
  | 0x0f => do
    let (v, buf) ← rUleb128Len obuf obufLen
    some (.data v, buf.map (placeOf obuf))
  | 0x10 => readNumber obuf obufLen 8 .reference
  | 0x11 => readNumber obuf obufLen 1 .reference
  | 0x12 => readNumber obuf obufLen 2 .reference
  | 0x13 => readNumber obuf obufLen 4 .reference
  | 0x14 => readNumber obuf obufLen 8 .reference
  | 0x0b => readNumber obuf obufLen 1 .data
  | _ => some (.cleared, some 0)

/-- `r_bin_dwarf_parse_attr_value`, without null arguments. -/
def parseAttrValue (obuf : List Ut8) (obufLen : Int) (spec : RBinDwarfAttrSpec) (hdr : RBinDwarfCompUnitHdr)
    (debugStr : Option DebugStr) : Option (RBinDwarfAttrValue × Option Nat) :=
  if obufLen < 0 then some (⟨spec.attrName, spec.attrForm, .cleared⟩, none)
  else do
    let (enc, buf) ← parseAttrEnc obuf obufLen spec.attrForm.toNat hdr debugStr
    some (⟨spec.attrName, spec.attrForm, enc⟩, buf)

/-- The forms of a number of fixed length. -/
inductive NumberForm where
  | addr1 | addr2 | addr4 | addr8 | data1 | data2 | data4 | data8 | ref1 | ref2 | ref4 | ref8 | flag

namespace NumberForm

def size : NumberForm → Nat
  | addr1 | data1 | ref1 | flag => 1
  | addr2 | data2 | ref2 => 2
  | addr4 | data4 | ref4 => 4
  | addr8 | data8 | ref8 => 8

def code : NumberForm → Nat
  | addr1 | addr2 | addr4 | addr8 => 0x01
  | data1 => 0x0b
  | data2 => 0x05
  | data4 => 0x06
  | data8 => 0x07
  | ref1 => 0x11
  | ref2 => 0x12
  | ref4 => 0x13
  | ref8 => 0x14
  | flag => 0x0c

def enc : NumberForm → Ut64 → RBinDwarfAttrEnc
  | addr1 | addr2 | addr4 | addr8 => .address
  | data1 | data2 | data4 | data8 => .data
  | ref1 | ref2 | ref4 | ref8 => .reference
  | flag => fun v => .flag (v.setWidth 8)

/-- An address has as many bytes as the header says. -/
def Suits (hdr : RBinDwarfCompUnitHdr) : NumberForm → Prop
  | addr1 => hdr.pointerSize = 1
  | addr2 => hdr.pointerSize = 2
  | addr4 => hdr.pointerSize = 4
  | addr8 => hdr.pointerSize = 8
  | _ => True

end NumberForm

inductive BlockForm where
  | block | block1 | block2 | block4

namespace BlockForm

def code : BlockForm → Nat
  | block => 0x09
  | block1 => 0x0a
  | block2 => 0x03
  | block4 => 0x04

/-- The length in front of a block. -/
def lengthBytes (n : Nat) : BlockForm → List Ut8
  | block => ulebEncode n
  | block1 => leBytes 1 n
  | block2 => leBytes 2 n
  | block4 => leBytes 4 n

/-- The lengths that stand in front of a block of the form. -/
def bound : BlockForm → Nat
  | block => 256 ^ 8
  | block1 => 256
  | block2 => 256 ^ 2
  | block4 => 256 ^ 4

end BlockForm

/-- A value of one of the forms. -/
inductive Attr where
  | number (f : NumberForm) (v : Nat) (h : v < 256 ^ f.size)
  | udata (v : Ut64)
  | sdata (v : Ut64)
  | string (s : List Ut8) (h : (0 : Ut8) ∉ s)
  | block (f : BlockForm) (bytes : List Ut8) (h : bytes.length < f.bound)

namespace Attr

def code : Attr → Nat
  | number f _ _ => f.code
  | udata _ => 0x0f
  | sdata _ => 0x0d
  | string _ _ => 0x08
  | block f _ _ => f.code

def encode : Attr → List Ut8
  | number f v _ => leBytes f.size v
  | udata v => ulebEncode v.toNat
  | sdata v => slebEncode v.toInt
  | string s _ => s ++ [0]
  | block f bytes _ => f.lengthBytes bytes.length ++ bytes

def Suits (hdr : RBinDwarfCompUnitHdr) : Attr → Prop
  | number f _ _ => f.Suits hdr
  | _ => True

/-- The value as the union holds it; an empty string and an empty block may be a null pointer. -/
def Stored (enc : RBinDwarfAttrEnc) : Attr → Prop
  | number f v _ => enc = f.enc (BitVec.ofNat 64 v)
  | udata v => enc = .data v
  | sdata v => enc = .sdata v
  | string s _ => ∃ string, enc = .strStruct string 0 ∧ string.getD [] = s
  | block _ bytes _ => ∃ data, enc = .block (BitVec.ofNat 64 bytes.length) data ∧
      (data.getD []).take bytes.length = bytes

/-- What has to hold where the bytes `rest` follow the encoding. -/
def Fits (rest : List Ut8) : Attr → Prop
  | number _ v _ => rest ≠ [] ∨ v = 0
  | udata v => v.toNat < 2 ^ 32
  | sdata v => v.toInt ≠ 0 ∧ ∀ k : Nat, ¬(2 ^ (7 * k + 6) ≤ v.toInt ∧ v.toInt < 2 ^ (7 * k + 7))
  | string _ _ => True
  | block _ bytes _ => rest ≠ [] ∨ ∀ b ∈ bytes.getLast?, b = 0

end Attr

section Read

variable {obuf : List Ut8} {size pos : Nat}

theorem readAt_inside (h : pos + size < obuf.length) :
    readAt obuf obuf.length size pos = some (BitVec.ofNat 64 (leNat (window obuf pos size)), pos + size) := by
  rw [readAt, if_pos (Int.ofNat_lt.mpr h), if_pos (Nat.le_of_lt h)]

/-- The last bytes of the buffer are not read. -/
theorem readAt_last (h : obuf.length ≤ pos + size) : readAt obuf obuf.length size pos = some (0, pos + size) := by
  rw [readAt, if_neg (by omega)]

theorem window_start (bs rest : List Ut8) : window (bs ++ rest) 0 bs.length = bs := by
  rw [window, List.drop_zero, List.take_left]

/-- A number at the start of the buffer. -/
theorem readAt_number {v : Nat} (hv : v < 256 ^ size) (rest : List Ut8) :
    readAt (leBytes size v ++ rest) (leBytes size v ++ rest).length size 0 =
      some (if rest = [] then 0 else BitVec.ofNat 64 v, size) := by
  have hlen := leBytes_length size v
  by_cases hrest : rest = []
  · rw [if_pos hrest, readAt_last (by simp [hrest, hlen]), Nat.zero_add]
  · have hpos := List.length_pos_of_ne_nil hrest
    have hwindow := window_start (leBytes size v) rest
    rw [hlen] at hwindow
    rw [if_neg hrest, readAt_inside (by rw [List.length_append]; omega), hwindow, leNat_leBytes, Nat.mod_eq_of_lt hv,
      Nat.zero_add]

/-- What is read of a block at the end of the buffer. -/
def lastLost : List Ut8 → List Ut8
  | [] => []
  | [_] => [0]
  | b :: c :: bs => b :: lastLost (c :: bs)

theorem lastLost_cons (b c : Ut8) (bs : List Ut8) : lastLost (b :: c :: bs) = b :: lastLost (c :: bs) := rfl

theorem lastLost_eq_iff (bs : List Ut8) : lastLost bs = bs ↔ ∀ b ∈ bs.getLast?, b = 0 := by
  induction bs with
  | nil => simp [lastLost]
  | cons b bs ih =>
    cases bs with
    | nil =>
      rw [List.getLast?_singleton]
      constructor
      · intro h c hc
        rw [← Option.some.inj hc]
        exact (List.cons.inj h).1.symm
      · intro h
        rw [h b rfl]
        rfl
    | cons c bs =>
      rw [lastLost_cons, List.cons.injEq, and_iff_right rfl, ih, List.getLast?_cons_cons]

theorem readAt_byte (pre rest : List Ut8) (b : Ut8) (h : rest ≠ []) :
    readAt (pre ++ b :: rest) (pre ++ b :: rest).length 1 pre.length = some (b.setWidth 64, pre.length + 1) := by
  have hpos := List.length_pos_of_ne_nil h
  have hwindow : window (pre ++ b :: rest) pre.length 1 = [b] := by
    rw [window, List.drop_left]
    rfl
  rw [readAt_inside (by rw [List.length_append, List.length_cons]; omega), hwindow, leNat_cons, leNat_nil,
    Nat.mul_zero, Nat.add_zero, BitVec.ofNat_toNat]

/-- A block in the buffer. -/
theorem readBlock_eq (pre bytes rest : List Ut8) :
    readBlock (pre ++ (bytes ++ rest)) (pre ++ (bytes ++ rest)).length bytes.length pre.length =
      some (if rest = [] then lastLost bytes else bytes, pre.length + bytes.length) := by
  induction bytes generalizing pre with
  | nil => simp [readBlock, lastLost]
  | cons b bytes ih =>
    have hnext := ih (pre ++ [b])
    have hplace : (pre ++ [b]).length = pre.length + 1 := by simp
    rw [List.append_assoc, List.singleton_append, hplace] at hnext
    rw [List.length_cons, readBlock, List.cons_append]
    by_cases hend : bytes ++ rest = []
    · obtain ⟨rfl, rfl⟩ := List.append_eq_nil_iff.mp hend
      rw [readAt_last (by simp)]
      rfl
    · rw [readAt_byte pre _ b hend, Option.bind_eq_bind, Option.bind_some]
      dsimp only
      rw [hnext, Option.bind_eq_bind, Option.bind_some, BitVec.setWidth_setWidth_of_le _ (by decide), BitVec.setWidth_eq,
        Nat.add_right_comm, Nat.add_assoc]
      by_cases hrest : rest = []
      · rw [hrest, List.append_nil] at hend
        obtain ⟨c, bs, rfl⟩ := List.exists_cons_of_ne_nil hend
        rw [if_pos hrest, if_pos hrest, lastLost_cons]
      · rw [if_neg hrest, if_neg hrest]

end Read

section Uleb

/-- A number below 2^32 at the start of the buffer, which may be of any length. -/
theorem rUleb128Len_start {n : Nat} (hn : n < 2 ^ 32) (rest : List Ut8) :
    rUleb128Len (ulebEncode n ++ rest) (ulebEncode n ++ rest).length = some (BitVec.ofNat 64 n, some rest) := by
  have hleb := ulebEncode_isLeb n
  have hshort : (ulebEncode n).length ≤ 5 := ulebEncode_length (by omega : n < 128 ^ (4 + 1))
  have hpos := List.length_pos_of_ne_nil hleb.ne_nil
  have hvalue := ulebValue_encode n
  by_cases hmax : ((ulebEncode n ++ rest).length : Int) = 2147483647
  · rw [hmax, rUleb128Len_max (List.append_ne_nil_of_left_ne_nil hleb.ne_nil rest),
      rUleb128_eq _ rest hleb hshort (by rw [hvalue]; omega), hvalue]
    rfl
  · have hdata : ((ulebEncode n ++ rest).length : Int) > 0 := by
      rw [List.length_append]
      omega
    rcases Nat.eq_zero_or_pos n with hzero | hnpos
    · have hcode : ulebEncode n = [0] := by rw [hzero]; simp [ulebEncode]
      simp only [rUleb128Len]
      rw [if_neg hmax, if_neg (Int.lt_asymm hdata), if_pos hdata, hcode]
      simp [hzero]
    · obtain ⟨b, bs, hcode, hb⟩ := ulebEncode_head hnpos
      have hloop := rUleb128Loop_eq (ulebEncode n) rest (ulebEncode n ++ rest).length 0 0 hleb
        (by rw [List.length_append]; omega) (by omega) (by decide) (by rw [hvalue]; simpa using hn)
      simp only [rUleb128Len]
      rw [if_neg hmax, if_neg (Int.lt_asymm hdata), if_pos hdata, Int.toNat_natCast]
      rw [hcode, List.cons_append] at hloop ⊢
      dsimp only
      rw [if_pos hb, hloop, ← hcode, hvalue]
      simp

/-- What is read is a number of 32 bits. -/
theorem rUleb128Len_lt {data : List Ut8} {datalen : Int} {v : Ut64} {rest : Option (List Ut8)}
    (h : rUleb128Len data datalen = some (v, rest)) : v.toNat < 2 ^ 32 := by
  have hzero : ∀ {r : Option (List Ut8)}, some ((0 : Ut64), r) = some (v, rest) → v.toNat < 2 ^ 32 := by
    intro r hr
    rw [← (Prod.mk.inj (Option.some.inj hr)).1]
    decide
  simp only [rUleb128Len] at h
  by_cases hneg : (if datalen = 2147483647 then 0xffff else datalen) < 0
  · rw [if_pos hneg] at h
    exact hzero h
  · rw [if_neg hneg] at h
    by_cases hpos : (if datalen = 2147483647 then 0xffff else datalen) > 0
    · rw [if_pos hpos] at h
      cases data with
      | nil => cases h
      | cons b data =>
        dsimp only at h
        by_cases hb : b ≠ 0
        · rw [if_pos hb] at h
          obtain ⟨⟨sum, left⟩, hloop, heq⟩ := Option.map_eq_some_iff.mp h
          rw [← (Prod.mk.inj heq).1]
          exact rUleb128Loop_lt (by decide) hloop
        · rw [if_neg hb] at h
          exact hzero h
    · rw [if_neg hpos] at h
      exact hzero h

end Uleb

section Forms

variable {obuf : List Ut8} {obufLen : Int} {hdr : RBinDwarfCompUnitHdr} {debugStr : Option DebugStr}

theorem parseAttrEnc_number {f : NumberForm} (hs : f.Suits hdr) :
    parseAttrEnc obuf obufLen f.code hdr debugStr = readNumber obuf obufLen f.size f.enc := by
  cases f with
  | addr1 | addr2 | addr4 | addr8 =>
    simp only [NumberForm.Suits] at hs
    simp only [NumberForm.code, parseAttrEnc, hs]
    rfl
  | _ => rfl

theorem readNumber_eq {v size : Nat} (hv : v < 256 ^ size) (enc : Ut64 → RBinDwarfAttrEnc) (rest : List Ut8) :
    readNumber (leBytes size v ++ rest) (leBytes size v ++ rest).length size enc =
      some (enc (if rest = [] then 0 else BitVec.ofNat 64 v), some size) := by
  rw [readNumber, readAt_number hv, Option.bind_eq_bind, Option.bind_some]

/-- The member holds the whole number. -/
theorem enc_zero_iff {f : NumberForm} {v : Nat} (hv : v < 256 ^ f.size) : f.enc 0 = f.enc (BitVec.ofNat 64 v) ↔ v = 0 := by
  have hinj : ∀ {w : Nat}, v < 2 ^ w → ((0 : BitVec w) = BitVec.ofNat w v ↔ v = 0) := by
    intro w hw
    rw [← BitVec.toNat_inj, BitVec.toNat_ofNat, Nat.mod_eq_of_lt hw]
    exact eq_comm
  have hwide : v < 2 ^ 64 := by
    refine lt_of_lt_of_le hv ?_
    cases f <;> decide
  cases f with
  | addr1 | addr2 | addr4 | addr8 => exact RBinDwarfAttrEnc.address.injEq _ _ ▸ hinj hwide
  | data1 | data2 | data4 | data8 => exact RBinDwarfAttrEnc.data.injEq _ _ ▸ hinj hwide
  | ref1 | ref2 | ref4 | ref8 => exact RBinDwarfAttrEnc.reference.injEq _ _ ▸ hinj hwide
  | flag =>
    have hflag : (BitVec.ofNat 64 v).setWidth 8 = BitVec.ofNat 8 v := BitVec.setWidth_ofNat_of_le (by decide) v
    show RBinDwarfAttrEnc.flag ((0 : Ut64).setWidth 8) = RBinDwarfAttrEnc.flag ((BitVec.ofNat 64 v).setWidth 8) ↔ _
    rw [RBinDwarfAttrEnc.flag.injEq, hflag]
    exact hinj hv

theorem length_lastLost (bs : List Ut8) : (lastLost bs).length = bs.length := by
  induction bs with
  | nil => rfl
  | cons b bs ih =>
    cases bs with
    | nil => rfl
    | cons c bs =>
      rw [lastLost_cons, List.length_cons, ih]
      rfl

/-- The bytes that are stored for a block. -/
def seenBytes (bytes rest : List Ut8) : List Ut8 := if rest = [] then lastLost bytes else bytes

theorem length_seenBytes (bytes rest : List Ut8) : (seenBytes bytes rest).length = bytes.length := by
  unfold seenBytes
  split_ifs
  · exact length_lastLost bytes
  · rfl

theorem toNat_length {n : Nat} (h : n < 2 ^ 32) : (BitVec.ofNat 64 n).toNat = n := by
  rw [BitVec.toNat_ofNat]
  omega

/-- The number in front of a block is read right, as there is nothing at all behind it only in front of an empty one. -/
theorem readAt_length {size : Nat} (bytes rest : List Ut8) (hfit : bytes.length < 256 ^ size) :
    readAt (leBytes size bytes.length ++ (bytes ++ rest)) (leBytes size bytes.length ++ (bytes ++ rest)).length size 0 =
      some (BitVec.ofNat 64 bytes.length, size) := by
  rw [readAt_number hfit]
  by_cases hnone : bytes ++ rest = []
  · rw [if_pos hnone, (List.append_eq_nil_iff.mp hnone).1]
    rfl
  · rw [if_neg hnone]

theorem readBlock_behind {header : List Ut8} (bytes rest : List Ut8) {n : Nat} (hn : header.length = n) :
    readBlock (header ++ (bytes ++ rest)) (header ++ (bytes ++ rest)).length bytes.length n =
      some (seenBytes bytes rest, n + bytes.length) := by
  rw [← hn, readBlock_eq]
  rfl

theorem readBlockNumber_eq (size : Nat) (bytes rest : List Ut8) (hfit : bytes.length < 256 ^ size)
    (hlen : bytes.length < 2 ^ 32) :
    ∃ data, readBlockNumber (leBytes size bytes.length ++ (bytes ++ rest))
        (leBytes size bytes.length ++ (bytes ++ rest)).length size =
      some (.block (BitVec.ofNat 64 bytes.length) data, some (size + bytes.length)) ∧
      data.getD [] = seenBytes bytes rest := by
  have hblock := readBlock_behind bytes rest (leBytes_length size bytes.length)
  rw [readBlockNumber, readAt_length bytes rest hfit, Option.bind_eq_bind, Option.bind_some]
  dsimp only
  rw [toNat_length hlen]
  by_cases hpos : bytes.length > 0
  · rw [if_pos hpos, hblock, Option.bind_eq_bind, Option.bind_some]
    exact ⟨_, rfl, rfl⟩
  · have hnil : bytes = [] := List.eq_nil_of_length_eq_zero (by omega)
    rw [if_neg hpos]
    refine ⟨none, by rw [hnil]; rfl, ?_⟩
    rw [seenBytes, hnil]
    exact (ite_self _).symm

theorem parseAttrEnc_block (f : BlockForm) (bytes rest : List Ut8) (hfit : bytes.length < f.bound)
    (hlen : bytes.length < 2 ^ 32) :
    ∃ data, parseAttrEnc (f.lengthBytes bytes.length ++ (bytes ++ rest))
        (f.lengthBytes bytes.length ++ (bytes ++ rest)).length f.code hdr debugStr =
      some (.block (BitVec.ofNat 64 bytes.length) data, some ((f.lengthBytes bytes.length).length + bytes.length)) ∧
      (data.getD []).take bytes.length = seenBytes bytes rest := by
  have htake : ∀ more, (seenBytes bytes rest ++ more).take bytes.length = seenBytes bytes rest :=
    fun more => List.take_left' (length_seenBytes bytes rest)
  have hwhole : ∀ {data : Option (List Ut8)}, data.getD [] = seenBytes bytes rest →
      (data.getD []).take bytes.length = seenBytes bytes rest := by
    intro data hdata
    rw [hdata]
    exact List.take_of_length_le (Nat.le_of_eq (length_seenBytes bytes rest))
  cases f with
  | block =>
    have hplace : placeOf (ulebEncode bytes.length ++ (bytes ++ rest)) (bytes ++ rest) = (ulebEncode bytes.length).length := by
      rw [placeOf, List.length_append, Nat.add_sub_cancel]
    refine ⟨some (seenBytes bytes rest), ?_, hwhole rfl⟩
    simp only [BlockForm.code, BlockForm.lengthBytes, parseAttrEnc]
    rw [rUleb128Len_start hlen, Option.bind_eq_bind, Option.bind_some]
    dsimp only
    rw [toNat_length hlen, hplace, readBlock_behind bytes rest rfl]
    rfl
  | block1 =>
    refine ⟨some (seenBytes bytes rest ++ [0]), ?_, htake [0]⟩
    simp only [BlockForm.code, BlockForm.lengthBytes, parseAttrEnc]
    rw [readAt_length bytes rest hfit, Option.bind_eq_bind, Option.bind_some]
    dsimp only
    rw [toNat_length hlen, readBlock_behind bytes rest (leBytes_length 1 bytes.length), leBytes_length]
    rfl
  | block2 =>
    obtain ⟨data, hrun, hdata⟩ := readBlockNumber_eq 2 bytes rest hfit hlen
    exact ⟨data, by rw [BlockForm.lengthBytes, leBytes_length]; exact hrun, hwhole hdata⟩
  | block4 =>
    obtain ⟨data, hrun, hdata⟩ := readBlockNumber_eq 4 bytes rest hfit hlen
    exact ⟨data, by rw [BlockForm.lengthBytes, leBytes_length]; exact hrun, hwhole hdata⟩

end Forms

/-- What the `switch` does with an encoding at the start of the buffer. -/
def AttrRead (a : Attr) (rest : List Ut8) (hdr : RBinDwarfCompUnitHdr) (debugStr : Option DebugStr) : Prop :=
  ∃ enc, parseAttrEnc (a.encode ++ rest) (a.encode ++ rest).length a.code hdr debugStr =
    some (enc, some a.encode.length) ∧ a.Stored enc

section Read

variable {rest : List Ut8} {hdr : RBinDwarfCompUnitHdr} {debugStr : Option DebugStr}

theorem attrRead_number (f : NumberForm) {v : Nat} (hv : v < 256 ^ f.size) (hs : f.Suits hdr) :
    AttrRead (.number f v hv) rest hdr debugStr ↔ rest ≠ [] ∨ v = 0 := by
  unfold AttrRead
  simp only [Attr.encode, Attr.code, Attr.Stored, parseAttrEnc_number hs, leBytes_length]
  have hrun := readNumber_eq hv f.enc rest
  have hiff : (∃ enc, readNumber (leBytes f.size v ++ rest) (leBytes f.size v ++ rest).length f.size f.enc =
      some (enc, some f.size) ∧ enc = f.enc (BitVec.ofNat 64 v)) ↔
      f.enc (if rest = [] then 0 else BitVec.ofNat 64 v) = f.enc (BitVec.ofNat 64 v) := by
    rw [hrun]
    constructor
    · rintro ⟨enc, henc, rfl⟩
      exact (Prod.mk.inj (Option.some.inj henc)).1
    · intro h
      exact ⟨_, rfl, h⟩
  rw [hiff]
  by_cases hrest : rest = []
  · rw [if_pos hrest, enc_zero_iff hv, or_iff_right (not_not_intro hrest)]
  · rw [if_neg hrest]
    exact iff_of_true rfl (Or.inl hrest)

theorem attrRead_udata (v : Ut64) : AttrRead (.udata v) rest hdr debugStr ↔ v.toNat < 2 ^ 32 := by
  unfold AttrRead
  simp only [Attr.encode, Attr.code, Attr.Stored, parseAttrEnc]
  constructor
  · rintro ⟨enc, hrun, rfl⟩
    obtain ⟨⟨w, buf⟩, hread, heq⟩ := Option.bind_eq_some_iff.mp hrun
    have hw : w = v := RBinDwarfAttrEnc.data.inj (Prod.mk.inj (Option.some.inj heq)).1
    rw [← hw]
    exact rUleb128Len_lt hread
  · intro hv
    refine ⟨.data v, ?_, rfl⟩
    rw [rUleb128Len_start hv, Option.bind_eq_bind, Option.bind_some, BitVec.ofNat_toNat, BitVec.setWidth_eq,
      Option.map_some, placeOf, List.length_append, Nat.add_sub_cancel]

theorem attrRead_sdata (v : Ut64) : AttrRead (.sdata v) rest hdr debugStr ↔
    v.toInt ≠ 0 ∧ ∀ k : Nat, ¬(2 ^ (7 * k + 6) ≤ v.toInt ∧ v.toInt < 2 ^ (7 * k + 7)) := by
  have hleb := slebEncode_isLeb v.toInt
  have hpos := List.length_pos_of_ne_nil hleb.ne_nil
  have hlen : (slebEncode v.toInt).length ≤ 10 := by
    have hlow := v.le_toInt
    have hhigh := v.toInt_lt
    exact slebEncode_length (k := 9) (by omega)
  rw [← not_exists, ← not_or, ← slebEncode_getLast_zero]
  unfold AttrRead
  simp only [Attr.encode, Attr.code, Attr.Stored, parseAttrEnc]
  constructor
  · rintro ⟨enc, hrun, -⟩ hlast
    obtain ⟨⟨w, buf⟩, hread, heq⟩ := Option.bind_eq_some_iff.mp hrun
    rw [rLeb128, Option.map_eq_some_iff] at hread
    obtain ⟨⟨s, sum, c, data⟩, hloop, hres⟩ := hread
    have hdata := rLeb128Loop_stops hleb hlast hloop
    have hplace := Option.some.inj (Prod.mk.inj (Option.some.inj heq)).2
    rw [← (Prod.mk.inj hres).2, hdata, placeOf, List.length_append, List.length_cons] at hplace
    omega
  · intro hlast
    refine ⟨.sdata v, ?_, rfl⟩
    rw [rLeb128_eq _ rest hleb hlast hlen, slebValue_encode, BitVec.ofInt_toInt, Option.bind_eq_bind, Option.bind_some,
      placeOf, List.length_append, Nat.add_sub_cancel]

theorem attrRead_string {s : List Ut8} (hs : (0 : Ut8) ∉ s) : AttrRead (.string s hs) rest hdr debugStr := by
  have hsplit : s ++ [0] ++ rest = s ++ 0 :: rest := by simp
  have hlen := strlenAt_start hs rest
  have htext : textAt 0 (s ++ 0 :: rest) 0 = s := textAt_eq hs [] rest
  unfold AttrRead
  simp only [Attr.encode, Attr.code, Attr.Stored, parseAttrEnc, hsplit, hlen, htext]
  cases s with
  | nil => exact ⟨.strStruct none 0, rfl, none, rfl, rfl⟩
  | cons c s =>
    have hc : c ≠ 0 := fun h => hs (h ▸ List.mem_cons_self)
    refine ⟨.strStruct (some (c :: s)) 0, ?_, some (c :: s), rfl, rfl⟩
    rw [List.cons_append, List.getElem?_cons_zero, Option.bind_eq_bind, Option.bind_some, Option.bind_eq_bind,
      Option.bind_some, if_pos hc, List.length_append]
    rfl

theorem attrRead_block (f : BlockForm) {bytes : List Ut8} (hfit : bytes.length < f.bound) (hlen : bytes.length < 2 ^ 32) :
    AttrRead (.block f bytes hfit) rest hdr debugStr ↔ rest ≠ [] ∨ ∀ b ∈ bytes.getLast?, b = 0 := by
  obtain ⟨data, hrun, hdata⟩ := @parseAttrEnc_block hdr debugStr f bytes rest hfit hlen
  rw [← List.length_append] at hrun
  have hiff : AttrRead (.block f bytes hfit) rest hdr debugStr ↔ seenBytes bytes rest = bytes := by
    unfold AttrRead
    simp only [Attr.encode, Attr.code, Attr.Stored, List.append_assoc, hrun]
    constructor
    · rintro ⟨enc, henc, data', rfl, hstored⟩
      have hsame := (RBinDwarfAttrEnc.block.inj (Prod.mk.inj (Option.some.inj henc)).1).2
      rw [← hsame, hdata] at hstored
      exact hstored
    · intro hseen
      exact ⟨_, rfl, data, rfl, by rw [hdata, hseen]⟩
  rw [hiff, seenBytes]
  by_cases hrest : rest = []
  · rw [if_pos hrest, lastLost_eq_iff, or_iff_right (not_not_intro hrest)]
  · rw [if_neg hrest]
    exact iff_of_true rfl (Or.inl hrest)

end Read

/-- The value of an attribute is stored whole, and the cursor put behind its encoding, exactly where it fits. -/
theorem parseAttrValue_iff (a : Attr) (rest : List Ut8) (name : Ut64) (hdr : RBinDwarfCompUnitHdr)
    (debugStr : Option DebugStr) (hs : a.Suits hdr) (hlen : (a.encode ++ rest).length ≤ 2147483647) :
    (∃ value, parseAttrValue (a.encode ++ rest) (a.encode ++ rest).length ⟨name, BitVec.ofNat 64 a.code⟩ hdr debugStr =
        some (value, some a.encode.length) ∧ value.name = name ∧ value.form = BitVec.ofNat 64 a.code ∧
        a.Stored value.encoding) ↔ a.Fits rest := by
  have hcode : (BitVec.ofNat 64 a.code).toNat = a.code := by
    have hnumber : ∀ f : NumberForm, f.code < 256 := by
      intro f
      cases f <;> decide
    have hblock : ∀ f : BlockForm, f.code < 256 := by
      intro f
      cases f <;> decide
    have hsmall : a.code < 256 := by
      cases a with
      | number f v h => exact hnumber f
      | udata v => exact of_decide_eq_true rfl
      | sdata v => exact of_decide_eq_true rfl
      | string s h => exact of_decide_eq_true rfl
      | block f bytes h => exact hblock f
    rw [BitVec.toNat_ofNat]
    omega
  have hswitch : (∃ value, parseAttrValue (a.encode ++ rest) (a.encode ++ rest).length ⟨name, BitVec.ofNat 64 a.code⟩
      hdr debugStr = some (value, some a.encode.length) ∧ value.name = name ∧ value.form = BitVec.ofNat 64 a.code ∧
      a.Stored value.encoding) ↔ AttrRead a rest hdr debugStr := by
    rw [parseAttrValue, if_neg (by omega), hcode]
    constructor
    · rintro ⟨value, hrun, -, -, hstored⟩
      obtain ⟨⟨enc, buf⟩, hread, heq⟩ := Option.bind_eq_some_iff.mp hrun
      obtain ⟨rfl, rfl⟩ := Prod.mk.inj (Option.some.inj heq)
      exact ⟨enc, hread, hstored⟩
    · rintro ⟨enc, hread, hstored⟩
      exact ⟨⟨name, BitVec.ofNat 64 a.code, enc⟩, by rw [hread]; rfl, rfl, rfl, hstored⟩
  rw [hswitch]
  cases a with
  | number f v h => exact attrRead_number f h hs
  | udata v => exact attrRead_udata v
  | sdata v => exact attrRead_sdata v
  | string s h => exact iff_of_true (attrRead_string h) trivial
  | block f bytes h =>
    refine attrRead_block f h ?_
    rw [Attr.encode, List.length_append, List.length_append] at hlen
    omega

/-- A block of three bytes, with another byte behind it. -/
theorem parseAttrValue_iff_block :
    ∃ value, parseAttrValue (Attr.encode (.block .block1 [7, 8, 9] (by decide)) ++ [1])
        (Attr.encode (.block .block1 [7, 8, 9] (by decide)) ++ [1]).length ⟨2, 0x0a⟩ ⟨4⟩ none = some (value, some 4) ∧
      value.name = 2 ∧ value.form = 0x0a ∧ Attr.Stored value.encoding (.block .block1 [7, 8, 9] (by decide)) :=
  (parseAttrValue_iff (.block .block1 [7, 8, 9] (by decide)) [1] 2 ⟨4⟩ none trivial (by decide)).mpr
    (Or.inl (by decide))

/-- A flag at the end of its section is read as zero. -/
theorem parseAttrValue_last_flag :
    parseAttrValue [1] 1 ⟨2, 0x0c⟩ ⟨4⟩ none = some (⟨2, 0x0c, .flag 0⟩, some 1) ∧
      Attr.encode (.number .flag 1 (by decide)) = [1] ∧ ¬Attr.Stored (.flag 0) (.number .flag 1 (by decide)) := by
  refine ⟨rfl, by decide, ?_⟩
  intro h
  exact absurd (RBinDwarfAttrEnc.flag.inj h) (by decide)

end Radare.Dwarf
