import Radare.Util.Buffer
import Radare.Util.Num

namespace Radare.Ihex

/-- Why `ihex_parse` does not return true: it returns false, it leaves its buffers, or a record of a
type it does not know keeps it in the loop. -/
inductive Stop where
  | fail
  | undefined
  | endless
  deriving DecidableEq

/-- The conversion `%02x` or `%04x` of `sscanf`, with the rest of the input. -/
def scanHex (width : Nat) (s : CStr) : Option (Ut32 × CStr) :=
  let t := s.dropWhile isSpace
  match scanInteger 16 (t.take width) with
  | none => none
  | some (neg, v, rest) =>
    some (if neg then -BitVec.ofNat 32 v else BitVec.ofNat 32 v, rest ++ t.drop width)

/-- The format `:%02x%04x%02x` with its three masks; none where fewer than three are read. -/
def scanHeader (str : CStr) : Option (Ut8 × BitVec 16 × Ut8) := do
  let s ← scanLiteral [':'] str
  let (bc, s) ← scanHex 2 s
  let (addr, s) ← scanHex 4 s
  let (type, _) ← scanHex 2 s
  some (bc.setWidth 8, addr.setWidth 16, type.setWidth 8)

/-- `strchr (str + 1, ':')` as the distance from `str`. -/
def findEol (str : CStr) : Option Nat :=
  ((str.drop 1).findIdx? (· = ':')).map (· + 1)

/-- The string at `str + k` while there is a zero at `eol`. -/
def strAt (str : CStr) (eol : Option Nat) (k : Nat) : Except Stop CStr :=
  let e := eol.getD str.length
  if k ≤ e then .ok ((str.take e).drop k)
  else if k ≤ str.length then .ok (str.drop k)
  else .error .undefined

def scanByte (str : CStr) (eol : Option Nat) (k : Nat) : Except Stop Ut8 := do
  let s ← strAt str eol k
  match scanHex 2 s with
  | none => .error .fail
  | some (byte, _) => .ok (byte.setWidth 8)

structure State where
  secTmp : List Ut8
  secStart : Ut32
  segreg : Ut32
  nextAddr : BitVec 16
  secSize : Ut32
  rbuf : RBuffer

/-- The macro `SEC_MAX` has no brackets of its own, so the comparison with the sum comes first and
picks the number that is the condition. -/
def sectionFull (secSize : Ut32) (bc : Ut8) : Bool :=
  let inner : Ut32 := if secSize < 0x7fffffff then 1 else 0
  if secSize + bc.setWidth 32 > inner then secSize ≠ 0 else true

/-- The write of the section that is pending, if there is one. -/
def writeSection (st : State) : Except Stop State :=
  if st.secSize ≠ 0 then
    if st.secSize.toNat ≤ st.secTmp.length then
      match rBufWriteAt st.rbuf (st.secStart.setWidth 64) (st.secTmp.take st.secSize.toNat) with
      | none => .error .undefined
      | some (n, rbuf) => if n ≠ st.secSize.toNat then .error .fail else .ok { st with rbuf := rbuf }
    else .error .undefined
  else .ok st

/-- The loop over the data from byte `i` on, with the bytes that are left first. -/
def readData (str : CStr) (eol : Option Nat) (secSize : Nat) :
    Nat → Nat → List Ut8 → Ut8 → Except Stop (List Ut8 × Ut8)
  | 0, _, secTmp, cksum => .ok (secTmp, cksum)
  | left + 1, i, secTmp, cksum => do
    let byte ← scanByte str eol (9 + i * 2)
    if secSize + i < secTmp.length then
      readData str eol secSize left (i + 1) (secTmp.set (secSize + i) byte) (cksum + byte)
    else .error .undefined

/-- The test of the byte at `k`; a record that is the last has none. -/
def verifySum (str : CStr) (eol : Option Nat) (k : Nat) (cksum : Ut8) : Except Stop Unit :=
  if eol.isSome then do
    let byte ← scanByte str eol k
    if cksum + byte ≠ 0 then .error .fail else .ok ()
  else .ok ()

def headerSum (bc : Ut8) (addr : BitVec 16) (type : Ut8) : Ut8 :=
  bc + (addr >>> 8).setWidth 8 + addr.setWidth 8 + type

/-- Where the data do not follow the section, or it counts as full, it is written and another one
begins. -/
def openSection (st : State) (bc : Ut8) (addr : BitVec 16) : Except Stop State :=
  if st.nextAddr ≠ addr ∨ sectionFull st.secSize bc then
    (writeSection st).map (fun st =>
      { st with secStart := st.segreg + addr.setWidth 32, nextAddr := addr, secSize := 0 })
  else .ok st

def dataRecord (st : State) (str : CStr) (bc : Ut8) (addr : BitVec 16) :
    Except Stop (State × Option CStr) := do
  let eol := findEol str
  let st ← openSection st bc addr
  let (secTmp, cksum) ←
    readData str eol st.secSize.toNat bc.toNat 0 st.secTmp (headerSum bc addr 0)
  verifySum str eol (9 + bc.toNat * 2) cksum
  .ok ({ st with
    secTmp := secTmp
    secSize := st.secSize + bc.setWidth 32
    nextAddr := st.nextAddr + bc.setWidth 16 }, eol.map (fun k => str.drop k))

/-- The types 2 and 4; the sum of a record whose last byte is not read is one, and it fails too. -/
def baseRecord (st : State) (str : CStr) (bc : Ut8) (addr : BitVec 16) (type : Ut8) :
    Except Stop (State × Option CStr) := do
  let st ← writeSection st
  let eol := findEol str
  if bc ≠ 2 ∨ addr ≠ 0 then .error .fail
  else
    let extH ← scanByte str eol 9
    let extL ← scanByte str eol 11
    let segreg := ((extH ++ extL).setWidth 32) <<< (if type = 2 then 4 else 16)
    verifySum str eol 13 (headerSum bc addr type + extH + extL)
    .ok ({ st with secSize := 0, segreg := segreg, nextAddr := 0, secStart := segreg },
      eol.map (fun k => str.drop k))

/-- One turn of the loop: the state and the next `str`. -/
def parseRecord (st : State) (str : CStr) : Except Stop (State × Option CStr) :=
  match scanHeader str with
  | none => .error .fail
  | some (bc, addr, type) =>
    if type = 0 then dataRecord st str bc addr
    else if type = 1 then (writeSection st).map (fun st => (st, none))
    else if type = 2 ∨ type = 4 then baseRecord st str bc addr type
    else if type = 3 ∨ type = 5 then .ok (st, (findEol str).map (fun k => str.drop k))
    else .ok (st, some str)

/-- Every turn that moves `str` moves it on, so there are at most as many turns as characters. -/
def parseLoop : Nat → State → CStr → Except Stop RBuffer
  | 0, _, _ => .error .endless
  | turns + 1, st, str => do
    let (st, next) ← parseRecord st str
    match next with
    | none => .ok st.rbuf
    | some str => parseLoop turns st str

/-- `ihex_parse`, with the buffer it fills where it returns true. -/
def ihexParse (rbuf : RBuffer) (str : CStr) : Except Stop RBuffer :=
  parseLoop (str.length + 1) ⟨List.replicate 0xffff 0, 0, 0, 0, 0, rbuf⟩ str

def printBytes (upper : Bool) (bs : List Ut8) : CStr := bs.flatMap (printByte upper)

/-- The conversions `%04x` and `%04X` for sixteen bits. -/
def printHalf (upper : Bool) (x : BitVec 16) : CStr :=
  printBytes upper [(x >>> 8).setWidth 8, x.setWidth 8]

/-- The text that `fw04b` writes. -/
def fw04b (eaddr : BitVec 16) : CStr :=
  let cks : Ut8 := 0 - (6 + (eaddr >>> 8).setWidth 8 + eaddr.setWidth 8)
  [':', '0', '2', '0', '0', '0', '0', '0', '4'] ++ printHalf true eaddr ++ printByte true cks ++ ['\n']

/-- A turn of the loop of `fwblock` writes sixteen bytes. -/
def fwline (b : List Ut8) (addr : Ut32) : CStr :=
  let cks := 0 - (0x10 + (addr >>> 8).setWidth 8 + addr.setWidth 8 + (b.take 16).sum)
  [':', '1', '0'] ++ printHalf false (addr.setWidth 16) ++ ['0', '0'] ++ printBytes false (b.take 16) ++
    printByte false cks ++ ['\n']

/-- The bytes that are left, at most sixteen. -/
def fwcrumbs (b : List Ut8) (lastAddr : BitVec 16) : CStr :=
  let cks := -lastAddr.setWidth 8 - (lastAddr >>> 8).setWidth 8 - b.sum - BitVec.ofNat 8 b.length
  [':'] ++ printByte true (BitVec.ofNat 8 b.length) ++ printHalf true lastAddr ++ ['0', '0'] ++
    printBytes true b ++ printByte true cks ++ ['\n']

/-- The loop of `fwblock` from `i` on. A turn moves both `i` and `start_addr`. -/
def fwblockLoop (size : BitVec 16) : Nat → Ut32 → List Ut8 → Ut32 → CStr
  | 0, i, b, startAddr => fwcrumbs (b.take (size.toNat - i.toNat)) ((i + startAddr).setWidth 16)
  | turns + 1, i, b, startAddr =>
    if i + 0x10 < size.setWidth 32 then
      let line := fwline b (i + startAddr)
      let startAddr := startAddr + 0x10
      let rollover := if startAddr &&& 0xffff < 0x10 then fw04b ((startAddr >>> 16).setWidth 16) else []
      line ++ rollover ++ fwblockLoop size turns (i + 0x10) (b.drop 16) startAddr
    else if i = size.setWidth 32 then []
    else fwcrumbs (b.take (size.toNat - i.toNat)) ((i + startAddr).setWidth 16)

/-- `fwblock`, with the text where it returns zero. There are fewer turns than lines. -/
def fwblock (b : List Ut8) (startAddr : Ut32) (size : BitVec 16) : Option CStr :=
  if size < 1 then none else some (fwblockLoop size 4096 0 b startAddr)

/-- The turn of the loop in `__write` for a chunk. -/
def writeChunk (rbs : RBufferSparse) : Option CStr :=
  let addl0 : BitVec 16 := rbs.fromAddr.setWidth 16
  let addh0 : BitVec 16 := (rbs.fromAddr >>> 16).setWidth 16
  let addh1 : BitVec 16 := (rbs.toAddr >>> 16).setWidth 16
  if rbs.size = 0 then some []
  else if addh0 ≠ addh1 then do
    -- the two steps over a boundary
    let tsiz := -addl0
    let first ← fwblock rbs.data (rbs.fromAddr.setWidth 32) tsiz
    let rest ← fwblock (rbs.data.drop tsiz.toNat) ((addh1.setWidth 32) <<< 16)
      (BitVec.ofInt 16 (rbs.size - tsiz.toNat))
    some (fw04b addh0 ++ first ++ fw04b addh1 ++ rest)
  else do
    let block ← fwblock rbs.data ((addh1.setWidth 32) <<< 16 ||| addl0.setWidth 32) (BitVec.ofInt 16 rbs.size)
    some (fw04b addh1 ++ block)

/-- The text of `__write`, where no chunk makes it fail. -/
def writeChunks : List RBufferSparse → Option CStr
  | [] => some [':', '0', '0', '0', '0', '0', '0', '0', '1', 'F', 'F', '\n']
  | rbs :: l => do
    let chunk ← writeChunk rbs
    let rest ← writeChunks l
    some (chunk ++ rest)

/-- The text is the bytes in pairs of hexadecimal digits, of either case. -/
inductive HexText : CStr → List Ut8 → Prop
  | nil : HexText [] []
  | cons {h l : Char} {a b : Nat} {digits : CStr} {bytes : List Ut8} (high : digitValue h = some a)
      (low : digitValue l = some b) (tail : HexText digits bytes) :
      HexText (h :: l :: digits) (BitVec.ofNat 8 (16 * a + b) :: bytes)

/-- The records before the last one. `start` is a record of type 3 or 5. -/
inductive Rec where
  | data (addr : BitVec 16) (bytes : List Ut8)
  | segment (base : BitVec 16)
  | linear (base : BitVec 16)
  | start (linear : Bool) (addr : BitVec 16) (bytes : List Ut8)

def Rec.type : Rec → Ut8
  | data _ _ => 0
  | segment _ => 2
  | linear _ => 4
  | start false _ _ => 3
  | start true _ _ => 5

def Rec.addr : Rec → BitVec 16
  | data addr _ | start _ addr _ => addr
  | segment _ | linear _ => 0

def Rec.payload : Rec → List Ut8
  | data _ bytes | start _ _ bytes => bytes
  | segment base | linear base => [(base >>> 8).setWidth 8, base.setWidth 8]

/-- The bytes of a record before its checksum. -/
def recordBody (type : Ut8) (addr : BitVec 16) (payload : List Ut8) : List Ut8 :=
  [BitVec.ofNat 8 payload.length, (addr >>> 8).setWidth 8, addr.setWidth 8, type] ++ payload

def checksum (bytes : List Ut8) : Ut8 := -bytes.sum

def Rec.body (r : Rec) : List Ut8 := recordBody r.type r.addr r.payload

/-- The data of a record end with its 64 KiB segment, and their number is a byte. -/
def Rec.WellFormed : Rec → Prop
  | data addr bytes => bytes.length ≤ 255 ∧ addr.toNat + bytes.length ≤ 65536
  | segment _ | linear _ => True
  | start _ _ bytes => bytes.length ≤ 255

/-- The text of a record: a colon, its digits, and what stands before the next colon. -/
def RecordText (bytes : List Ut8) (text : CStr) : Prop :=
  ∃ digits gap, text = ':' :: (digits ++ gap) ∧ HexText digits (bytes ++ [checksum bytes]) ∧ ':' ∉ gap

/-- The text of the records, with the end record behind them. -/
inductive RecordsText : List Rec → CStr → Prop
  | eof {digits rest : CStr} (h : HexText digits (recordBody 1 0 [] ++ [checksum (recordBody 1 0 [])])) :
      RecordsText [] (':' :: (digits ++ rest))
  | cons {r : Rec} {rs : List Rec} {text texts : CStr} (head : RecordText r.body text)
      (tail : RecordsText rs texts) : RecordsText (r :: rs) (text ++ texts)

/-- Bytes at an absolute address. -/
abbrev Block := Nat × List Ut8

def Block.Covers (b : Block) (x : Nat) : Prop := b.1 ≤ x ∧ x < b.1 + b.2.length

/-- The data of the records where they belong, from the base that is set before them. -/
def blocks : Nat → List Rec → List Block
  | _, [] => []
  | base, .data addr bytes :: rs => (base + addr.toNat, bytes) :: blocks base rs
  | _, .segment base :: rs => blocks (base.toNat * 16) rs
  | _, .linear base :: rs => blocks (base.toNat * 65536) rs
  | base, .start _ _ _ :: rs => blocks base rs

/-- No address is covered twice. -/
def DisjointBlocks (bs : List Block) : Prop :=
  bs.Pairwise (fun v w => ∀ x, v.Covers x → ¬w.Covers x)

/-! What the scans of the parser read from the text of a record. -/

/-- The value of a run of digits. -/
def digitsValue (ds : CStr) : Nat := ds.foldl (fun v c => v * 16 + (digitValue c).getD 0) 0

theorem scanDigits_digits (ds : CStr) (hds : ∀ c ∈ ds, (digitValue c).isSome) (acc : Nat) :
    scanDigits 16 ds acc = (ds.foldl (fun v c => v * 16 + (digitValue c).getD 0) acc, []) := by
  induction ds generalizing acc with
  | nil => rfl
  | cons c ds ih =>
    obtain ⟨d, hd⟩ := Option.isSome_iff_exists.mp (hds c (by simp))
    rw [scanDigits]
    simp only [hd, if_pos (digitValue_lt hd), List.foldl_cons, Option.getD_some]
    exact ih (fun c hc => hds c (by simp [hc])) _

/-- Digits are read up to the width, and nothing else is skipped. -/
theorem scanHex_digits {ds : CStr} (hne : ds ≠ []) (hds : ∀ c ∈ ds, (digitValue c).isSome) (rest : CStr) :
    scanHex ds.length (ds ++ rest) = some (BitVec.ofNat 32 (digitsValue ds), rest) := by
  obtain ⟨c, cs, rfl⟩ := List.exists_cons_of_ne_nil hne
  obtain ⟨d, hd⟩ := Option.isSome_iff_exists.mp (hds c (by simp))
  have hspace := digit_not_space hd
  have hstart : startsWithDigit 16 (c :: cs) = true := by
    simp [startsWithDigit, hd, digitValue_lt hd]
  have hint : scanInteger 16 (c :: cs) = some (false, digitsValue (c :: cs), []) :=
    scanInteger_digits hds hstart (scanDigits_digits (c :: cs) hds 0)
  have hdrop : ((c :: cs) ++ rest).dropWhile isSpace = (c :: cs) ++ rest := by
    rw [List.cons_append, List.dropWhile_cons_of_neg (by simp [hspace])]
  rw [scanHex, hdrop]
  simp only [List.take_left, List.drop_left, hint]
  simp

theorem HexText.isSome {digits : CStr} {bytes : List Ut8} (h : HexText digits bytes) :
    ∀ c ∈ digits, (digitValue c).isSome := by
  induction h with
  | nil => simp
  | cons high low tail ih =>
    intro c hc
    simp only [List.mem_cons] at hc
    obtain rfl | rfl | hc := hc
    · simp [high]
    · simp [low]
    · exact ih c hc

theorem HexText.colon_not_mem {digits : CStr} {bytes : List Ut8} (h : HexText digits bytes) :
    ':' ∉ digits := by
  intro hmem
  have hsome := h.isSome ':' hmem
  exact absurd hsome (by decide)

theorem HexText.length {digits : CStr} {bytes : List Ut8} (h : HexText digits bytes) :
    digits.length = 2 * bytes.length := by
  induction h with
  | nil => rfl
  | cons high low tail ih =>
    simp only [List.length_cons, ih]
    omega

theorem HexText.drop {digits : CStr} {bytes : List Ut8} (h : HexText digits bytes) (k : Nat) :
    HexText (digits.drop (2 * k)) (bytes.drop k) := by
  induction h generalizing k with
  | nil => simpa using HexText.nil
  | cons high low tail ih =>
    cases k with
    | zero => exact .cons high low tail
    | succ k => exact ih k

/-- Printed bytes are their own text. -/
theorem hexText_printBytes (upper : Bool) (bs : List Ut8) : HexText (printBytes upper bs) bs := by
  induction bs with
  | nil => exact .nil
  | cons b bs ih =>
    have hb := b.isLt
    have hcons := HexText.cons (digitValue_print upper (by omega : b.toNat / 16 < 16))
      (digitValue_print upper (by omega : b.toNat % 16 < 16)) ih
    have hbyte : BitVec.ofNat 8 (16 * (b.toNat / 16) + b.toNat % 16) = b := by
      rw [Nat.div_add_mod, BitVec.ofNat_toNat, BitVec.setWidth_eq]
    rw [hbyte] at hcons
    exact hcons

theorem append_toNat (hi lo : Ut8) : (hi ++ lo : BitVec 16).toNat = hi.toNat * 256 + lo.toNat := by
  rw [BitVec.toNat_append, ← Nat.shiftLeft_add_eq_or_of_lt lo.isLt, Nat.shiftLeft_eq]

/-- `%02x` reads a byte. -/
theorem HexText.scan2 {digits : CStr} {byte : Ut8} {bytes : List Ut8} (h : HexText digits (byte :: bytes))
    (rest : CStr) :
    ∃ v, scanHex 2 (digits ++ rest) = some (v, digits.drop 2 ++ rest) ∧ v.setWidth 8 = byte := by
  cases h with
  | cons high low tail =>
    rename_i h l a b digits
    have ha := digitValue_lt high
    have hb := digitValue_lt low
    have hscan := @scanHex_digits [h, l] (by simp) (by simp [high, low]) (digits ++ rest)
    refine ⟨_, hscan, ?_⟩
    apply BitVec.eq_of_toNat_eq
    simp [digitsValue, high, low]
    omega

/-- `%04x` reads two of them. -/
theorem HexText.scan4 {digits : CStr} {hi lo : Ut8} {bytes : List Ut8}
    (h : HexText digits (hi :: lo :: bytes)) (rest : CStr) :
    ∃ v, scanHex 4 (digits ++ rest) = some (v, digits.drop 4 ++ rest) ∧ v.setWidth 16 = hi ++ lo := by
  cases h with
  | cons high low tail =>
    rename_i h l a b digits
    cases tail with
    | cons high' low' tail =>
      rename_i h' l' a' b' digits
      have ha := digitValue_lt high
      have hb := digitValue_lt low
      have ha' := digitValue_lt high'
      have hb' := digitValue_lt low'
      have hscan := @scanHex_digits [h, l, h', l'] (by simp)
        (by simp [high, low, high', low']) (digits ++ rest)
      refine ⟨_, hscan, ?_⟩
      apply BitVec.eq_of_toNat_eq
      rw [append_toNat]
      simp [digitsValue, high, low, high', low']
      omega

theorem halves_append (x : BitVec 16) : (x >>> 8).setWidth 8 ++ x.setWidth 8 = x := by
  apply BitVec.eq_of_toNat_eq
  have hx := x.isLt
  rw [append_toNat, BitVec.toNat_setWidth, BitVec.toNat_setWidth, BitVec.toNat_ushiftRight,
    Nat.shiftRight_eq_div_pow]
  omega

theorem scanHeader_record {digits : CStr} {type : Ut8} {addr : BitVec 16} {payload tail : List Ut8}
    (h : HexText digits (recordBody type addr payload ++ tail)) (rest : CStr) :
    scanHeader (':' :: (digits ++ rest)) = some (BitVec.ofNat 8 payload.length, addr, type) := by
  obtain ⟨v1, hscan1, hv1⟩ := h.scan2 rest
  obtain ⟨v2, hscan2, hv2⟩ := (h.drop 1).scan4 rest
  obtain ⟨v3, hscan3, hv3⟩ := (h.drop 3).scan2 rest
  rw [List.drop_drop] at hscan2
  have hlit : scanLiteral [':'] (':' :: (digits ++ rest)) = some (digits ++ rest) := by
    simp [scanLiteral]
  simp only [scanHeader, hlit, Option.bind_eq_bind, Option.bind_some]
  rw [hscan1, Option.bind_some]
  simp only []
  rw [hscan2, Option.bind_some]
  simp only []
  rw [hscan3, Option.bind_some]
  simp only [hv1, hv2, hv3, halves_append]

theorem scanByte_eq {str s rest : CStr} {eol : Option Nat} {k : Nat} {v : Ut32}
    (hstr : strAt str eol k = .ok s) (hscan : scanHex 2 s = some (v, rest)) :
    scanByte str eol k = .ok (v.setWidth 8) := by
  simp [scanByte, hstr, hscan, bind, Except.bind]

/-- What the parser sees of a record: the end of its text, and its bytes behind the colon. -/
structure AtRecord (str : CStr) (eol : Nat) (next : CStr) (bytes : List Ut8) : Prop where
  ends : findEol str = some eol
  rest : str.drop eol = next
  byte : ∀ (k : Nat) (h : k < bytes.length), scanByte str (some eol) (1 + 2 * k) = .ok bytes[k]

theorem atRecord {digits gap next : CStr} {bytes : List Ut8} (hdigits : HexText digits bytes)
    (hgap : ':' ∉ gap) :
    AtRecord (':' :: (digits ++ gap) ++ ':' :: next) (1 + (digits ++ gap).length) (':' :: next) bytes := by
  have hcolon : ':' ∉ digits ++ gap := by
    intro hmem
    obtain hmem | hmem := List.mem_append.mp hmem
    · exact hdigits.colon_not_mem hmem
    · exact hgap hmem
  constructor
  · have hfind : ((digits ++ gap) ++ ':' :: next).findIdx? (· = ':') = some (digits ++ gap).length := by
      rw [List.findIdx?_append, List.findIdx?_eq_none_iff.mpr]
      · simp [List.findIdx?_cons]
      · intro c hc
        simp only [decide_eq_false_iff_not]
        intro heq
        exact hcolon (heq ▸ hc)
    rw [findEol, List.cons_append, List.drop_one, List.tail_cons, hfind, Option.map_some, Nat.add_comm]
  · rw [Nat.add_comm, List.cons_append, List.drop_succ_cons, List.drop_left]
  · intro k hk
    have hlen := hdigits.length
    have hbytes : bytes.drop k = bytes[k] :: bytes.drop (k + 1) := List.drop_eq_getElem_cons hk
    have hdrop := hdigits.drop k
    rw [hbytes] at hdrop
    obtain ⟨v, hscan, hv⟩ := hdrop.scan2 gap
    have hstr : strAt (':' :: (digits ++ gap) ++ ':' :: next) (some (1 + (digits ++ gap).length))
        (1 + 2 * k) = .ok (digits.drop (2 * k) ++ gap) := by
      rw [strAt]
      simp only [Option.getD_some]
      rw [if_pos (by rw [List.length_append]; omega), Nat.add_comm 1 (digits ++ gap).length,
        List.cons_append, List.take_succ_cons, List.take_left, Nat.add_comm 1 (2 * k),
        List.drop_succ_cons, List.drop_append_of_le_length (by omega)]
    rw [scanByte_eq hstr hscan, hv]

end Radare.Ihex
