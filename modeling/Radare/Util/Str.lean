import Mathlib.Data.List.DropRight
import Radare.Util.Num

namespace Radare

/-- `iswhitechar`. -/
def isWhiteChar (c : Char) : Bool :=
  c = ' ' || c = Char.ofNat 9 || c = Char.ofNat 10 || c = Char.ofNat 13

/-- `IS_PRINTABLE`; the bytes from 128 on are negative. -/
def isPrintable (ch : Ut8) : Bool := 32 ≤ ch.toNat && ch.toNat ≤ 126

/-- `r_str_hash64`; a `char` is signed. -/
def rStrHash64 (s : CStr) : Ut64 :=
  s.foldl (fun h c => (h ^^^ (h <<< 5)) ^^^ (BitVec.ofNat 8 c.toNat).signExtend 64) 5381#64

/-- `r_str_chop`; the loop from the end stops at the first character. -/
def rStrChop (str : CStr) : CStr :=
  match str.dropWhile isWhiteChar with
  | [] => []
  | c :: cs => c :: cs.rdropWhile isWhiteChar

def rStrTrimHead (str : CStr) : CStr := str.dropWhile isWhiteChar

def rStrTrimTail (str : CStr) : CStr := str.rdropWhile isWhiteChar

def rStrTrimHeadTail (str : CStr) : CStr := rStrTrimTail (rStrTrimHead str)

def rNameValidateChar (ch : Char) : Bool :=
  ('a' ≤ ch ∧ ch ≤ 'z') || ('A' ≤ ch ∧ ch ≤ 'Z') || ('0' ≤ ch ∧ ch ≤ '9') ||
    ch = ':' || ch = '.' || ch = '_'

/-- `r_name_filter (name, 0)`: no length limit. -/
def rNameFilter (name : CStr) : CStr :=
  (rStrTrimHeadTail name).map (fun c => if rNameValidateChar c then c else '_')

/-- The loop of `r_str_glob` up to the first star. -/
def globHead : CStr → CStr → Option (CStr × CStr)
  | [], glob => some ([], glob)
  | c :: str, glob =>
    match glob with
    | [] => none
    | g :: glob => if g = '*' then some (c :: str, g :: glob) else if g = c then globHead str glob else none

/-- The second loop; `mp` and `cp` are where it goes back to. -/
def globLoop : Nat → CStr → CStr → CStr → CStr → Bool
  | 0, _, _, _, _ => false
  | _ + 1, [], glob, _, _ => (glob.dropWhile (· = '*')).isEmpty
  | fuel + 1, c :: str, glob, mp, cp =>
    match glob with
    | [] => globLoop fuel cp mp mp cp.tail
    | g :: glob =>
      if g = '*' then if glob.isEmpty then true else globLoop fuel (c :: str) glob glob str
      else if g = c then globLoop fuel str glob mp cp
      else globLoop fuel cp mp mp cp.tail

/-- `r_str_glob`; a null glob matches everything. -/
def rStrGlob (str : CStr) : Option CStr → Bool
  | none => true
  | some glob =>
    if glob = ['*'] then true
    else
      match globHead str glob with
      | none => false
      | some (str', glob') => globLoop ((str.length + 2) * (glob.length + 2)) str' glob' [] []

example : rStrGlob "sym.main".toList (some "sym.*n".toList) = true := by decide

end Radare
