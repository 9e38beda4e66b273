import Radare.Framework.Conversation
import Radare.Framework.Windows
import Radare.Util.Endian

namespace Radare

open Framework

def rReadBe32 (src : List Ut8) : Ut32 := BitVec.ofNat 32 (leNat (src.take 4).reverse)

def rReadBe64 (src : List Ut8) : Ut64 := BitVec.ofNat 64 (leNat (src.take 8).reverse)

def rWriteBe32 (val : Ut32) : List Ut8 := (leBytes 4 val.toNat).reverse

def rWriteBe64 (val : Ut64) : List Ut8 := (leBytes 8 val.toNat).reverse

/-- The part of `rap__open` behind the connection. Without a file name nothing is sent. The length is a `char`: `memcpy`
gets a negative one from 128 on. -/
def rapOpen (rw : Int) (file : List Ut8) : Option (Proc Ut8 Bool) :=
  if file = [] then some (return true)
  else if 128 ≤ file.length % 256 then none
  else some do
    Proc.put (0x01 :: BitVec.ofInt 8 rw :: BitVec.ofNat 8 file.length :: file.take (file.length % 256))
    let buf ← Proc.take 5
    return buf.head? = some 0x81

/-- A call of the plugin. `arrived` is how many bytes of the reply the plain `r_socket_read` of a write finds. -/
inductive RapCall where
  | lseek (offset : Ut64) (whence : Int)
  | read (count : Int)
  | write (buf : List Ut8) (arrived : Nat)

inductive RapReply where
  | offset (ret : Ut64)
  | read (ret : Int) (data : List Ut8)
  | wrote (ret : Int)
  deriving DecidableEq

def rapLseek (offset : Ut64) (whence : Int) : Proc Ut8 RapReply := do
  Proc.put (0x04 :: BitVec.ofInt 8 whence :: rWriteBe64 offset)
  let tmp ← Proc.take 9
  if tmp.length ≠ 9 ∨ tmp.head? ≠ some 0x84 then return .offset (-1)
  else return .offset (rReadBe64 (tmp.drop 1))

def rapRead (count : Int) : Proc Ut8 RapReply := do
  let count := if count > 4096 then 4096 else count
  Proc.put (0x02 :: rWriteBe32 (BitVec.ofInt 32 count))
  let tmp ← Proc.take 5
  if tmp.length ≠ 5 ∨ tmp.head? ≠ some 0x82 then return .read (-1) []
  else
    let i := (rReadBe32 (tmp.drop 1)).toInt
    if i > count then return .read (-1) []
    else do
      let data ← Proc.take i.toNat
      return .read count data

def rapWrite (buf : List Ut8) (arrived : Nat) : Proc Ut8 RapReply :=
  if buf.length < 1 then return .wrote buf.length
  else do
    let count := if buf.length > 4096 then 4096 else buf.length
    Proc.put (0x03 :: (rWriteBe32 (BitVec.ofNat 32 count) ++ buf.take count))
    let tmp ← Proc.take arrived
    if tmp.length ≠ 5 then return .wrote (-1)
    else
      let ret := (rReadBe32 (tmp.drop 1)).toInt
      if ret = 0 then return .wrote (-1) else return .wrote ret

def rapCall : RapCall → Proc Ut8 RapReply
  | .lseek offset whence => rapLseek offset whence
  | .read count => rapRead count
  | .write buf arrived => rapWrite buf arrived

/-- The calls of a session, one after the other. -/
def rapCalls : List RapCall → Proc Ut8 (List RapReply)
  | [] => return []
  | call :: calls => do
    let reply ← rapCall call
    let replies ← rapCalls calls
    return reply :: replies

/-- A connection: the file is opened, then the calls. -/
def rapSession (rw : Int) (file : List Ut8) (calls : List RapCall) : Option (Proc Ut8 (Option (List RapReply))) :=
  (rapOpen rw file).map fun opening => do
    let opened ← opening
    if opened then do
      let replies ← rapCalls calls
      return some replies
    else return none

/-- The callbacks of `RSocketRapServer`. `read` fills the buffer it is given. -/
structure RapUser (υ : Type) where
  open_ : υ → List Ut8 → Int → υ
  read : υ → Nat → υ × List Ut8
  write : υ → List Ut8 → υ × Ut32
  seek : υ → Ut64 → Int → υ × Ut32
  cmd : υ → List Ut8 → υ × Option (List Ut8)
  close : υ → Int → υ
  fills : ∀ user n, (read user n).2.length = n

/-- `RSocketRapServer`: its static buffer and what the callbacks work on. -/
structure RSocketRapServer (υ : Type) where
  buf : List Ut8
  user : υ

def rSocketRapServerNew {υ : Type} (user : υ) : RSocketRapServer υ := ⟨List.replicate 4128 0, user⟩

/-- The bytes up to the terminator. -/
def cString (bytes : List Ut8) : List Ut8 := bytes.takeWhile (· ≠ 0)

/-- `i > RAP_RMT_MAX || i < 0`. -/
def clipCount (i : Int) : Nat := if i > 4096 ∨ i < 0 then 4096 else i.toNat

section Server

variable {υ : Type} (u : RapUser υ)

def rapServeOpen (s : RSocketRapServer υ) : Proc Ut8 (Option (RSocketRapServer υ)) := do
  let head ← Proc.take 2
  let buf := overwrite s.buf 1 head
  let file ← Proc.take (buf.getD 2 0).toNat
  let buf := overwrite buf 3 file
  let user := u.open_ s.user (cString (buf.drop 3)) (buf.getD 1 0).toNat
  let buf := overwrite buf 0 [0x81]
  Proc.put (buf.take 5)
  return some ⟨buf, user⟩

def rapServeRead (s : RSocketRapServer υ) : Proc Ut8 (Option (RSocketRapServer υ)) := do
  let count ← Proc.take 4
  let buf := overwrite s.buf 1 count
  let i := clipCount (rReadBe32 (buf.drop 1)).toInt
  let (user, data) := u.read s.user i
  let buf := overwrite buf 5 data
  let buf := overwrite buf 0 [0x82]
  Proc.put (buf.take (i + 5))
  return some ⟨buf, user⟩

def rapServeWrite (s : RSocketRapServer υ) : Proc Ut8 (Option (RSocketRapServer υ)) := do
  let count ← Proc.take 4
  let buf := overwrite s.buf 1 count
  let i := clipCount (rReadBe32 (buf.drop 1)).toInt
  let data ← Proc.take i
  let buf := overwrite buf 5 data
  let (user, ret) := u.write s.user (window buf 5 i)
  let buf := overwrite buf 1 (rWriteBe32 ret)
  let buf := overwrite buf 0 [0x83]
  Proc.put (buf.take 5)
  return some ⟨buf, user⟩

def rapServeSeek (s : RSocketRapServer υ) : Proc Ut8 (Option (RSocketRapServer υ)) := do
  let args ← Proc.take 9
  let buf := overwrite s.buf 1 args
  let whence := (buf.getD 1 0).toNat
  let offset := rReadBe64 (buf.drop 2)
  let (user, offset) := u.seek s.user offset whence
  let buf := overwrite buf 0 [0x84]
  let buf := overwrite buf 1 (rWriteBe64 (offset.signExtend 64))
  Proc.put (buf.take 9)
  return some ⟨buf, user⟩

/-- A command longer than the buffer runs over it. -/
def rapServeCmd (s : RSocketRapServer υ) : Proc Ut8 (Option (RSocketRapServer υ)) := do
  let count ← Proc.take 4
  let buf := overwrite s.buf 1 count
  let i := (rReadBe32 (buf.drop 1)).toInt.toNat
  if buf.length < 5 + i then return none
  else do
    let command ← Proc.take i
    let buf := overwrite buf 5 command
    let (user, ptr) := u.cmd s.user (cString (buf.drop 5))
    let i := match ptr with
      | some ptr => ptr.length + 1
      | none => 0
    let buf := overwrite buf 1 (rWriteBe32 (BitVec.ofNat 32 i))
    let buf := overwrite buf 0 [0x86]
    Proc.put (buf.take 5)
    match ptr with
    | some ptr => do
      Proc.put (ptr ++ [0])
      return some ⟨buf, user⟩
    | none => return some ⟨buf, user⟩

def rapServeClose (s : RSocketRapServer υ) : Proc Ut8 (Option (RSocketRapServer υ)) := do
  let args ← Proc.take 4
  let buf := overwrite s.buf 1 args
  let user := u.close s.user (rReadBe32 (buf.drop 1)).toInt
  let buf := overwrite buf 0 [0x85]
  Proc.put (buf.take 5)
  return some ⟨buf, user⟩

/-- The `switch` on the first byte. -/
def rapDispatch (s : RSocketRapServer υ) : Proc Ut8 (Option (RSocketRapServer υ)) :=
  match s.buf.head? with
  | some 0x01 => rapServeOpen u s
  | some 0x02 => rapServeRead u s
  | some 0x03 => rapServeWrite u s
  | some 0x04 => rapServeSeek u s
  | some 0x05 => rapServeClose u s
  | some 0x06 => rapServeCmd u s
  | _ => return none

/-- `none` once the server stopped. -/
def rSocketRapServerContinue (s : RSocketRapServer υ) : Proc Ut8 (Option (RSocketRapServer υ)) := do
  let cmd ← Proc.take 1
  rapDispatch u { s with buf := overwrite s.buf 0 cmd }

/-- The server is called again as long as it says so. -/
def rapServe (s : Option (RSocketRapServer υ)) : Option (Proc Ut8 (Option (RSocketRapServer υ))) :=
  s.map (rSocketRapServerContinue u)

end Server

/-- What the callbacks do when a file is opened; one without a name is not. -/
def RapUser.opened {υ : Type} (u : RapUser υ) (user : υ) (flg : Int) (file : List Ut8) : υ :=
  if file = [] then user else u.open_ user file (BitVec.ofInt 8 flg).toNat

/-- What a call does to the user of the callbacks, without a network in between. -/
def RapUser.call {υ : Type} (u : RapUser υ) (user : υ) : RapCall → υ × RapReply
  | .lseek offset whence =>
    let (user, ret) := u.seek user offset (BitVec.ofInt 8 whence).toNat
    (user, .offset (ret.signExtend 64))
  | .read count =>
    let n := if count > 4096 then 4096 else count
    let (user, data) := u.read user n.toNat
    (user, .read n data)
  | .write buf _ =>
    if buf = [] then (user, .wrote 0)
    else
      let (user, ret) := u.write user (buf.take 4096)
      (user, .wrote (if ret = 0 then -1 else ret.toInt))

def RapUser.calls {υ : Type} (u : RapUser υ) (user : υ) : List RapCall → υ × List RapReply
  | [] => (user, [])
  | call :: calls =>
    let (user, reply) := u.call user call
    let (user, replies) := u.calls user calls
    (user, reply :: replies)

/-- No negative count is read, and the reply to a write has arrived as a whole. -/
def RapCall.Fits : RapCall → Prop
  | .lseek _ _ => True
  | .read count => 0 ≤ count
  | .write _ arrived => arrived = 5

end Radare
