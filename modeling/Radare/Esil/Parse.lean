import Radare.Esil.State

namespace Radare

def sdbHash (s : CStr) : Ut32 :=
  s.foldl (fun h c => (h + (h <<< 5)) ^^^ (BitVec.ofNat 8 c.toNat).signExtend 32) 5381

section
variable {R : Type} (env : EsilEnv R)

/-- Commands are found by the hash of their word. -/
def iscommand (word : CStr) : Option (EsilOp R) := env.ops (sdbHash word)

/-- What `runword` does with a word outside a skipped branch: run it or push it. -/
def runCommand (e : Esil R) (word : CStr) : Int × Esil R :=
  match iscommand env word with
  | some op =>
    match env.hookCommand with
    | none => op e
    | some hook =>
      let (ret, e) := hook e word
      if ret ≠ 0 then (1, e) else op e
  | none =>
    if word = [] ∨ word.head? = some ',' then (1, e)
    else
      let (ok, e) := rAnalEsilPush e word
      (1, if ok then e else { e with trap := 1, trapCode := 1 })

/-- The branch words switch `skip`; while it is set no other word is run. -/
def runPlainWord (e : Esil R) (word : CStr) : Int × Esil R :=
  if word = ['}', '{'] then (1, { e with skip := !e.skip })
  else if word = ['}'] then (1, { e with skip := false })
  else if e.skip then (1, e)
  else runCommand env e word

def reilToggle (word : CStr) (reil : RAnalReil) : RAnalReil :=
  if word = ['?', '{'] then
    if reil.skip then { reil with skip := false }
    else { reil with skip := true, cmdCount := 0, ifBuf := [] }
  else reil

/-- `strncat` into the 64-byte buffer leaves room for the comma; its size argument is unsigned. -/
def reilAppend (reil : RAnalReil) (word : CStr) : RAnalReil :=
  let len := reil.ifBuf.length
  let room := if len ≤ 62 then 62 - len else word.length
  { reil with ifBuf := reil.ifBuf ++ word.take room ++ [','] }

/-- `parse` is the recursive call that replays a recorded branch. -/
def runword (parse : Esil R → CStr → Option (Int × Esil R)) (e : Esil R) (word : CStr) :
    Option (Int × Esil R) :=
  let e := { e with parseGotoCount := e.parseGotoCount - 1 }
  if e.parseGotoCount < 1 then some (0, { e with trap := 1, parseStop := 1 })
  else
    match e.reil.map (reilToggle word) with
    | none => some (runPlainWord env e word)
    | some reil =>
      if reil.skip then
        let reil := reilAppend reil word
        if word = ['}'] then
          let (_, e) := rAnalEsilPushnum { e with reil := some reil }
            (reil.addr + BitVec.ofInt 64 reil.cmdCount + 1)
          (parse e reil.ifBuf).map (fun r => (1, r.2))
        else
          let count := if (iscommand env word).isSome then reil.cmdCount + 1 else reil.cmdCount
          some (1, { e with reil := some { reil with cmdCount := count } })
      else some (runPlainWord env { e with reil := some reil } word)

/-- The scan keeps the start of the current word in `ostr`. -/
def gotoWordFrom (n : Int) : CStr → CStr → Int → Option CStr
  | [], _, _ => none
  | _ :: rest, ostr, count =>
    if count = n then some ostr
    else if rest.head? = some ',' then gotoWordFrom n rest rest.tail (count + 1)
    else gotoWordFrom n rest ostr count

def gotoWord (str : CStr) (n : Int) : Option CStr := gotoWordFrom n str str 0

/-- The four answers of `evalWord`, numbered 0 to 3 in the source. -/
inductive EvalAction where
  | restart
  | stop
  | again
  | next

def Esil.clearGoto (e : Esil R) : Esil R := { e with parseGoto := -1 }

def evalWord (e : Esil R) (ostr str : CStr) : EvalAction × Esil R × CStr :=
  if str[1]? = some ',' then (.again, e, str)
  else if e.repeatFlag then (.restart, e, str)
  else if e.parseGoto ≠ -1 then
    match gotoWord ostr e.parseGoto with
    | some target => (.again, e.clearGoto, target)
    | none => (.stop, e, str)
  else if e.parseStop ≠ 0 then (.stop, e, str)
  else (.next, e, str)

/-- The assignments at the label `loop`. -/
def parseReset (e : Esil R) : Esil R :=
  { e with
    repeatFlag := false
    skip := false
    parseGoto := -1
    parseStop := 0
    parseGotoCount := (e.anal.map RAnal.esilGotoLimit).getD esilGotoLimitDefault }

/-- One round of fuel is one round of the character loop, or the end of the string. `word` holds
the characters collected so far, so its length is `wordi`. -/
def parseFrom : Nat → CStr → Esil R → CStr → CStr → Option (Int × Esil R)
  | 0, _, _, _, _ => none
  | n + 1, ostr, e, [], word =>
    if word = [] then some (1, e)
    else
      match runword env (fun e s => if s = [] then some (0, e)
          else parseFrom n s (parseReset { e with trap := 0 }) s []) e word with
      | none => none
      | some (ret, e) =>
        if ret = 0 then some (0, e)
        else
          match evalWord e ostr [] with
          | (.restart, e, _) => parseFrom n ostr (parseReset e) ostr []
          | (.stop, e, _) => some (0, e)
          | (.again, e, str) => parseFrom n ostr e str []
          | (.next, e, _) => some (1, e)
  | n + 1, ostr, e, c :: rest, word =>
    if 62 < word.length then some (-1, e)
    else if c = ';' ∨ c = ',' then
      if word = [] then parseFrom n ostr e rest.tail rest.head?.toList
      else
        match runword env (fun e s => if s = [] then some (0, e)
            else parseFrom n s (parseReset { e with trap := 0 }) s []) e word with
        | none => none
        | some (ret, e) =>
          if ret = 0 then some (0, e)
          else
            match evalWord e ostr (c :: rest) with
            | (.restart, e, _) => parseFrom n ostr (parseReset e) ostr []
            | (.stop, e, _) => some (0, e)
            | (.again, e, str) => parseFrom n ostr e str []
            | (.next, e, _) =>
              if c = ';' then some (0, e)
              else parseFrom n ostr e rest.tail rest.head?.toList
    else parseFrom n ostr e rest (word ++ [c])

/-- `none` stands for running out of fuel. -/
def rAnalEsilParse (fuel : Nat) (e : Esil R) (str : CStr) : Option (Int × Esil R) :=
  if str = [] then some (0, e)
  else parseFrom env fuel str (parseReset { e with trap := 0 }) str []

end

end Radare
