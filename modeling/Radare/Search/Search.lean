import Radare.Framework.MachineInt
import Mathlib.Logic.Function.Basic

namespace Radare

/-- `RSearchKeyword`. The lengths are those of the lists; `idx` has one place for each distance. -/
structure RSearchKeyword where
  binKeyword : List Ut8
  binBinmask : List Ut8
  icase : Bool
  idx : Nat → Nat
  distance : Nat
  count : Int
  last : Ut64

/-- `RMemoryPool`, the counters; a node is the byte of one of the pools at which it begins. -/
structure RMemoryPool where
  ncount : Int
  npool : Int
  poolsize : Int
  poolcount : Int
  deriving DecidableEq

def rMemPoolNew (poolsize poolcount : Int) : RMemoryPool :=
  { poolsize := if poolsize < 1 then 1024 else poolsize
    poolcount := if poolcount < 1 then 128 else poolcount
    npool := -1, ncount := if poolsize < 1 then 1024 else poolsize }

/-- `r_mem_pool_alloc` and the node it gave, its pool and its byte there. Whatever the size of a node,
the next one begins one byte further on, over the rest of it. -/
def rMemPoolAlloc (pool : RMemoryPool) : RMemoryPool × Option (Int × Int) :=
  if pool.poolsize ≤ pool.ncount then
    if pool.poolcount ≤ pool.npool + 1 then ({ pool with npool := pool.npool + 1 }, none)
    else ({ pool with npool := pool.npool + 1, ncount := 1 }, some (pool.npool + 1, 0))
  else ({ pool with ncount := pool.ncount + 1 }, some (pool.npool, pool.ncount))

/-- `RSearch`. The callback sees all calls made to it so far, the last one first; `log` holds the
hits in the order in which they were made, each with the place of its keyword: those that it was
called with, or without a callback those that were stored in a node of the pool. What the nodes
in `hits` show later is not in it, as they lie over each other. -/
structure RSearch where
  callback : Option (List (Nat × Ut64) → Bool)
  nhits : Int
  pool : RMemoryPool
  distance : Nat
  inverse : Bool
  overlap : Bool
  contiguous : Bool
  align : Int
  kws : List RSearchKeyword
  log : List (Nat × Ut64)

/-- A mask that changes nothing is dropped. -/
def ignoreMask (bm : List Ut8) : Bool := bm.all (fun b => b == 255)

/-- A keyword without mask, as `R_NEW0` and the copy of the bytes leave it. -/
def RSearchKeyword.plain (kwbuf : List Ut8) : RSearchKeyword :=
  { binKeyword := kwbuf, binBinmask := [], icase := false, idx := fun _ => 0, distance := 0, count := 0, last := 0 }

def rSearchKeywordNew (kwbuf bmbuf : List Ut8) : Option RSearchKeyword :=
  if kwbuf.length < 1 then none
  else some { RSearchKeyword.plain kwbuf with binBinmask := if ignoreMask bmbuf then [] else bmbuf }

def rSearchNew : RSearch :=
  { callback := none, nhits := 0, pool := rMemPoolNew 1024 10, distance := 0, inverse := false, overlap := false,
    contiguous := false, align := 0, kws := [], log := [] }

/-- `r_search_begin`. -/
def RSearchKeyword.begin_ (kw : RSearchKeyword) : RSearchKeyword :=
  { kw with count := 0, idx := Function.update kw.idx 0 0, distance := 0, last := 0 }

def rSearchBegin (s : RSearch) : RSearch := { s with kws := s.kws.map RSearchKeyword.begin_ }

/-- The end of `r_search_hit_new`, for the keyword at the place `n`. -/
def report (s : RSearch) (n : Nat) (addr : Ut64) : RSearch × Bool :=
  match s.callback with
  | some f => ({ s with log := s.log ++ [(n, addr)] }, f ((n, addr) :: s.log.reverse))
  | none =>
    let r := rMemPoolAlloc s.pool
    if r.2.isSome then ({ s with pool := r.1, log := s.log ++ [(n, addr)] }, true)
    else ({ s with pool := r.1 }, false)

def rSearchHitNew (s : RSearch) (n : Nat) (kw : RSearchKeyword) (addr : Ut64) :
    RSearch × RSearchKeyword × Bool :=
  if s.align ≠ 0 ∧ addr % BitVec.ofInt 64 s.align ≠ 0 then (s, kw, true)
  else if s.contiguous then
    let r := report s n addr
    (r.1, kw, r.2)
  else
    let next := addr + BitVec.ofNat 64 kw.binKeyword.length
    if kw.last ≠ 0 ∧ addr = kw.last then (s, { kw with count := kw.count - 1, last := next }, true)
    else
      let r := report s n addr
      (r.1, { kw with last := next }, r.2)

def tolower (c : Ut8) : Ut8 := if 65 ≤ c ∧ c ≤ 90 then c + 32 else c

def RSearchKeyword.lower (kw : RSearchKeyword) (c : Ut8) : Ut8 := if kw.icase then tolower c else c

/-- `maskcmp` at the place `k` of the keyword. -/
def maskcmp (kw : RSearchKeyword) (k : Nat) (c : Ut8) : Option Bool := do
  let b ← kw.binKeyword[k]?
  let mask ← kw.binBinmask[k % kw.binBinmask.length]?
  some (kw.lower c &&& mask == kw.lower b &&& mask)

/-- The first comparison of a byte. -/
def matches_ (kw : RSearchKeyword) (k : Nat) (c : Ut8) : Option Bool :=
  if kw.binBinmask.length > 0 then maskcmp kw k c
  else (kw.binKeyword[k]?).map (fun ch => kw.lower ch == kw.lower c)

/-- The second one, after the index went back; `ch` is not made lower again. -/
def matchesAgain (kw : RSearchKeyword) (k : Nat) (c : Ut8) : Option Bool :=
  if kw.binBinmask.length > 0 then maskcmp kw k c
  else (kw.binKeyword[k]?).map (fun ch => ch == kw.lower c)

/-- "Works for 0a0a0a0b": the bytes matched so far are all the first one. -/
def isTail (kw : RSearchKeyword) (k : Nat) : Bool :=
  0 < k && ((kw.binKeyword.take k).drop 1).all (fun c => kw.binKeyword.head? == some c)

/-- What a turn for one keyword leaves; `ret` when the function returns. -/
structure Turn where
  s : RSearch
  kw : RSearchKeyword
  i : Int
  ret : Option Int

/-- `if (hit)`. -/
def hitTurn (s : RSearch) (n : Nat) (kw : RSearchKeyword) (from_ : Ut64) (i : Int) (j : Nat) : Turn :=
  let kw := { kw with idx := Function.update kw.idx j (kw.idx j + 1) }
  let len := kw.binKeyword.length
  if kw.idx j = len then
    if s.inverse then ⟨s, { kw with idx := Function.update kw.idx j 0 }, i, none⟩
    else
      let r := rSearchHitNew s n kw (from_ + BitVec.ofInt 64 i - BitVec.ofNat 64 len + 1)
      if r.2.2 then
        ⟨r.1, { r.2.1 with idx := Function.update kw.idx j 0, distance := 0, count := r.2.1.count + 1 },
          if s.overlap ∧ 1 < len then i - (len - 1) else i, none⟩
      else ⟨r.1, r.2.1, i, some (-1)⟩
  else ⟨s, kw, i, none⟩

/-- The body of the loop over the distances. -/
def distanceTurn (s : RSearch) (n : Nat) (kw : RSearchKeyword) (from_ : Ut64) (c : Ut8) (i : Int) (j : Nat) :
    Option Turn := do
  let found ← matches_ kw (kw.idx j) c
  if found then some (hitTurn s n kw from_ i j)
  else if s.inverse then
    let r := rSearchHitNew s n kw (from_ + BitVec.ofInt 64 i - BitVec.ofNat 64 kw.binKeyword.length + 1)
    if r.2.2 then
      some ⟨{ r.1 with nhits := r.1.nhits + 1 },
        { r.2.1 with idx := Function.update kw.idx j 0, distance := 0, count := r.2.1.count + 1 }, i, some 1⟩
    else some ⟨r.1, r.2.1, i, some (-1)⟩
  else if kw.distance < s.distance then
    some (hitTurn s n
      { kw with
        idx := Function.update kw.idx (kw.distance + 1) (kw.idx kw.distance), distance := kw.distance + 1 }
      from_ i j)
  else
    let k := if isTail kw (kw.idx j) then kw.idx j - 1 else 0
    let kw := { kw with idx := Function.update kw.idx j k, distance := 0 }
    let hit ← matchesAgain kw k c
    if hit then some (hitTurn s n kw from_ i j) else some ⟨s, kw, i, none⟩

/-- `buf[i]`; `none` outside the buffer. -/
def loadByte (buf : List Ut8) (i : Int) : Option Ut8 := if 0 ≤ i then buf[i.toNat]? else none

/-- `for (j = 0; j <= kw->distance; j++)`; a hit may move `i`. -/
def distanceLoop (n : Nat) (from_ : Ut64) (buf : List Ut8) : Nat → Nat → Turn → Option Turn
  | 0, _, _ => none
  | fuel + 1, j, t =>
    if j ≤ t.kw.distance then do
      let c ← loadByte buf t.i
      let t ← distanceTurn t.s n t.kw from_ c t.i j
      if t.ret.isSome then some t else distanceLoop n from_ buf fuel (j + 1) t
    else some t

/-- What one round over the keywords leaves. -/
structure Round where
  s : RSearch
  kws : List RSearchKeyword
  i : Int
  ret : Option Int

/-- `r_list_foreach (s->kws, iter, kw)`, from the place `n` on. -/
def kwsLoop (from_ : Ut64) (buf : List Ut8) : Nat → List RSearchKeyword → RSearch → Int → Option Round
  | _, [], s, i => some ⟨s, [], i, none⟩
  | n, kw :: rest, s, i =>
    if s.inverse ∧ 0 < s.nhits then some ⟨s, kw :: rest, i, some (-1)⟩
    else do
      let t ← distanceLoop n from_ buf 11 0 ⟨s, kw, i, none⟩
      if t.ret.isSome then some ⟨t.s, t.kw :: rest, t.i, t.ret⟩
      else do
        let r ← kwsLoop from_ buf (n + 1) rest t.s t.i
        some { r with kws := t.kw :: r.kws }

/-- `for (i = 0; i < len; i++)`; a call that comes to the end returns 0. -/
def updateLoop (from_ : Ut64) (buf : List Ut8) : Nat → RSearch → Int → Option (RSearch × Int)
  | 0, _, _ => none
  | fuel + 1, s, i =>
    if i < buf.length then do
      let r ← kwsLoop from_ buf 0 s.kws s i
      let s := { r.s with kws := r.kws }
      match r.ret with
      | some ret => some (s, ret)
      | none => updateLoop from_ buf fuel s (r.i + 1)
    else some (s, 0)

def rSearchMybinparseUpdate (fuel : Nat) (s : RSearch) (from_ : Ut64) (buf : List Ut8) : Option (RSearch × Int) :=
  updateLoop from_ buf fuel s 0

end Radare
