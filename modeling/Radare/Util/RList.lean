import Radare.Framework.LinkedNodes

namespace Radare

open Framework

/-- `RList`; `free` only ever touches the data, so it is left out. -/
@[ext] structure RList where
  head : Option Nat
  tail : Option Nat
  length : Int
  sorted : Bool
  deriving DecidableEq

/-- `r_list_init`. -/
def RList.init : RList := ⟨none, none, 0, false⟩

/-- The nodes of all lists. Addresses are given out in order and not again after a `free`. -/
structure ListMem (α : Type) where
  cells : Cells α
  fresh : Nat

def ListMem.alloc {α : Type} (h : ListMem α) (x : Node α) : ListMem α :=
  ⟨Function.update h.cells h.fresh (some x), h.fresh + 1⟩

/-- `free (iter)`; a node is freed once. -/
def ListMem.free {α : Type} (h : ListMem α) (a : Nat) : Option (ListMem α) :=
  if (h.cells a).isSome then some { h with cells := Function.update h.cells a none } else none

/-- Memory and list after a call, with what the call returns. -/
structure ListResult (α β : Type) where
  mem : ListMem α
  list : RList
  ret : β

variable {α : Type}

/-- `for (it = list->head, i = 0; it && it->data; it = it->n, i++)` up to `i == n`. -/
def iterAt (c : Cells α) (n : Int) : Nat → Option Nat → Int → Option (Option Nat)
  | _, none, _ => some none
  | 0, some _, _ => none
  | fuel + 1, some it, i => do
    let x ← c it
    if x.data.isNone then some none
    else if i = n then some (some it)
    else iterAt c n fuel x.n (i + 1)

def rListAppend (h : ListMem α) (l : RList) (data : α) : Option (ListResult α (Option Nat)) := do
  let item := h.fresh
  let h := h.alloc ⟨some data, none, l.tail⟩
  let cells ← storeNextIf h.cells l.tail (some item)
  some
    { mem := { h with cells := cells }, ret := some item
      list :=
        { head := if l.head.isNone then some item else l.head
          tail := some item, length := l.length + 1, sorted := false } }

def rListPrepend (h : ListMem α) (l : RList) (data : α) : Option (ListResult α (Option Nat)) := do
  let item := h.fresh
  let h := h.alloc ⟨some data, l.head, none⟩
  let cells ← storePrevIf h.cells l.head (some item)
  some
    { mem := { h with cells := cells }, ret := some item
      list :=
        { head := some item, tail := if l.tail.isNone then some item else l.tail
          length := l.length + 1, sorted := true } }

/-- The body of the loop of `r_list_insert` once it has found the place. -/
def insertBefore (h : ListMem α) (l : RList) (it : Nat) (data : α) :
    Option (ListResult α (Option Nat)) := do
  let x ← h.cells it
  let item := h.fresh
  let h := h.alloc ⟨some data, some it, x.p⟩
  let cells ← storeNextIf h.cells x.p (some item)
  let cells ← storePrev cells it (some item)
  some ⟨{ h with cells := cells }, { l with length := l.length + 1, sorted := true }, some item⟩

def rListInsert (h : ListMem α) (l : RList) (n : Int) (data : α) :
    Option (ListResult α (Option Nat)) :=
  if l.head.isNone ∨ n = 0 then rListPrepend h l data
  else
    match iterAt h.cells n h.fresh l.head 0 with
    | none => none
    | some none => rListAppend h l data
    | some (some it) => insertBefore h l it data

/-- `r_list_pop` counts down on an empty list too. -/
def rListPop (h : ListMem α) (l : RList) : Option (ListResult α (Option α)) :=
  match l.tail with
  | none => some ⟨h, { l with length := l.length - 1 }, none⟩
  | some iter => do
    let x ← h.cells iter
    if l.head = l.tail then do
      let h ← h.free iter
      some ⟨h, { l with head := none, tail := none, length := l.length - 1 }, x.data⟩
    else do
      let tail ← x.p
      let cells ← storeNext h.cells tail none
      let h ← ListMem.free { h with cells := cells } iter
      some ⟨h, { l with tail := some tail, length := l.length - 1 }, x.data⟩

def rListPopHead (h : ListMem α) (l : RList) : Option (ListResult α (Option α)) :=
  match l.head with
  | none => some ⟨h, { l with length := l.length - 1 }, none⟩
  | some iter => do
    let x ← h.cells iter
    if l.head = l.tail then do
      let h ← h.free iter
      some ⟨h, { l with head := none, tail := none, length := l.length - 1 }, x.data⟩
    else do
      let head ← x.n
      let cells ← storePrev h.cells head none
      let h ← ListMem.free { h with cells := cells } iter
      some ⟨h, { l with head := some head, length := l.length - 1 }, x.data⟩

/-- The body of the loop of `r_list_del_n` once it has found the node. -/
def unlinkAt (h : ListMem α) (l : RList) (it : Nat) : Option (ListResult α Bool) := do
  let x ← h.cells it
  match x.p, x.n with
  | none, none => do
    let h ← h.free it
    some ⟨h, { l with head := none, tail := none, length := l.length - 1 }, true⟩
  | none, some n => do
    let cells ← storePrev h.cells n none
    let h ← ListMem.free { h with cells := cells } it
    some ⟨h, { l with head := some n, length := l.length - 1 }, true⟩
  | some p, none => do
    let cells ← storeNext h.cells p none
    let h ← ListMem.free { h with cells := cells } it
    some ⟨h, { l with tail := some p, length := l.length - 1 }, true⟩
  | some p, some n => do
    let cells ← storeNext h.cells p (some n)
    let cells ← storePrev cells n (some p)
    let h ← ListMem.free { h with cells := cells } it
    some ⟨h, { l with length := l.length - 1 }, true⟩

def rListDelN (h : ListMem α) (l : RList) (n : Int) : Option (ListResult α Bool) :=
  match iterAt h.cells n h.fresh l.head 0 with
  | none => none
  | some none => some ⟨h, l, false⟩
  | some (some it) => unlinkAt h l it

def rListSplitIter (h : ListMem α) (l : RList) (iter : Nat) : Option (ListResult α Unit) := do
  let x ← h.cells iter
  let cells ← storeNextIf h.cells x.p x.n
  let cells ← storePrevIf cells x.n x.p
  some
    { mem := { h with cells := cells }, ret := ()
      list :=
        { l with
          head := if l.head = some iter then x.n else l.head
          tail := if l.tail = some iter then x.p else l.tail
          length := l.length - 1 } }

/-- `r_list_delete` of a node; a null iterator is ignored. -/
def rListDelete (h : ListMem α) (l : RList) : Option Nat → Option (ListResult α Unit)
  | none => some ⟨h, l, ()⟩
  | some iter => do
    let r ← rListSplitIter h l iter
    let h ← r.mem.free iter
    some ⟨h, r.list, ()⟩

/-- The first node whose data is `ptr`. -/
def findData [DecidableEq α] (c : Cells α) (ptr : α) : Nat → Option Nat → Option (Option Nat)
  | _, none => some none
  | 0, some _ => none
  | fuel + 1, some it => do
    let x ← c it
    if x.data = some ptr then some (some it) else findData c ptr fuel x.n

def rListSplit [DecidableEq α] (h : ListMem α) (l : RList) (ptr : α) : Option (ListResult α Unit) := do
  let it ← findData h.cells ptr h.fresh l.head
  rListDelete h l it

/-- The loop of `r_list_purge`. -/
def purgeLoop : Nat → ListMem α → RList → Option Nat → Option (ListResult α Unit)
  | _, h, l, none => some ⟨h, { l with head := none, tail := none }, ()⟩
  | 0, _, _, some _ => none
  | fuel + 1, h, l, some it => do
    let x ← h.cells it
    let r ← rListDelete h l (some it)
    purgeLoop fuel r.mem r.list x.n

def rListPurge (h : ListMem α) (l : RList) : Option (ListResult α Unit) := purgeLoop h.fresh h l l.head

/-- The loop of `r_list_reverse`: after the swap the old `n` is in `p`. -/
def reverseLoop : Nat → Cells α → Option Nat → Option (Cells α)
  | _, c, none => some c
  | 0, _, some _ => none
  | fuel + 1, c, some it => do
    let x ← c it
    if x.data.isNone then some c
    else reverseLoop fuel (Function.update c it (some ⟨x.data, x.p, x.n⟩)) x.n

def rListReverse (h : ListMem α) (l : RList) : Option (ListResult α Unit) := do
  let cells ← reverseLoop h.fresh h.cells l.head
  some ⟨{ h with cells := cells }, { l with head := l.tail, tail := l.head }, ()⟩

/-- `for (it = list->head; it && it->data && cmp (data, it->data) > 0; it = it->n)`. -/
def findSorted (c : Cells α) (cmp : α → α → Int) (data : α) : Nat → Option Nat → Option (Option Nat)
  | _, none => some none
  | 0, some _ => none
  | fuel + 1, some it => do
    let x ← c it
    match x.data with
    | none => some (some it)
    | some d => if cmp data d > 0 then findSorted c cmp data fuel x.n else some (some it)

/-- The node `r_list_add_sorted` puts before `it`. -/
def addBefore (h : ListMem α) (l : RList) (it : Nat) (data : α) :
    Option (ListResult α (Option Nat)) := do
  let x ← h.cells it
  let item := h.fresh
  let h := h.alloc ⟨some data, some it, x.p⟩
  let cells ← storePrev h.cells it (some item)
  let cells ← storeNextIf cells x.p (some item)
  some
    { mem := { h with cells := cells }, ret := some item
      list :=
        { l with
          head := if x.p.isNone then some item else l.head
          length := l.length + 1, sorted := true } }

/-- `r_list_add_sorted`; it returns NULL when it appends. -/
def rListAddSorted (h : ListMem α) (l : RList) (data : α) (cmp : α → α → Int) :
    Option (ListResult α (Option Nat)) :=
  match findSorted h.cells cmp data h.fresh l.head with
  | none => none
  | some (some it) => addBefore h l it data
  | some none => do
    let r ← rListAppend h l data
    some ⟨r.mem, { r.list with sorted := true }, none⟩

def rListSetN (h : ListMem α) (l : RList) (n : Int) (p : α) : Option (ListResult α Bool) :=
  match iterAt h.cells n h.fresh l.head 0 with
  | none => none
  | some none => some ⟨h, l, false⟩
  | some (some it) => do
    let cells ← storeData h.cells it (some p)
    some ⟨{ h with cells := cells }, { l with sorted := false }, true⟩

/-- Nodes after a sorting routine, with the pointer it returns. -/
structure NodesResult (α : Type) where
  cells : Cells α
  ptr : Option Nat

/-- `a->n = rest; a->n->p = a; a->p = NULL; return a`, as at the end of `_merge`. -/
def linkFront (c : Cells α) (a : Nat) (rest : Option Nat) : Option (NodesResult α) := do
  let c ← storeNext c a rest
  let m ← rest
  let c ← storePrev c m (some a)
  let c ← storePrev c a none
  some ⟨c, some a⟩

/-- `_merge`. -/
def mergeNodes (cmp : α → α → Int) : Nat → Cells α → Option Nat → Option Nat → Option (NodesResult α)
  | _, c, none, second => some ⟨c, second⟩
  | _, c, some a, none => some ⟨c, some a⟩
  | 0, _, some _, some _ => none
  | fuel + 1, c, some a, some b => do
    let x ← c a
    let y ← c b
    let dx ← x.data
    let dy ← y.data
    if cmp dx dy > 0 then do
      let r ← mergeNodes cmp fuel c (some a) y.n
      linkFront r.cells b r.ptr
    else do
      let r ← mergeNodes cmp fuel c x.n (some b)
      linkFront r.cells a r.ptr

/-- The loop of `_r_list_half_split`; the result is `slow`. -/
def halfSplitLoop (c : Cells α) : Nat → Nat → Nat → Option Nat
  | 0, _, _ => none
  | fuel + 1, slow, fast => do
    let x ← c fast
    match x.n with
    | none => some slow
    | some b => do
      let y ← c b
      match y.n with
      | none => some slow
      | some fast => do
        let s ← c slow
        let slow ← s.n
        halfSplitLoop c fuel slow fast

def rListHalfSplit (fuel : Nat) (c : Cells α) (head : Nat) : Option (NodesResult α) := do
  let slow ← halfSplitLoop c fuel head head
  let s ← c slow
  let c ← storeNext c slow none
  some ⟨c, s.n⟩

/-- `_merge_sort`. -/
def mergeSortNodes (cmp : α → α → Int) : Nat → Cells α → Option Nat → Option (NodesResult α)
  | _, c, none => some ⟨c, none⟩
  | 0, _, some _ => none
  | fuel + 1, c, some head => do
    let x ← c head
    if x.n.isNone then some ⟨c, some head⟩
    else do
      let s ← rListHalfSplit fuel c head
      let r ← mergeSortNodes cmp fuel s.cells (some head)
      let t ← mergeSortNodes cmp fuel r.cells s.ptr
      mergeNodes cmp fuel t.cells r.ptr t.ptr

/-- `while (iter && iter->n) iter = iter->n`. -/
def lastIter (c : Cells α) : Nat → Option Nat → Option (Option Nat)
  | _, none => some none
  | 0, some _ => none
  | fuel + 1, some it => do
    let x ← c it
    if x.n.isNone then some (some it) else lastIter c fuel x.n

def rListMergeSort (h : ListMem α) (l : RList) (cmp : α → α → Int) : Option (ListResult α Unit) :=
  if l.sorted = false ∧ l.head.isSome then do
    let r ← mergeSortNodes cmp h.fresh h.cells l.head
    let tail ← lastIter r.cells h.fresh r.ptr
    some ⟨{ h with cells := r.cells }, { l with head := r.ptr, tail := tail, sorted := true }, ()⟩
  else some ⟨h, { l with sorted := true }, ()⟩

/-- The inner loop of `r_list_insertion_sort`, which swaps data with the node `it`. -/
def insertionInner (cmp : α → α → Int) (it : Nat) : Nat → Cells α → Option Nat → Option (Cells α)
  | _, c, none => some c
  | 0, _, some _ => none
  | fuel + 1, c, some it2 => do
    let y ← c it2
    match y.data with
    | none => some c
    | some d2 => do
      let x ← c it
      let d ← x.data
      if cmp d d2 > 0 then do
        let c ← storeData c it (some d2)
        let c ← storeData c it2 (some d)
        insertionInner cmp it fuel c y.n
      else insertionInner cmp it fuel c y.n

def insertionOuter (cmp : α → α → Int) : Nat → Cells α → Option Nat → Option (Cells α)
  | _, c, none => some c
  | 0, _, some _ => none
  | fuel + 1, c, some it => do
    let x ← c it
    if x.data.isNone then some c
    else do
      let c ← insertionInner cmp it fuel c x.n
      let x ← c it
      insertionOuter cmp fuel c x.n

def rListInsertionSort (h : ListMem α) (l : RList) (cmp : α → α → Int) : Option (ListResult α Unit) :=
  if l.sorted = false then do
    let cells ← insertionOuter cmp h.fresh h.cells l.head
    some ⟨{ h with cells := cells }, { l with sorted := true }, ()⟩
  else some ⟨h, l, ()⟩

def rListSort (h : ListMem α) (l : RList) (cmp : α → α → Int) : Option (ListResult α Unit) :=
  if l.length > 43 then rListMergeSort h l cmp else rListInsertionSort h l cmp

/-- The lists of a program, by name, over one memory. `owned` is false for a list that
`r_list_join` has emptied: "the caller must free list2". -/
structure ListPool (α : Type) where
  mem : ListMem α
  lists : Nat → RList
  owned : Nat → Bool

def ListPool.empty : ListPool α := ⟨⟨fun _ => none, 0⟩, fun _ => RList.init, fun _ => true⟩

def ListPool.put {β : Type} (s : ListPool α) (id : Nat) (r : ListResult α β) : ListPool α :=
  { s with mem := r.mem, lists := Function.update s.lists id r.list }

/-- `r_list_empty`. -/
def RList.isEmpty (l : RList) : Bool := l.head.isNone && l.tail.isNone

/-- How `r_list_join` links the second list to the first, before it counts. -/
def joinLink (s : ListPool α) (id1 id2 : Nat) : Option (ListPool α) :=
  let l1 := s.lists id1
  let l2 := s.lists id2
  if l1.isEmpty then
    some { s with lists := Function.update s.lists id1 { l1 with head := l2.head, tail := l2.tail } }
  else
    match l1.tail with
    | none => some { s with lists := Function.update s.lists id1 { l1 with tail := l2.head } }
    | some t =>
      match l2.head with
      | none => some s
      | some b => do
        let cells ← storeNext s.mem.cells t (some b)
        let cells ← storePrev cells b (some t)
        some { s with mem := { s.mem with cells := cells } }

/-- `r_list_join`, where both names may stand for one list. -/
def rListJoin (s : ListPool α) (id1 id2 : Nat) : Option (ListPool α) :=
  if (s.lists id2).isEmpty then some s
  else do
    let s ← joinLink s id1 id2
    let l1 := s.lists id1
    let lists := Function.update s.lists id1 { l1 with length := l1.length + (s.lists id2).length }
    let lists := Function.update lists id2 { lists id2 with head := none, tail := none }
    let lists := Function.update lists id1 { lists id1 with sorted := true }
    some { s with lists := lists, owned := Function.update s.owned id2 false }

end Radare
