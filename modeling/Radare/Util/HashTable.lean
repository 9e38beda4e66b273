import Radare.Framework.MachineInt
import Radare.Framework.OpenAddressing

namespace Radare

open Framework (Slot around stepOn NoGap entriesOf deletedOf)

/-- A row of `hash_sizes`. -/
structure HashSize where
  maxEntries : Nat
  size : Nat
  rehash : Nat
deriving DecidableEq

def hashSizes : Vector HashSize 31 := #v[
  ⟨2, 5, 3⟩, ⟨4, 7, 5⟩, ⟨8, 13, 11⟩, ⟨16, 19, 17⟩, ⟨32, 43, 41⟩, ⟨64, 73, 71⟩, ⟨128, 151, 149⟩, ⟨256, 283, 281⟩,
  ⟨512, 571, 569⟩, ⟨1024, 1153, 1151⟩, ⟨2048, 2269, 2267⟩, ⟨4096, 4519, 4517⟩, ⟨8192, 9013, 9011⟩,
  ⟨16384, 18043, 18041⟩, ⟨32768, 36109, 36107⟩, ⟨65536, 72091, 72089⟩, ⟨131072, 144409, 144407⟩,
  ⟨262144, 288361, 288359⟩, ⟨524288, 576883, 576881⟩, ⟨1048576, 1153459, 1153457⟩, ⟨2097152, 2307163, 2307161⟩,
  ⟨4194304, 4613893, 4613891⟩, ⟨8388608, 9227641, 9227639⟩, ⟨16777216, 18455029, 18455027⟩,
  ⟨33554432, 36911011, 36911009⟩, ⟨67108864, 73819861, 73819859⟩, ⟨134217728, 147639589, 147639587⟩,
  ⟨268435456, 295279081, 295279079⟩, ⟨536870912, 590559793, 590559791⟩, ⟨1073741824, 1181116273, 1181116271⟩,
  ⟨2147483648, 2362232233, 2362232231⟩]

/-- `RHashTable64Entry`; `none` is NULL. -/
structure RHashTable64Entry (α : Type) where
  hash : Ut64
  data : Option α

variable {α : Type}

/-- `DELETED_HASH`. -/
def deletedHash : Ut64 := 0xffffffff

namespace RHashTable64Entry

/-- `entry_is_free`. -/
def isFree (x : RHashTable64Entry α) : Bool := x.hash == 0 && x.data.isNone

/-- `entry_is_deleted`. -/
def isDeleted (x : RHashTable64Entry α) : Bool := x.hash == deletedHash && x.data.isNone

/-- `entry_is_present`. -/
def isPresent (x : RHashTable64Entry α) : Bool := x.data.isSome || x.hash != 0 && x.hash != deletedHash

end RHashTable64Entry

/-- `RHashTable64` without a `free` function. `size`, `rehash` and `max_entries` are always those of the row
`size_index`, and `table` has `size` places. -/
structure RHashTable64 (α : Type) where
  sizeIndex : Fin 31
  table : Fin hashSizes[sizeIndex].size → RHashTable64Entry α
  entries : Nat
  deletedEntries : Nat

/-- What `calloc` gives. -/
def emptyTable (i : Fin 31) : Fin hashSizes[i].size → RHashTable64Entry α := fun _ => ⟨0, none⟩

def rHashtable64New : RHashTable64 α := ⟨0, emptyTable 0, 0, 0⟩

namespace RHashTable64

variable (ht : RHashTable64 α)

theorem sizes_fit (i : Fin 31) : 0 < hashSizes[i].rehash ∧ hashSizes[i].rehash < hashSizes[i].size ∧
    hashSizes[i].size < 4294967296 ∧ 0 < hashSizes[i].maxEntries ∧ hashSizes[i].maxEntries < hashSizes[i].size := by
  decide +revert

/-- `hash % ht->size`. -/
def home (hash : Ut64) : Fin hashSizes[ht.sizeIndex].size :=
  ⟨hash.toNat % hashSizes[ht.sizeIndex].size,
    Nat.mod_lt _ (Nat.lt_trans (sizes_fit ht.sizeIndex).1 (sizes_fit ht.sizeIndex).2.1)⟩

def doubleHash (hash : Ut64) : Nat :=
  let doubleHash := hash.toNat % hashSizes[ht.sizeIndex].rehash
  if doubleHash = 0 then 1 else doubleHash

/-- The next `hash_address`; the sum is a `ut64`. -/
def next (hash : Ut64) (hashAddress : Fin hashSizes[ht.sizeIndex].size) : Fin hashSizes[ht.sizeIndex].size :=
  ⟨(hashAddress.val + ht.doubleHash hash) % 18446744073709551616 % hashSizes[ht.sizeIndex].size, Nat.mod_lt _ hashAddress.pos⟩

end RHashTable64

/-- `++` of a `ut64`. -/
def incUt64 (n : Nat) : Nat := (n + 1) % 18446744073709551616

/-- `--` of a `ut64`. -/
def decUt64 (n : Nat) : Nat := (n + 18446744073709551615) % 18446744073709551616

theorem incUt64_of_lt {n : Nat} (h : n < 4294967296) : incUt64 n = n + 1 := by
  unfold incUt64
  omega

theorem decUt64_succ {n : Nat} (h : n < 4294967296) : decUt64 (n + 1) = n := by
  unfold decUt64
  omega

/-- `r_hashtable64_search`; the loop has no more turns than the table has places. -/
def rHashtable64Search (ht : RHashTable64 α) (hash : Ut64) : Option (Option (Fin hashSizes[ht.sizeIndex].size)) := do
  let found ← around (ht.next hash) (ht.home hash)
    (fun a =>
      if (ht.table a).isFree then some none
      else if (ht.table a).isPresent && (ht.table a).hash == hash then some (some a)
      else none) hashSizes[ht.sizeIndex].size (ht.home hash)
  return found.join

def rHashtable64Lookup (ht : RHashTable64 α) (hash : Ut64) : Option (Option α) := do
  let entry ← rHashtable64Search ht hash
  return entry.bind fun a => (ht.table a).data

/-- The loop of `r_hashtable64_insert`. -/
def insertLoop (ht : RHashTable64 α) (hash : Ut64) (data : Option α) : Option (RHashTable64 α × Bool) := do
  let found ← around (ht.next hash) (ht.home hash)
    (fun a => if (ht.table a).isPresent then none else some a) hashSizes[ht.sizeIndex].size (ht.home hash)
  match found with
  | none => return (ht, false)
  | some a =>
    return ({ ht with
      table := Function.update ht.table a ⟨hash, data⟩
      entries := incUt64 ht.entries
      deletedEntries := if (ht.table a).isDeleted then decUt64 ht.deletedEntries else ht.deletedEntries }, true)

/-- `r_hashtable64_rehash`, which inserts the present entries with `insert`; no `calloc` fails. -/
def rehashWith (insert : RHashTable64 α → Ut64 → Option α → Option (RHashTable64 α × Bool))
    (ht : RHashTable64 α) (newSizeIndex : Nat) : Option (RHashTable64 α) :=
  if h : newSizeIndex < 31 then
    (List.finRange hashSizes[ht.sizeIndex].size).foldlM (fun (new : RHashTable64 α) e =>
      if (ht.table e).isPresent then do
        let (new, _) ← insert new (ht.table e).hash (ht.table e).data
        return new
      else return new) ⟨⟨newSizeIndex, h⟩, emptyTable ⟨newSizeIndex, h⟩, 0, 0⟩
  else some ht

/-- The rehash that `r_hashtable64_insert` begins with. -/
def makeRoom (insert : RHashTable64 α → Ut64 → Option α → Option (RHashTable64 α × Bool))
    (ht : RHashTable64 α) : Option (RHashTable64 α) :=
  if hashSizes[ht.sizeIndex].maxEntries ≤ ht.entries then rehashWith insert ht (ht.sizeIndex + 1)
  else if hashSizes[ht.sizeIndex].maxEntries ≤ (ht.deletedEntries + ht.entries) % 18446744073709551616 then
    rehashWith insert ht ht.sizeIndex
  else some ht

/-- `r_hashtable64_insert` and `r_hashtable64_rehash` call each other; `none` where the calls are deeper than
`depth`. -/
def insertDepth : Nat → RHashTable64 α → Ut64 → Option α → Option (RHashTable64 α × Bool)
  | 0, _, _, _ => none
  | depth + 1, ht, hash, data => do
    let ht ← makeRoom (insertDepth depth) ht
    insertLoop ht hash data

/-- `r_hashtable64_insert`. The insertions of a rehash never rehash again, so a depth of two calls is enough. -/
def rHashtable64Insert (ht : RHashTable64 α) (hash : Ut64) (data : Option α) : Option (RHashTable64 α × Bool) :=
  insertDepth 2 ht hash data

def rHashtable64Remove (ht : RHashTable64 α) (hash : Ut64) : Option (RHashTable64 α) := do
  let entry ← rHashtable64Search ht hash
  match entry with
  | none => return ht
  | some a =>
    return { ht with
      table := Function.update ht.table a ⟨deletedHash, none⟩
      entries := decUt64 ht.entries
      deletedEntries := incUt64 ht.deletedEntries }

namespace RHashTable64Entry

/-- What an entry is where NULL data stand for no entry. -/
def slot (x : RHashTable64Entry α) : Slot Ut64 α :=
  match x.data with
  | some v => .present x.hash v
  | none => if x.hash = 0 then .free else .deleted

/-- NULL data stand at free and at deleted places only. -/
def Plain (x : RHashTable64Entry α) : Prop := x.data = none → x.hash = 0 ∨ x.hash = deletedHash

variable {x : RHashTable64Entry α}

theorem isFree_iff : x.isFree = true ↔ x.slot = .free := by
  obtain ⟨hash, data⟩ := x
  cases data with
  | none => simp [isFree, slot]
  | some v => simp [isFree, slot]

theorem Plain.isPresent (hx : x.Plain) : x.isPresent = x.slot.pair.isSome := by
  obtain ⟨hash, data⟩ := x
  cases data with
  | none =>
    rcases hx rfl with h | h
    · subst h
      rfl
    · subst h
      rfl
  | some v => rfl

theorem Plain.isDeleted (hx : x.Plain) : x.isDeleted = x.slot.isDeleted := by
  obtain ⟨hash, data⟩ := x
  cases data with
  | none =>
    rcases hx rfl with h | h
    · subst h
      rfl
    · subst h
      rfl
  | some v => simp [RHashTable64Entry.isDeleted, slot, Slot.isDeleted]

end RHashTable64Entry

theorem hashSizes_prime (i : Fin 31) : hashSizes[i].size.Prime := by
  have hrows : ∀ i : Fin 31, hashSizes[i].size % 2 = 1 ∧ 3 ≤ hashSizes[i].size ∧
      Framework.oddClear hashSizes[i].size ((i.val + 1) / 2) 3 = true ∧
      hashSizes[i].size < (3 + 2 * 2 ^ ((i.val + 1) / 2)) * (3 + 2 * 2 ^ ((i.val + 1) / 2)) := by
    decide +kernel
  obtain ⟨hodd, hthree, hclear, hroot⟩ := hrows i
  exact Framework.prime_of_oddClear hodd hthree hclear hroot

namespace RHashTable64

variable {ht : RHashTable64 α} {hash : Ut64}

def slots (ht : RHashTable64 α) (a : Fin hashSizes[ht.sizeIndex].size) : Slot Ut64 α := (ht.table a).slot

/-- The addresses that a search for `hash` tries. -/
def order (ht : RHashTable64 α) (hash : Ut64) : List (Fin hashSizes[ht.sizeIndex].size) :=
  List.iterate (ht.next hash) (ht.home hash) hashSizes[ht.sizeIndex].size

theorem doubleHash_pos : 0 < ht.doubleHash hash := by
  unfold doubleHash
  dsimp only
  split_ifs with h
  · exact Nat.one_pos
  · exact Nat.pos_of_ne_zero h

theorem doubleHash_lt : ht.doubleHash hash < hashSizes[ht.sizeIndex].size := by
  obtain ⟨hpos, hlt, -⟩ := sizes_fit ht.sizeIndex
  unfold doubleHash
  dsimp only
  split_ifs
  · omega
  · exact Nat.lt_trans (Nat.mod_lt _ hpos) hlt

/-- The sum of two addresses does not wrap. -/
theorem next_eq : ht.next hash = stepOn (ht.doubleHash hash) := by
  funext a
  apply Fin.ext
  have hfit := (sizes_fit ht.sizeIndex).2.2.1
  have hdouble : ht.doubleHash hash < _ := doubleHash_lt
  have ha := a.isLt
  change (a.val + ht.doubleHash hash) % 18446744073709551616 % _ = (a.val + ht.doubleHash hash) % _
  rw [Nat.mod_eq_of_lt (show a.val + ht.doubleHash hash < 18446744073709551616 by omega)]

theorem coprime_size : Nat.Coprime (ht.doubleHash hash) hashSizes[ht.sizeIndex].size :=
  (Nat.coprime_of_lt_prime (Nat.ne_of_gt doubleHash_pos) doubleHash_lt (hashSizes_prime ht.sizeIndex)).symm

theorem mem_order (a : Fin hashSizes[ht.sizeIndex].size) : a ∈ ht.order hash := by
  rw [order, next_eq]
  exact Framework.mem_round coprime_size _ a

theorem around_order {ρ : Type} (visit : Fin hashSizes[ht.sizeIndex].size → Option ρ) :
    around (ht.next hash) (ht.home hash) visit hashSizes[ht.sizeIndex].size (ht.home hash) =
      some ((ht.order hash).findSome? visit) := by
  rw [order, next_eq]
  exact Framework.around_round (ht.home hash).pos (Framework.stepOn_back _ _)
    fun k hpos hk => Framework.stepOn_first coprime_size hpos hk

theorem search_eq (hplain : ∀ a, (ht.table a).Plain) :
    rHashtable64Search ht hash = some ((ht.order hash).findSome? (Framework.seekVisit ht.slots hash)).join := by
  have hvisit : (fun a => if (ht.table a).isFree then some none
      else if (ht.table a).isPresent && (ht.table a).hash == hash then some (some a) else none) =
      Framework.seekVisit ht.slots hash := by
    funext a
    rw [Framework.seekVisit, slots]
    cases hslot : (ht.table a).slot with
    | free => rw [if_pos (RHashTable64Entry.isFree_iff.mpr hslot)]
    | deleted =>
      rw [if_neg (by simp [RHashTable64Entry.isFree_iff, hslot]), (hplain a).isPresent, hslot]
      rfl
    | present key v =>
      rw [if_neg (by simp [RHashTable64Entry.isFree_iff, hslot]), (hplain a).isPresent, hslot]
      have hkey : (ht.table a).hash = key := by
        rw [RHashTable64Entry.slot] at hslot
        split at hslot
        · cases hslot
          rfl
        · split_ifs at hslot
      rw [hkey]
      simp [Slot.pair]
  rw [rHashtable64Search, hvisit, around_order]
  rfl

section Pairs

variable {m : List (Ut64 × α)} {v : α}

theorem lookup_absent (h : hash ∉ m.map Prod.fst) : m.lookup hash = none := by
  rw [List.lookup_eq_none_iff]
  intro e he
  rw [bne_iff_ne]
  intro hkey
  exact h (List.mem_map.mpr ⟨e, he, hkey.symm⟩)

theorem lookup_present (hkeys : (m.map Prod.fst).Nodup) (hv : (hash, v) ∈ m) : m.lookup hash = some v := by
  induction m with
  | nil => cases hv
  | cons e m ih =>
    obtain ⟨k, w⟩ := e
    rw [List.map_cons, List.nodup_cons] at hkeys
    rcases List.mem_cons.mp hv with heq | hrest
    · cases heq
      rw [List.lookup_cons_self]
    · have hne : hash ≠ k := fun heq => hkeys.1 (List.mem_map.mpr ⟨(hash, v), hrest, heq⟩)
      rw [List.lookup_cons, beq_eq_false_iff_ne.mpr hne]
      exact ih hkeys.2 hrest

theorem filter_key (hkeys : (m.map Prod.fst).Nodup) (hv : (hash, v) ∈ m) :
    m.Perm ((hash, v) :: m.filter fun e => e.1 ≠ hash) := by
  obtain ⟨pre, suf, rfl⟩ := List.append_of_mem hv
  have hperm : (pre ++ (hash, v) :: suf).Perm ((hash, v) :: (pre ++ suf)) := List.perm_middle
  have hkeys' := (hperm.map Prod.fst).nodup_iff.mp hkeys
  rw [List.map_cons, List.nodup_cons] at hkeys'
  have hself : (pre ++ suf).filter (fun e => e.1 ≠ hash) = pre ++ suf := by
    refine List.filter_eq_self.mpr fun e he => decide_eq_true fun hkey => hkeys'.1 ?_
    exact List.mem_map.mpr ⟨e, he, hkey⟩
  have hfilter : (pre ++ (hash, v) :: suf).filter (fun e => e.1 ≠ hash) = pre ++ suf := by
    rw [List.filter_append, List.filter_cons_of_neg (by simp), ← List.filter_append, hself]
  rw [hfilter]
  exact hperm

theorem data_of_slot {x : RHashTable64Entry α} (h : x.slot = .present hash v) : x.data = some v := by
  rw [RHashTable64Entry.slot] at h
  split at h
  · next hdata =>
    cases h
    exact hdata
  · split_ifs at h

theorem hash_of_slot {x : RHashTable64Entry α} (h : x.slot = .present hash v) : x.hash = hash := by
  rw [RHashTable64Entry.slot] at h
  split at h
  · cases h
    rfl
  · split_ifs at h

end Pairs

/-- The table holds the pairs of `m`, each key once, where a search finds them. -/
structure Holds (ht : RHashTable64 α) (m : List (Ut64 × α)) : Prop where
  plain : ∀ a, (ht.table a).Plain
  gap : NoGap ht.order ht.slots
  contents : (entriesOf (List.finRange _) ht.slots).Perm m
  keys : (m.map Prod.fst).Nodup
  entries : ht.entries = m.length
  deleted : ht.deletedEntries = deletedOf (List.finRange _) ht.slots
  fits : m.length ≤ hashSizes[ht.sizeIndex].maxEntries ∨ ht.sizeIndex = 30

namespace Holds

variable {m m' : List (Ut64 × α)}

theorem perm (h : ht.Holds m) (hm : m.Perm m') : ht.Holds m' :=
  ⟨h.plain, h.gap, h.contents.trans hm, (hm.map _).nodup_iff.mp h.keys, h.entries.trans hm.length_eq, h.deleted,
    hm.length_eq ▸ h.fits⟩

theorem single (h : ht.Holds m) : Framework.Single ht.slots :=
  Framework.single_of_nodup (List.nodup_finRange _) (List.mem_finRange ·) ((h.contents.map _).nodup_iff.mpr h.keys)

/-- A search finds the place of each key and of no other one. -/
theorem search (h : ht.Holds m) (hash : Ut64) :
    ∃ found, rHashtable64Search ht hash = some found ∧
      (match found with
        | none => hash ∉ m.map Prod.fst
        | some a => ∃ v, (ht.table a).slot = .present hash v ∧ (hash, v) ∈ m) := by
  refine ⟨_, search_eq h.plain, ?_⟩
  by_cases hmem : ∃ v, (hash, v) ∈ m
  · obtain ⟨v, hv⟩ := hmem
    obtain ⟨a, -, ha⟩ := Framework.mem_entriesOf.mp (h.contents.mem_iff.mpr hv)
    rw [Framework.seek_found h.gap h.single (mem_order a) ha]
    exact ⟨v, ha, hv⟩
  · rw [Framework.seek_absent]
    · intro hkey
      obtain ⟨⟨k, v⟩, hv, rfl⟩ := List.mem_map.mp hkey
      exact hmem ⟨v, hv⟩
    · intro a v ha
      exact hmem ⟨v, h.contents.mem_iff.mp (Framework.mem_entriesOf.mpr ⟨a, List.mem_finRange a, ha⟩)⟩

theorem lookup (h : ht.Holds m) (hash : Ut64) : rHashtable64Lookup ht hash = some (m.lookup hash) := by
  obtain ⟨found, hfound, hspec⟩ := h.search hash
  rw [rHashtable64Lookup, hfound]
  cases found with
  | none =>
    rw [lookup_absent hspec]
    rfl
  | some a =>
    obtain ⟨v, ha, hv⟩ := hspec
    rw [lookup_present h.keys hv]
    exact congrArg some (data_of_slot ha)

/-- One place changes, and with it the pairs and the counters. -/
theorem update (h : ht.Holds m) (rest : List (Ut64 × α)) {a : Fin hashSizes[ht.sizeIndex].size}
    {x : RHashTable64Entry α} {entries deletedEntries : Nat} (hx : x.Plain)
    (hgap : NoGap ht.order (Function.update ht.slots a x.slot)) (hm : m.Perm ((ht.slots a).pair.toList ++ rest))
    (hm' : m'.Perm (x.slot.pair.toList ++ rest)) (hkeys : (m'.map Prod.fst).Nodup) (hentries : entries = m'.length)
    (hdeleted : deletedEntries + (ht.slots a).isDeleted.toNat = ht.deletedEntries + x.slot.isDeleted.toNat)
    (hfits : m'.length ≤ hashSizes[ht.sizeIndex].maxEntries ∨ ht.sizeIndex = 30) :
    RHashTable64.Holds ⟨ht.sizeIndex, Function.update ht.table a x, entries, deletedEntries⟩ m' := by
  have hslots : RHashTable64.slots ⟨ht.sizeIndex, Function.update ht.table a x, entries, deletedEntries⟩ =
      Function.update ht.slots a x.slot := by
    funext b
    unfold slots
    dsimp only
    by_cases hb : b = a
    · rw [hb, Function.update_self, Function.update_self]
    · rw [Function.update_of_ne hb, Function.update_of_ne hb]
  have hnodup := List.nodup_finRange hashSizes[ht.sizeIndex].size
  refine ⟨fun b => ?_, ?_, ?_, hkeys, hentries, ?_, hfits⟩
  · dsimp only
    by_cases hb : b = a
    · rwa [hb, Function.update_self]
    · rw [Function.update_of_ne hb]
      exact h.plain b
  · rw [hslots]
    exact hgap
  · rw [hslots]
    have hsplit := Framework.entriesOf_split (t := ht.slots) hnodup (List.mem_finRange a)
    have hrest := List.perm_append_left_iff _ |>.mp ((hsplit.symm.trans h.contents).trans hm)
    exact ((Framework.entriesOf_update hnodup (List.mem_finRange a) x.slot).trans (hrest.append_left _)).trans hm'.symm
  · rw [hslots]
    dsimp only
    have hsplit := Framework.deletedOf_split (t := ht.slots) hnodup (List.mem_finRange a)
    have hupdate := Framework.deletedOf_update (t := ht.slots) hnodup (List.mem_finRange a) x.slot
    have hcount := h.deleted
    omega

theorem deleted_le (h : ht.Holds m) : ht.deletedEntries + m.length ≤ hashSizes[ht.sizeIndex].size := by
  rw [h.deleted, ← h.contents.length_eq]
  exact (Framework.deletedOf_add_entriesOf_le _ _).trans (Nat.le_of_eq (List.length_finRange ..))

theorem remove (h : ht.Holds m) (hash : Ut64) :
    ∃ ht', rHashtable64Remove ht hash = some ht' ∧ ht'.Holds (m.filter fun e => e.1 ≠ hash) := by
  obtain ⟨found, hfound, hspec⟩ := h.search hash
  rw [rHashtable64Remove, hfound]
  cases found with
  | none =>
    refine ⟨ht, rfl, ?_⟩
    have hself : m.filter (fun e => e.1 ≠ hash) = m := by
      refine List.filter_eq_self.mpr fun e he => decide_eq_true fun hkey => hspec ?_
      exact List.mem_map.mpr ⟨e, he, hkey⟩
    rwa [hself]
  | some a =>
    obtain ⟨v, ha, hv⟩ := hspec
    have hrest := filter_key h.keys hv
    have hlen := hrest.length_eq
    rw [List.length_cons] at hlen
    have hsum := h.deleted_le
    have hfit := (sizes_fit ht.sizeIndex).2.2.1
    have hentries := h.entries
    refine ⟨_, rfl, h.update (m.filter fun e => e.1 ≠ hash) (fun _ => .inr rfl) (h.gap.delete a) ?_ (.refl _)
      (h.keys.sublist (List.filter_sublist.map _)) ?_ ?_ (h.fits.imp_left fun hle => by omega)⟩
    · rw [slots, ha]
      exact hrest
    · rw [hentries, hlen]
      exact decUt64_succ (by omega)
    · rw [slots, ha, incUt64_of_lt (by omega)]
      rfl

theorem insertLoop (h : ht.Holds m) {hash : Ut64} (v : α) (hnew : hash ∉ m.map Prod.fst)
    (hroom : m.length < hashSizes[ht.sizeIndex].size)
    (hfits : m.length < hashSizes[ht.sizeIndex].maxEntries ∨ ht.sizeIndex = 30) :
    ∃ ht', Radare.insertLoop ht hash (some v) = some (ht', true) ∧ ht'.Holds ((hash, v) :: m) ∧
      ht'.sizeIndex = ht.sizeIndex ∧ ht'.deletedEntries ≤ ht.deletedEntries := by
  have hvisit : (fun a => if (ht.table a).isPresent then none else some a) = Framework.roomVisit ht.slots := by
    funext a
    rw [(h.plain a).isPresent, Framework.roomVisit, slots]
    cases (ht.table a).slot <;> rfl
  have hcount := h.contents.length_eq
  obtain ⟨a, -, ha⟩ := Framework.exists_room (List.finRange hashSizes[ht.sizeIndex].size) ht.slots
    (by rw [hcount, List.length_finRange]; exact hroom)
  obtain ⟨b, -, hfound, hb⟩ := Framework.room_found (mem_order a : a ∈ ht.order hash) ha
  have hfit := (sizes_fit ht.sizeIndex).2.2.1
  have hentries := h.entries
  have hsum := h.deleted_le
  have hkeys : (((hash, v) :: m).map Prod.fst).Nodup := by
    rw [List.map_cons, List.nodup_cons]
    exact ⟨hnew, h.keys⟩
  have hcounter : (if (ht.table b).isDeleted then decUt64 ht.deletedEntries else ht.deletedEntries) +
      (ht.slots b).isDeleted.toNat = ht.deletedEntries := by
    have hsplit := Framework.deletedOf_split (t := ht.slots) (List.nodup_finRange _) (List.mem_finRange b)
    rw [← h.deleted] at hsplit
    rw [(h.plain b).isDeleted, ← slots]
    cases hdel : (ht.slots b).isDeleted with
    | false => rw [if_neg Bool.false_ne_true, Bool.toNat_false, Nat.add_zero]
    | true =>
      rw [hdel, Bool.toNat_true, Nat.add_comm] at hsplit
      rw [if_pos rfl, Bool.toNat_true, hsplit, decUt64_succ (by omega)]
  rw [Radare.insertLoop, hvisit, around_order, hfound]
  refine ⟨_, rfl, h.update m (fun hnone => by cases hnone) (h.gap.insert hfound) ?_ (.refl _) hkeys ?_ hcounter
    (hfits.imp_left Nat.succ_le_of_lt), rfl, ?_⟩
  · rw [hb]
    exact .refl _
  · rw [hentries, List.length_cons, incUt64_of_lt (by omega)]
  · exact Nat.le_trans (Nat.le_add_right _ _) (Nat.le_of_eq hcounter)

/-- Where the table has room, an insertion does not rehash. -/
theorem insertDepth_room (h : ht.Holds m) {hash : Ut64} (v : α) (hnew : hash ∉ m.map Prod.fst) (depth : Nat)
    (hroom : m.length < hashSizes[ht.sizeIndex].maxEntries) (hdeleted : ht.deletedEntries = 0) :
    ∃ ht', insertDepth (depth + 1) ht hash (some v) = some (ht', true) ∧ ht'.Holds ((hash, v) :: m) ∧
      ht'.sizeIndex = ht.sizeIndex ∧ ht'.deletedEntries = 0 := by
  have hmax := (sizes_fit ht.sizeIndex).2.2.2.2
  have hfit := (sizes_fit ht.sizeIndex).2.2.1
  have hentries := h.entries
  obtain ⟨ht', hloop, hholds, hindex, hdel⟩ := h.insertLoop v hnew (Nat.lt_trans hroom hmax) (.inl hroom)
  refine ⟨ht', ?_, hholds, hindex, by omega⟩
  rw [insertDepth, makeRoom, if_neg (by omega), if_neg (by omega)]
  exact hloop

end Holds

theorem holds_empty (i : Fin 31) : RHashTable64.Holds (⟨i, emptyTable i, 0, 0⟩ : RHashTable64 α) [] := by
  have hslots : RHashTable64.slots (⟨i, emptyTable i, 0, 0⟩ : RHashTable64 α) = fun _ => .free := by
    funext a
    rfl
  refine ⟨fun _ _ => .inl rfl, hslots ▸ Framework.noGap_free, ?_, List.nodup_nil, rfl, ?_, .inl (Nat.zero_le _)⟩
  · rw [hslots]
    exact .of_eq (List.filterMap_eq_nil_iff.mpr fun _ _ => rfl)
  · rw [hslots]
    exact (List.countP_eq_zero.mpr fun _ _ => Bool.false_ne_true).symm

/-- The loop of a rehash over the places of the old table. -/
theorem rehash_places (h : ht.Holds m) (depth : Nat) (places : List (Fin hashSizes[ht.sizeIndex].size)) :
    ∀ (new : RHashTable64 α) (old : List (Ut64 × α)), new.Holds old → new.deletedEntries = 0 →
      ((entriesOf places ht.slots ++ old).map Prod.fst).Nodup →
      (entriesOf places ht.slots ++ old).length ≤ hashSizes[new.sizeIndex].maxEntries →
      ∃ new', places.foldlM (fun (new : RHashTable64 α) e =>
          if (ht.table e).isPresent then do
            let (new, _) ← insertDepth (depth + 1) new (ht.table e).hash (ht.table e).data
            return new
          else return new) new = some new' ∧
        new'.Holds (entriesOf places ht.slots ++ old) ∧ new'.sizeIndex = new.sizeIndex := by
  induction places with
  | nil => exact fun new old hold _ _ _ => ⟨new, rfl, hold, rfl⟩
  | cons e places ih =>
    intro new old hold hzero hkeys hroom
    rw [List.foldlM_cons, (h.plain e).isPresent]
    cases hslot : (ht.table e).slot.pair with
    | none =>
      have hcons : entriesOf (e :: places) ht.slots = entriesOf places ht.slots := List.filterMap_cons_none hslot
      rw [hcons] at hkeys hroom ⊢
      exact ih new old hold hzero hkeys hroom
    | some kv =>
      obtain ⟨k, v⟩ := kv
      have hcons : entriesOf (e :: places) ht.slots = (k, v) :: entriesOf places ht.slots :=
        List.filterMap_cons_some hslot
      have hpresent := Slot.pair_eq_some.mp hslot
      have hhash : (ht.table e).hash = k := hash_of_slot hpresent
      have hdata : (ht.table e).data = some v := data_of_slot hpresent
      rw [hcons] at hkeys hroom ⊢
      have hmiddle : (entriesOf places ht.slots ++ (k, v) :: old).Perm ((k, v) :: entriesOf places ht.slots ++ old) :=
        List.perm_middle
      have hnew : k ∉ old.map Prod.fst := fun hmem => by
        rw [List.cons_append, List.map_cons, List.nodup_cons, List.map_append] at hkeys
        exact hkeys.1 (List.mem_append_right _ hmem)
      rw [List.cons_append, List.length_cons, List.length_append] at hroom
      obtain ⟨next, hinsert, hnext, hindex, hdeleted⟩ := hold.insertDepth_room v hnew depth (by omega) hzero
      have hroom' : (entriesOf places ht.slots ++ (k, v) :: old).length ≤ hashSizes[next.sizeIndex].maxEntries := by
        have hmax : hashSizes[next.sizeIndex].maxEntries = hashSizes[new.sizeIndex].maxEntries :=
          congrArg (fun i : Fin 31 => hashSizes[i].maxEntries) hindex
        rw [hmax, List.length_append, List.length_cons]
        omega
      obtain ⟨new', hfold, hnew', hindex'⟩ :=
        ih next ((k, v) :: old) hnext hdeleted ((hmiddle.map _).nodup_iff.mpr hkeys) hroom'
      refine ⟨new', ?_, hnew'.perm hmiddle, hindex'.trans hindex⟩
      rw [hhash, hdata, hinsert]
      exact hfold

theorem rehash_holds (h : ht.Holds m) (depth : Nat) (i : Fin 31) (hroom : m.length ≤ hashSizes[i].maxEntries) :
    ∃ new, rehashWith (insertDepth (depth + 1)) ht i = some new ∧ new.Holds m ∧ new.sizeIndex = i := by
  have hlen := h.contents.length_eq
  have hkeys := (h.contents.map Prod.fst).nodup_iff.mpr h.keys
  obtain ⟨new, hfold, hnew, hindex⟩ := rehash_places h depth (List.finRange _) ⟨i, emptyTable i, 0, 0⟩ []
    (holds_empty i) rfl (by rwa [List.append_nil]) (by rw [List.append_nil, hlen]; exact hroom)
  rw [List.append_nil] at hnew
  refine ⟨new, ?_, hnew.perm h.contents, hindex⟩
  rw [rehashWith, dif_pos i.isLt]
  exact hfold

theorem maxEntries_grow (i : Fin 31) (hi : i.val + 1 < 31) :
    hashSizes[i].maxEntries < hashSizes[(⟨i.val + 1, hi⟩ : Fin 31)].maxEntries := by
  decide +revert

theorem makeRoom_holds (h : ht.Holds m) (hfull : m.length < 2362232233) :
    ∃ new, makeRoom (insertDepth 1) ht = some new ∧ new.Holds m ∧ m.length < hashSizes[new.sizeIndex].size ∧
      (m.length < hashSizes[new.sizeIndex].maxEntries ∨ new.sizeIndex = 30) := by
  rw [makeRoom]
  have hentries := h.entries
  have hmax := (sizes_fit ht.sizeIndex).2.2.2.2
  by_cases hgrow : hashSizes[ht.sizeIndex].maxEntries ≤ ht.entries
  · rw [if_pos hgrow]
    by_cases hlast : ht.sizeIndex.val + 1 < 31
    · have hnext := maxEntries_grow ht.sizeIndex hlast
      have hfits : m.length ≤ hashSizes[ht.sizeIndex].maxEntries := by
        refine h.fits.resolve_right fun heq => ?_
        rw [heq] at hlast
        exact absurd hlast (by decide)
      obtain ⟨new, hnew, hholds, hindex⟩ :=
        rehash_holds h 0 ⟨ht.sizeIndex.val + 1, hlast⟩ (Nat.le_trans hfits (Nat.le_of_lt hnext))
      refine ⟨new, hnew, hholds, ?_⟩
      rw [show hashSizes[new.sizeIndex] = _ from congrArg (fun i : Fin 31 => hashSizes[i]) hindex]
      have hlt := Nat.lt_of_le_of_lt hfits hnext
      exact ⟨Nat.lt_trans hlt (sizes_fit _).2.2.2.2, .inl hlt⟩
    · have hindex : ht.sizeIndex = 30 := Fin.ext (by have := ht.sizeIndex.isLt; change _ = 30; omega)
      refine ⟨ht, ?_, h, ?_, .inr hindex⟩
      · rw [rehashWith, dif_neg hlast]
      · rw [show hashSizes[ht.sizeIndex] = _ from congrArg (fun i : Fin 31 => hashSizes[i]) hindex]
        exact hfull
  · rw [if_neg hgrow]
    have hroom : m.length < hashSizes[ht.sizeIndex].maxEntries := by omega
    split_ifs
    · obtain ⟨new, hnew, hholds, hindex⟩ := rehash_holds h 0 ht.sizeIndex (Nat.le_of_lt hroom)
      refine ⟨new, hnew, hholds, ?_⟩
      rw [show hashSizes[new.sizeIndex] = _ from congrArg (fun i : Fin 31 => hashSizes[i]) hindex]
      exact ⟨Nat.lt_trans hroom hmax, .inl hroom⟩
    · exact ⟨ht, rfl, h, Nat.lt_trans hroom hmax, .inl hroom⟩

theorem insert_holds (h : ht.Holds m) (v : α) (hnew : hash ∉ m.map Prod.fst) (hfull : m.length < 2362232233) :
    ∃ ht', rHashtable64Insert ht hash (some v) = some (ht', true) ∧ ht'.Holds ((hash, v) :: m) := by
  obtain ⟨new, hmade, hholds, hroom, hfits⟩ := makeRoom_holds h hfull
  obtain ⟨ht', hloop, hholds', -⟩ := hholds.insertLoop v hnew hroom hfits
  refine ⟨ht', ?_, hholds'⟩
  rw [rHashtable64Insert, insertDepth, hmade]
  exact hloop

end RHashTable64

/-- A call on a hash table. -/
inductive HashCall (α : Type)
  | insert (hash : Ut64) (data : α)
  | remove (hash : Ut64)
  | lookup (hash : Ut64)

/-- What a call returns. -/
inductive HashReply (α : Type)
  | inserted (ok : Bool)
  | removed
  | found (data : Option α)
deriving DecidableEq

def callHashtable (ht : RHashTable64 α) : HashCall α → Option (RHashTable64 α × HashReply α)
  | .insert hash data => do
    let (ht, ok) ← rHashtable64Insert ht hash (some data)
    return (ht, .inserted ok)
  | .remove hash => do
    let ht ← rHashtable64Remove ht hash
    return (ht, .removed)
  | .lookup hash => do
    let data ← rHashtable64Lookup ht hash
    return (ht, .found data)

/-- A sequence of calls, with what they return. -/
def callsHashtable (ht : RHashTable64 α) : List (HashCall α) → Option (RHashTable64 α × List (HashReply α))
  | [] => some (ht, [])
  | call :: calls => do
    let (ht, reply) ← callHashtable ht call
    let (ht, replies) ← callsHashtable ht calls
    return (ht, reply :: replies)

/-- What a call is to a map: the pairs after it and the reply. -/
def HashCall.onMap (m : List (Ut64 × α)) : HashCall α → List (Ut64 × α) × HashReply α
  | .insert hash data => ((hash, data) :: m, .inserted true)
  | .remove hash => (m.filter fun e => e.1 ≠ hash, .removed)
  | .lookup hash => (m, .found (m.lookup hash))

def callsMap (m : List (Ut64 × α)) : List (HashCall α) → List (Ut64 × α) × List (HashReply α)
  | [] => (m, [])
  | call :: calls =>
    let (m, reply) := call.onMap m
    let (m, replies) := callsMap m calls
    (m, reply :: replies)

/-- Keys are inserted where they are absent, and there are never more of them than the largest table has places. -/
def HashCall.Fits (m : List (Ut64 × α)) : HashCall α → Prop
  | .insert hash _ => hash ∉ m.map Prod.fst ∧ m.length < 2362232233
  | _ => True

def CallsFitMap (m : List (Ut64 × α)) : List (HashCall α) → Prop
  | [] => True
  | call :: calls => call.Fits m ∧ CallsFitMap (call.onMap m).1 calls

theorem callHashtable_map {ht : RHashTable64 α} {m : List (Ut64 × α)} (h : ht.Holds m) {call : HashCall α}
    (hfits : call.Fits m) :
    ∃ ht', callHashtable ht call = some (ht', (call.onMap m).2) ∧ ht'.Holds (call.onMap m).1 := by
  cases call with
  | insert hash data =>
    obtain ⟨ht', hinsert, hholds⟩ := RHashTable64.insert_holds h data hfits.1 hfits.2
    refine ⟨ht', ?_, hholds⟩
    rw [callHashtable, hinsert]
    rfl
  | remove hash =>
    obtain ⟨ht', hremove, hholds⟩ := h.remove hash
    refine ⟨ht', ?_, hholds⟩
    rw [callHashtable, hremove]
    rfl
  | lookup hash =>
    refine ⟨ht, ?_, h⟩
    rw [callHashtable, h.lookup hash]
    rfl

theorem callsHashtable_map {ht : RHashTable64 α} {m : List (Ut64 × α)} (h : ht.Holds m) {calls : List (HashCall α)}
    (hfits : CallsFitMap m calls) :
    ∃ ht', callsHashtable ht calls = some (ht', (callsMap m calls).2) ∧ ht'.Holds (callsMap m calls).1 := by
  induction calls generalizing ht m with
  | nil => exact ⟨ht, rfl, h⟩
  | cons call calls ih =>
    obtain ⟨next, hcall, hnext⟩ := callHashtable_map h hfits.1
    obtain ⟨ht', hcalls, hholds⟩ := ih hnext hfits.2
    refine ⟨ht', ?_, hholds⟩
    rw [callsHashtable, hcall]
    change (do
      let (ht, replies) ← callsHashtable next calls
      return (ht, _ :: replies)) = _
    rw [hcalls]
    rfl

/-- Over whole runs, a hash table that grows, rehashes and leaves deleted entries behind is an exact map. -/
theorem rHashtable64_is_map (calls : List (HashCall α)) (hfits : CallsFitMap [] calls) :
    ∃ ht, callsHashtable rHashtable64New calls = some (ht, (callsMap [] calls).2) ∧
      (∀ hash, rHashtable64Lookup ht hash = some ((callsMap [] calls).1.lookup hash)) ∧
      ht.entries = (callsMap [] calls).1.length := by
  obtain ⟨ht, hcalls, hholds⟩ := callsHashtable_map (RHashTable64.holds_empty 0) hfits
  exact ⟨ht, hcalls, hholds.lookup, hholds.entries⟩

theorem rHashtable64_is_map_grown :
    ∃ ht, callsHashtable rHashtable64New [.insert 5 'a', .insert 10 'b', .insert 0 'c', .remove 5, .lookup 0] =
        some (ht, [.inserted true, .inserted true, .inserted true, .removed, .found (some 'c')]) ∧
      (∀ hash, rHashtable64Lookup ht hash = some ([(0, 'c'), (10, 'b')].lookup hash)) ∧ ht.entries = 2 :=
  rHashtable64_is_map [.insert 5 'a', .insert 10 'b', .insert 0 'c', .remove 5, .lookup 0]
    ⟨⟨by decide, by decide⟩, ⟨by decide, by decide⟩, ⟨by decide, by decide⟩, trivial, trivial, trivial⟩

end Radare
