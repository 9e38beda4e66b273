import Radare.Framework.Memory
import Radare.Framework.Windows

namespace Radare

open Framework (overwrite getElem?_overwrite length_overwrite)

structure RCache where
  base : Ut64
  buf : Option (List Ut8)
  len : Ut64
  deriving DecidableEq

def rCacheNew : RCache := ⟨0, none, 0⟩

/-- The place in the block, and what is stored in the length, if anything is. -/
def rCacheGet (c : RCache) (addr : Ut64) : Option Nat × Option Int :=
  if c.buf.isNone then (none, none)
  else if addr < c.base then (none, some (wrapInt (c.base - addr).toNat))
  else if addr > c.base + c.len then (none, some (wrapInt (c.base - addr).toNat))
  else (some (addr - c.base).toNat, some (wrapInt (c.len - (addr - c.base)).toNat))

/-- A copy into a block; `none` where it leaves the block. -/
def copyInto (block : List Ut8) (p : Int) (bs : List Ut8) : Option (List Ut8) :=
  if 0 ≤ p ∧ p + bs.length ≤ block.length then some (overwrite block p.toNat bs) else none

/-- The bytes a copy takes from the start of a block; `none` where it reads behind the block. -/
def copyFrom (block : List Ut8) (n : Ut64) : Option (List Ut8) :=
  if n.toNat ≤ block.length then some (block.take n.toNat) else none

/-- `realloc`; what comes new holds `junk`. -/
def reallocBlock (junk : Nat → Ut8) (block : List Ut8) (n : Nat) : List Ut8 :=
  block.take n ++ (List.range (n - block.length)).map junk

/-- `r_cache_set`: the result and the cache, `none` where an access leaves a block. A negative size is
refused by `malloc` and `realloc`. -/
def rCacheSet (junk : Nat → Ut8) (c : RCache) (addr : Ut64) (bs : List Ut8) : Option (Int × RCache) :=
  let len : Int := bs.length
  match c.buf with
  | none => some (len, ⟨addr, some bs, BitVec.ofInt 64 len⟩)
  | some block =>
    if addr < c.base then
      let baselen := wrapInt (c.base - addr).toNat
      let newlen := wrapInt (BitVec.ofInt 64 baselen +
        (if BitVec.ofInt 64 len > c.len then BitVec.ofInt 64 len else c.base)).toNat
      if newlen < 0 then some (0, c)
      else do
        let old ← copyFrom block c.len
        let b ← copyInto (List.replicate newlen.toNat 0xff) baselen old
        let b ← copyInto b 0 bs
        some (newlen, ⟨addr, some b, BitVec.ofInt 64 newlen⟩)
    else if addr + BitVec.ofInt 64 len > c.base + c.len then
      let baselen := wrapInt (addr - c.base).toNat
      let newlen := wrapInt (baselen + len)
      if newlen < 0 then some (0, c)
      else do
        let b ← copyInto (reallocBlock junk block newlen.toNat) baselen bs
        some (newlen, ⟨c.base, some b, BitVec.ofInt 64 newlen⟩)
    else do
      let b ← copyInto block 0 bs
      some (wrapInt c.len.toNat, ⟨c.base, some b, c.len⟩)

/-- A run of writes; what fresh memory holds may depend on all that came before. -/
def rCacheSets (junk : RCache → Nat → Ut8) (c : RCache) (ws : List (Ut64 × List Ut8)) : Option RCache :=
  ws.foldlM (fun c w => (rCacheSet (junk c) c w.1 w.2).map (·.2)) c

/-- The bytes to come behind the new front of a block. -/
def frontRoom (c : RCache) (n : Nat) : Nat := if c.len.toNat < n then n else c.base.toNat

/-- In front of the block there is room for the block behind the new front, and a write inside the
block goes to its start. -/
def CacheStepOk (c : RCache) (w : Ut64 × List Ut8) : Prop :=
  c.buf.isSome = true →
    if w.1 < c.base then
      c.len.toNat ≤ frontRoom c w.2.length ∧
        c.base.toNat - w.1.toNat + frontRoom c w.2.length < 2147483648 ∧
        c.base.toNat + frontRoom c w.2.length < 18446744073709551616
    else c.base.toNat + c.len.toNat < w.1.toNat + w.2.length ∨ w.1 = c.base

def CacheStepsOk (junk : RCache → Nat → Ut8) : RCache → List (Ut64 × List Ut8) → Prop
  | _, [] => True
  | c, w :: ws => CacheStepOk c w ∧
    ∀ r, rCacheSet (junk c) c w.1 w.2 = some r → CacheStepsOk junk r.2 ws

/-- All writes lie in less than `2^31` bytes. -/
structure Spanned (ws : List (Ut64 × List Ut8)) (lo hi : Nat) : Prop where
  span : hi - lo < 2147483648
  top : hi < 18446744073709551616
  write : ∀ w ∈ ws, 0 < w.2.length ∧ lo ≤ w.1.toNat ∧ w.1.toNat + w.2.length ≤ hi

/-- Every byte that was written is found, with the length of the block from there on. -/
def CacheRight (c : RCache) (ws : List (Ut64 × List Ut8)) : Prop :=
  ∀ a b, Overlay.lastPatch nextAddr ws a = some b → ∃ block i, c.buf = some block ∧
    rCacheGet c a = (some i, some ((block.length - i : Nat) : Int)) ∧ block[i]? = some b

/-- The block of a cache after the writes `ws`. -/
structure RCache.Holds (c : RCache) (block : List Ut8) (ws : List (Ut64 × List Ut8)) (lo : Nat) : Prop where
  buf : c.buf = some block
  len : c.len.toNat = block.length
  size : block.length < 2147483648
  room : c.base.toNat + block.length < 18446744073709551616
  start : lo ≤ c.base.toNat
  bytes : ∀ a b, Overlay.lastPatch nextAddr ws a = some b →
    c.base.toNat ≤ a.toNat ∧ block[a.toNat - c.base.toNat]? = some b

section Blocks

theorem copyInto_spec (block bs : List Ut8) {p : Int} {q : Nat} (hp : p = q)
    (h : q + bs.length ≤ block.length) : copyInto block p bs = some (overwrite block q bs) := by
  rw [copyInto, hp, if_pos (by omega), Int.toNat_natCast]

theorem copyFrom_all {block : List Ut8} {n : Ut64} (h : n.toNat = block.length) :
    copyFrom block n = some block := by
  rw [copyFrom, if_pos (by omega), List.take_of_length_le (by omega)]

theorem reallocBlock_length (junk : Nat → Ut8) (block : List Ut8) {n : Nat} (h : block.length ≤ n) :
    (reallocBlock junk block n).length = n := by
  simp [reallocBlock]
  omega

theorem reallocBlock_kept (junk : Nat → Ut8) (block : List Ut8) {n i : Nat} (h : block.length ≤ n)
    (hi : i < block.length) : (reallocBlock junk block n)[i]? = block[i]? := by
  rw [reallocBlock, List.getElem?_append_left (by simp; omega), List.getElem?_take_of_lt (by omega)]

/-- A write without a wrap is met at the distance from its start. -/
theorem patch_spanned {addr a : Ut64} {bs : List Ut8} {b : Ut8}
    (htop : addr.toNat + bs.length < 18446744073709551616)
    (h : Overlay.patch nextAddr addr bs a = some b) :
    addr.toNat ≤ a.toNat ∧ a.toNat < addr.toNat + bs.length ∧ bs[a.toNat - addr.toNat]? = some b := by
  have haddr := addr.isLt
  have ha := a.isLt
  rw [patch_nextAddr addr bs a (by omega)] at h
  have hlt := List.getElem?_eq_some_iff.mp h
  obtain ⟨hlt, -⟩ := hlt
  rw [BitVec.toNat_sub] at hlt
  have hle : addr.toNat ≤ a.toNat := by omega
  have hsub : (a - addr).toNat = a.toNat - addr.toNat := by
    rw [BitVec.toNat_sub]
    omega
  rw [hsub] at h
  exact ⟨hle, by omega, h⟩

theorem patch_none_spanned {addr a : Ut64} {bs : List Ut8}
    (htop : addr.toNat + bs.length < 18446744073709551616)
    (h : Overlay.patch nextAddr addr bs a = none) :
    a.toNat < addr.toNat ∨ addr.toNat + bs.length ≤ a.toNat := by
  have haddr := addr.isLt
  have ha := a.isLt
  rw [patch_nextAddr addr bs a (by omega)] at h
  have hge := List.getElem?_eq_none_iff.mp h
  rw [BitVec.toNat_sub] at hge
  omega

end Blocks

section Steps

variable {c : RCache} {block bs : List Ut8} {ws : List (Ut64 × List Ut8)} {lo hi : Nat} {addr : Ut64}

/-- A new block with the new bytes, and with the old ones where the write does not reach. -/
theorem RCache.Holds.bytes_append (h : c.Holds block ws lo) (base : Ut64) {new : List Ut8}
    (htop : addr.toNat + bs.length < 18446744073709551616)
    (hnew : ∀ i < bs.length, base.toNat ≤ addr.toNat + i ∧ new[addr.toNat + i - base.toNat]? = bs[i]?)
    (hold : ∀ i < block.length, c.base.toNat + i < addr.toNat ∨ addr.toNat + bs.length ≤ c.base.toNat + i →
      base.toNat ≤ c.base.toNat + i ∧ new[c.base.toNat + i - base.toNat]? = block[i]?) :
    ∀ a b, Overlay.lastPatch nextAddr (ws ++ [(addr, bs)]) a = some b →
      base.toNat ≤ a.toNat ∧ new[a.toNat - base.toNat]? = some b := by
  intro a b hab
  rw [Overlay.lastPatch_append] at hab
  cases hp : Overlay.patch nextAddr addr bs a with
  | some x =>
    rw [hp, Option.some_or] at hab
    obtain ⟨hlo, hhi, hx⟩ := patch_spanned htop hp
    obtain ⟨hle, hi⟩ := hnew (a.toNat - addr.toNat) (by omega)
    rw [Nat.add_sub_cancel' hlo] at hle hi
    exact ⟨hle, by rw [hi, hx, hab]⟩
  | none =>
    rw [hp, Option.none_or] at hab
    obtain ⟨hlo, hx⟩ := h.bytes a b hab
    obtain ⟨hlt, -⟩ := List.getElem?_eq_some_iff.mp hx
    have hapart := patch_none_spanned htop hp
    obtain ⟨hle, hi⟩ := hold (a.toNat - c.base.toNat) hlt (by omega)
    rw [Nat.add_sub_cancel' hlo] at hle hi
    exact ⟨hle, by rw [hi, hx]⟩

/-- The new size of a block that grows at its front. -/
theorem front_size (c : RCache) {addr : Ut64} {n : Nat} (hint : n < 2147483648)
    (hsize : c.base.toNat - addr.toNat + frontRoom c n < 2147483648) :
    wrapInt (BitVec.ofInt 64 ((c.base.toNat - addr.toNat : Nat) : Int) +
      (if BitVec.ofInt 64 (n : Int) > c.len then BitVec.ofInt 64 (n : Int) else c.base)).toNat =
      ((c.base.toNat - addr.toNat + frontRoom c n : Nat) : Int) := by
  have hof : (BitVec.ofInt 64 (n : Int)).toNat = n := by
    rw [BitVec.ofInt_natCast, BitVec.toNat_ofNat]
    omega
  have hpick : (if BitVec.ofInt 64 (n : Int) > c.len then BitVec.ofInt 64 (n : Int) else c.base).toNat =
      frontRoom c n := by
    by_cases hlong : c.len.toNat < n
    · rw [frontRoom, if_pos hlong, if_pos (by rw [gt_iff_lt, BitVec.lt_def, hof]; exact hlong), hof]
    · rw [frontRoom, if_neg hlong, if_neg (by rw [gt_iff_lt, BitVec.lt_def, hof]; exact hlong)]
  rw [BitVec.toNat_add, hpick, BitVec.ofInt_natCast, BitVec.toNat_ofNat,
    Nat.mod_eq_of_lt (a := c.base.toNat - addr.toNat) (by omega), Nat.mod_eq_of_lt (by omega),
    wrapInt_of_range (by omega) (by omega)]

/-- A write in front of the block. -/
theorem RCache.Holds.front (junk : Nat → Ut8) (h : c.Holds block ws lo) (hlo : lo ≤ addr.toNat)
    (htop : addr.toNat + bs.length < 18446744073709551616) (hint : bs.length < 2147483648)
    (hfront : addr < c.base) (hroom : c.len.toNat ≤ frontRoom c bs.length)
    (hsize : c.base.toNat - addr.toNat + frontRoom c bs.length < 2147483648)
    (hend : c.base.toNat + frontRoom c bs.length < 18446744073709551616) :
    ∃ r new, rCacheSet junk c addr bs = some r ∧ r.2.Holds new (ws ++ [(addr, bs)]) lo := by
  have hlt : addr.toNat < c.base.toNat := hfront
  have hlen := h.len
  have hbs : bs.length ≤ c.base.toNat - addr.toNat + frontRoom c bs.length := by
    by_cases hlong : c.len.toNat < bs.length
    · rw [frontRoom, if_pos hlong]
      omega
    · omega
  have hbase : wrapInt (c.base - addr).toNat = ((c.base.toNat - addr.toNat : Nat) : Int) :=
    wrapInt_sub (by omega) rfl (by omega)
  obtain ⟨n, hn⟩ : ∃ n, c.base.toNat - addr.toNat + frontRoom c bs.length = n := ⟨_, rfl⟩
  have hfits : c.base.toNat - addr.toNat + block.length ≤ (List.replicate n (0xff : Ut8)).length := by
    rw [List.length_replicate, ← hn, ← hlen]
    exact Nat.add_le_add_left hroom _
  obtain ⟨old, hold⟩ : ∃ old, overwrite (List.replicate n (0xff : Ut8)) (c.base.toNat - addr.toNat) block = old :=
    ⟨_, rfl⟩
  have hmoved : old.length = n := by rw [← hold, length_overwrite hfits, List.length_replicate]
  have hin : 0 + bs.length ≤ old.length := by omega
  have hlength : (overwrite old 0 bs).length = n := by rw [length_overwrite hin, hmoved]
  have hfront0 : copyInto old 0 bs = some (overwrite old 0 bs) := copyInto_spec old bs rfl hin
  have hset : rCacheSet junk c addr bs =
      some ((n : Int), ⟨addr, some (overwrite old 0 bs), BitVec.ofInt 64 n⟩) := by
    have hnew := front_size c hint hsize
    rw [hn] at hnew
    rw [rCacheSet, h.buf]
    dsimp only
    rw [if_pos hfront, hbase, hnew, if_neg (Int.not_lt.mpr (Int.natCast_nonneg n)), copyFrom_all hlen]
    simp only [Option.bind_eq_bind, Option.bind_some, Int.toNat_natCast]
    rw [copyInto_spec _ _ rfl hfits, Option.bind_some, hold, hfront0, Option.bind_some]
  refine ⟨_, overwrite old 0 bs, hset, rfl, ?_, ?_, ?_, hlo, ?_⟩
  · rw [hlength, BitVec.ofInt_natCast, BitVec.toNat_ofNat]
    omega
  · rw [hlength, ← hn]
    exact hsize
  · rw [hlength]
    dsimp only
    omega
  · apply h.bytes_append addr htop
    · intro i hi
      refine ⟨by omega, ?_⟩
      rw [Nat.add_sub_cancel_left, getElem?_overwrite hin, if_pos (by omega), Nat.sub_zero]
    · intro i hi happart
      refine ⟨by omega, ?_⟩
      have hplace : c.base.toNat + i - addr.toNat = c.base.toNat - addr.toNat + i := by omega
      rw [hplace, getElem?_overwrite hin, if_neg (by omega), ← hold, getElem?_overwrite hfits,
        if_pos (by omega), Nat.add_sub_cancel_left]

theorem toNat_add_len {a : Ut64} {n : Nat} (h : a.toNat + n < 18446744073709551616) :
    (a + BitVec.ofInt 64 (n : Int)).toNat = a.toNat + n := by
  rw [BitVec.ofInt_natCast, toNat_add_ofNat h]

theorem RCache.Holds.toNat_end (h : c.Holds block ws lo) :
    (c.base + c.len).toNat = c.base.toNat + block.length := by
  have hroom := h.room
  rw [BitVec.toNat_add, h.len, Nat.mod_eq_of_lt (by omega)]

/-- A write that reaches behind the end of the block. -/
theorem RCache.Holds.back (junk : Nat → Ut8) (h : c.Holds block ws lo)
    (htop : addr.toNat + bs.length < 18446744073709551616) (hbase : ¬addr < c.base)
    (hspan : addr.toNat + bs.length - lo < 2147483648)
    (hend : c.base.toNat + block.length < addr.toNat + bs.length) :
    ∃ r new, rCacheSet junk c addr bs = some r ∧ r.2.Holds new (ws ++ [(addr, bs)]) lo := by
  have hle : c.base.toNat ≤ addr.toNat := BitVec.not_lt.mp hbase
  have hstart := h.start
  obtain ⟨n, hn⟩ : ∃ n, addr.toNat - c.base.toNat + bs.length = n := ⟨_, rfl⟩
  have hgrown := reallocBlock_length junk block (n := n) (by omega)
  have hfits : addr.toNat - c.base.toNat + bs.length ≤ (reallocBlock junk block n).length := by omega
  have hlength : (overwrite (reallocBlock junk block n) (addr.toNat - c.base.toNat) bs).length = n := by
    rw [length_overwrite hfits, hgrown]
  have hset : rCacheSet junk c addr bs = some ((n : Int), ⟨c.base,
      some (overwrite (reallocBlock junk block n) (addr.toNat - c.base.toNat) bs), BitVec.ofInt 64 n⟩) := by
    have hdistance : addr.toNat - c.base.toNat < 2147483648 := by omega
    have hsum : wrapInt (((addr.toNat - c.base.toNat : Nat) : Int) + (bs.length : Int)) = n := by
      rw [wrapInt_of_range (by omega) (by omega)]
      omega
    have hdist : wrapInt (addr - c.base).toNat = ((addr.toNat - c.base.toNat : Nat) : Int) :=
      wrapInt_sub hle rfl hdistance
    have hmore : addr + BitVec.ofInt 64 (bs.length : Int) > c.base + c.len := by
      rw [gt_iff_lt, BitVec.lt_def, h.toNat_end, toNat_add_len htop]
      exact hend
    rw [rCacheSet, h.buf]
    dsimp only
    rw [if_neg hbase, if_pos hmore, hdist, hsum, if_neg (Int.not_lt.mpr (Int.natCast_nonneg n))]
    simp only [Option.bind_eq_bind, Int.toNat_natCast]
    rw [copyInto_spec _ _ rfl hfits, Option.bind_some]
  refine ⟨_, _, hset, rfl, ?_, ?_, ?_, hstart, ?_⟩
  · rw [hlength, BitVec.ofInt_natCast, BitVec.toNat_ofNat]
    omega
  · rw [hlength]
    omega
  · rw [hlength]
    dsimp only
    omega
  · apply h.bytes_append c.base htop
    · intro i hi
      refine ⟨by omega, ?_⟩
      have hplace : addr.toNat + i - c.base.toNat = addr.toNat - c.base.toNat + i := by omega
      rw [hplace, getElem?_overwrite hfits, if_pos (by omega), Nat.add_sub_cancel_left]
    · intro i hi happart
      refine ⟨by omega, ?_⟩
      rw [Nat.add_sub_cancel_left, getElem?_overwrite hfits, if_neg (by omega),
        reallocBlock_kept junk block (by omega) hi]

/-- A write to the start of the block that ends in it. -/
theorem RCache.Holds.inside (junk : Nat → Ut8) (h : c.Holds block ws lo)
    (htop : addr.toNat + bs.length < 18446744073709551616) (hbase : addr = c.base)
    (hend : addr.toNat + bs.length ≤ c.base.toNat + block.length) :
    ∃ r new, rCacheSet junk c addr bs = some r ∧ r.2.Holds new (ws ++ [(addr, bs)]) lo := by
  have hin : 0 + bs.length ≤ block.length := by
    rw [hbase] at hend
    omega
  have hlength : (overwrite block 0 bs).length = block.length := length_overwrite hin
  have hstore : copyInto block 0 bs = some (overwrite block 0 bs) := copyInto_spec block bs rfl hin
  have hset : rCacheSet junk c addr bs =
      some (wrapInt c.len.toNat, ⟨c.base, some (overwrite block 0 bs), c.len⟩) := by
    have hmore : ¬addr + BitVec.ofInt 64 (bs.length : Int) > c.base + c.len := by
      rw [gt_iff_lt, BitVec.lt_def, h.toNat_end, toNat_add_len htop, not_lt]
      exact hend
    rw [rCacheSet, h.buf]
    dsimp only
    rw [if_neg (by rw [hbase]; exact BitVec.lt_irrefl _), if_neg hmore, hstore]
    rfl
  refine ⟨_, _, hset, rfl, ?_, ?_, ?_, h.start, ?_⟩
  · rw [hlength]
    exact h.len
  · rw [hlength]
    exact h.size
  · rw [hlength]
    exact h.room
  · apply h.bytes_append c.base htop
    · intro i hi
      rw [hbase]
      refine ⟨by omega, ?_⟩
      rw [Nat.add_sub_cancel_left, getElem?_overwrite hin, if_pos (by omega), Nat.sub_zero]
    · intro i hi happart
      rw [hbase] at happart
      refine ⟨by omega, ?_⟩
      rw [Nat.add_sub_cancel_left, getElem?_overwrite hin, if_neg (by omega)]

/-- The first write makes the block. -/
theorem rCacheSet_first (junk : Nat → Ut8) (hlo : lo ≤ addr.toNat)
    (htop : addr.toNat + bs.length < 18446744073709551616) (hint : bs.length < 2147483648) :
    ∃ r new, rCacheSet junk rCacheNew addr bs = some r ∧ r.2.Holds new [(addr, bs)] lo := by
  refine ⟨_, bs, rfl, rfl, ?_, hint, htop, hlo, ?_⟩
  · rw [BitVec.ofInt_natCast, BitVec.toNat_ofNat]
    omega
  · intro a b hab
    rw [Overlay.lastPatch_cons] at hab
    obtain ⟨hle, -, hb⟩ := patch_spanned htop hab
    exact ⟨hle, hb⟩

/-- One write that meets the condition. -/
theorem RCache.Holds.step (junk : Nat → Ut8) (h : c.Holds block ws lo) (hlo : lo ≤ addr.toNat)
    (htop : addr.toNat + bs.length < 18446744073709551616)
    (hspan : addr.toNat + bs.length - lo < 2147483648) (hok : CacheStepOk c (addr, bs)) :
    ∃ r new, rCacheSet junk c addr bs = some r ∧ r.2.Holds new (ws ++ [(addr, bs)]) lo := by
  have hcond := hok (by rw [h.buf]; rfl)
  by_cases hfront : addr < c.base
  · rw [if_pos hfront] at hcond
    obtain ⟨hroom, hsize, hend⟩ := hcond
    exact h.front junk hlo htop (by omega) hfront hroom hsize hend
  · rw [if_neg hfront, h.len] at hcond
    by_cases hmore : c.base.toNat + block.length < addr.toNat + bs.length
    · exact h.back junk htop hfront hspan hmore
    · rcases hcond with hc | hc
      · exact absurd hc hmore
      · exact h.inside junk htop hc (not_lt.mp hmore)

/-- What is found in a block. -/
theorem RCache.Holds.right (h : c.Holds block ws lo) : CacheRight c ws := by
  intro a b hab
  obtain ⟨hle, hb⟩ := h.bytes a b hab
  obtain ⟨hlt, -⟩ := List.getElem?_eq_some_iff.mp hb
  have hlen := h.len
  have hsize := h.size
  have hsub : (a - c.base).toNat = a.toNat - c.base.toNat := BitVec.toNat_sub_of_le hle
  have hleft : block.length - (a.toNat - c.base.toNat) < 2147483648 := by omega
  refine ⟨block, a.toNat - c.base.toNat, h.buf, ?_, hb⟩
  rw [rCacheGet, h.buf, Option.isNone_some, if_neg Bool.false_ne_true,
    if_neg (by rw [BitVec.lt_def]; omega), if_neg (by rw [gt_iff_lt, BitVec.lt_def, h.toNat_end]; omega), hsub,
    wrapInt_sub (by omega) (by rw [hsub, hlen]) hleft]

end Steps

/-- An empty cache before the first write, a block behind it. -/
def CacheAt (c : RCache) (done : List (Ut64 × List Ut8)) (lo : Nat) : Prop :=
  done = [] ∧ c = rCacheNew ∨ ∃ block, c.Holds block done lo

theorem rCacheSets_at (junk : RCache → Nat → Ut8) (ws done : List (Ut64 × List Ut8)) {c : RCache} {lo hi : Nat}
    (hat : CacheAt c done lo) (hspan : Spanned ws lo hi) (hok : CacheStepsOk junk c ws) :
    ∃ c', rCacheSets junk c ws = some c' ∧ CacheAt c' (done ++ ws) lo := by
  induction ws generalizing c done with
  | nil => exact ⟨c, rfl, by rw [List.append_nil]; exact hat⟩
  | cons w ws ih =>
    obtain ⟨hstep, hrest⟩ := hok
    obtain ⟨-, hlo, hhi⟩ := hspan.write w List.mem_cons_self
    have hlast := hspan.span
    have htop := hspan.top
    obtain ⟨r, new, hset, hholds⟩ : ∃ r new, rCacheSet (junk c) c w.1 w.2 = some r ∧
        r.2.Holds new (done ++ [w]) lo := by
      rcases hat with ⟨hnil, hnew⟩ | ⟨block, h⟩
      · rw [hnil, hnew]
        exact rCacheSet_first _ hlo (by omega) (by omega)
      · exact h.step (junk c) hlo (by omega) (by omega) hstep
    obtain ⟨c', hrun, hat'⟩ := ih (done ++ [w]) (Or.inr ⟨new, hholds⟩)
      ⟨hlast, htop, fun v hv => hspan.write v (List.mem_cons_of_mem w hv)⟩ (hrest r hset)
    refine ⟨c', ?_, ?_⟩
    · rw [rCacheSets, List.foldlM_cons, hset]
      exact hrun
    · rw [List.append_assoc] at hat'
      exact hat'

/-- After a run of writes that meet the condition every byte is the one that was written last, and no
access has left its block. -/
theorem cache_run_right (junk : RCache → Nat → Ut8) (ws : List (Ut64 × List Ut8)) (lo hi : Nat)
    (hspan : Spanned ws lo hi) (hok : CacheStepsOk junk rCacheNew ws) :
    ∃ c, rCacheSets junk rCacheNew ws = some c ∧ CacheRight c ws := by
  obtain ⟨c, hrun, hat⟩ := rCacheSets_at junk ws [] (Or.inl ⟨rfl, rfl⟩) hspan hok
  refine ⟨c, hrun, ?_⟩
  rcases hat with ⟨hnil, -⟩ | ⟨block, h⟩
  · intro a b hab
    rw [show ws = [] from hnil] at hab
    cases hab
  · exact h.right

/-- Two bytes, three more over the first of them, and two more behind a gap. -/
theorem cache_run_front_back :
    ∃ c, rCacheSets (fun _ _ => 0) rCacheNew [(16, [1, 2]), (14, [3, 4, 5]), (20, [6, 7])] = some c ∧
      CacheRight c [(16, [1, 2]), (14, [3, 4, 5]), (20, [6, 7])] := by
  apply cache_run_right (fun _ _ => 0) _ 14 22
  · exact ⟨by decide, by decide, by decide⟩
  · have hfirst : rCacheSet (fun _ => 0) rCacheNew 16 [1, 2] = some (2, ⟨16, some [1, 2], 2⟩) := by
      decide
    have hfront : rCacheSet (fun _ => 0) ⟨16, some [1, 2], 2⟩ 14 [3, 4, 5] =
        some (5, ⟨14, some [3, 4, 5, 2, 0xff], 5⟩) := by decide +kernel
    refine ⟨nofun, ?_⟩
    intro r hr
    rw [hfirst, Option.some.injEq] at hr
    rw [← hr]
    refine ⟨fun _ => by decide, ?_⟩
    intro r hr
    rw [hfront, Option.some.injEq] at hr
    rw [← hr]
    exact ⟨fun _ => by decide, fun r _ => trivial⟩

/-- A write inside the block goes to its start, and in front of a block at a low address there is too
little room for it. -/
theorem cache_run_wrong :
    (∃ c, rCacheSets (fun _ _ => 0) rCacheNew [(16, [1, 2, 3, 4]), (18, [9])] = some c ∧
      ¬CacheRight c [(16, [1, 2, 3, 4]), (18, [9])]) ∧
      rCacheSets (fun _ _ => 0) rCacheNew [(2, [1, 2, 3, 4]), (1, [9])] = none := by
  have hinside : rCacheSets (fun _ _ => 0) rCacheNew [(16, [1, 2, 3, 4]), (18, [9])] =
      some ⟨16, some [9, 2, 3, 4], 4⟩ := by decide
  refine ⟨⟨_, hinside, ?_⟩, by decide⟩
  intro h
  obtain ⟨block, i, hbuf, hget, hbyte⟩ := h 18 9 (by decide)
  have hplace : rCacheGet ⟨16, some [9, 2, 3, 4], 4⟩ 18 = (some 2, some 2) := by decide
  rw [hplace, Prod.mk.injEq, Option.some.injEq] at hget
  rw [← Option.some.inj hbuf, ← hget.1] at hbyte
  exact absurd hbyte (by decide)

end Radare
