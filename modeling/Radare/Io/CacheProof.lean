import Radare.Framework.Memory
import Radare.Io.Map

namespace Radare

/-- The buffer after the bytes of `f` have been laid over it, its first byte lying at `addr`. -/
def overlayBuf (addr : Ut64) (f : Ut64 → Option Ut8) (buf : List Ut8) : List Ut8 :=
  buf.mapIdx (fun p b => (f (addr + BitVec.ofNat 64 p)).getD b)

theorem overlayBuf_length (addr : Ut64) (f : Ut64 → Option Ut8) (buf : List Ut8) :
    (overlayBuf addr f buf).length = buf.length := by
  simp [overlayBuf]

theorem overlayBuf_getElem? (addr : Ut64) (f : Ut64 → Option Ut8) (buf : List Ut8) (p : Nat) :
    (overlayBuf addr f buf)[p]? =
      buf[p]?.map (fun b => (f (addr + BitVec.ofNat 64 p)).getD b) := by
  simp [overlayBuf]

theorem overlayBuf_overlayBuf (addr : Ut64) (f g : Ut64 → Option Ut8) (buf : List Ut8) :
    overlayBuf addr f (overlayBuf addr g buf) = overlayBuf addr (fun x => (f x).or (g x)) buf := by
  apply List.ext_getElem?
  intro p
  rw [overlayBuf_getElem?, overlayBuf_getElem?, overlayBuf_getElem?]
  cases buf[p]? with
  | none => rfl
  | some b => cases f (addr + BitVec.ofNat 64 p) <;> simp

/-- A copy inside both buffers replaces exactly its window. -/
theorem memcpy_spec (dst src : List Ut8) (da db l : Nat) (hd : da + l ≤ dst.length)
    (hs : db + l ≤ src.length) :
    ∃ out, memcpy dst da src db l = some out ∧ ∀ p : Nat, out[p]? =
      if da ≤ p ∧ p < da + l then src[p - da + db]? else dst[p]? := by
  refine ⟨dst.take da ++ (src.drop db).take l ++ dst.drop (da + l), ?_, ?_⟩
  · rw [memcpy, if_pos (by omega)]
    simp
    omega
  · intro p
    have h1 : (dst.take da).length = da := by simp; omega
    have h2 : ((src.drop db).take l).length = l := by simp; omega
    by_cases hlo : p < da
    · rw [if_neg (by omega), List.append_assoc, List.getElem?_append_left (by omega),
        List.getElem?_take_of_lt hlo]
    · by_cases hhi : p < da + l
      · rw [if_pos (by omega), List.append_assoc, List.getElem?_append_right (by omega), h1,
          List.getElem?_append_left (by omega), List.getElem?_take_of_lt (by omega),
          List.getElem?_drop]
        congr 1
        omega
      · rw [if_neg (by omega), List.getElem?_append_right (by simp; omega), List.length_append,
          h1, h2, List.getElem?_drop]
        congr 1
        omega

/-- An item as `r_io_cache_write` makes it: small enough for an `int`, and below the top. -/
structure CacheItemOk (c : RIOCache) : Prop where
  size : c.size < 2147483648
  top : c.fromAddr.toNat + c.size < 18446744073709551616
  ends : c.toAddr = c.fromAddr + BitVec.ofNat 64 c.size

/-- The copy of an item that starts behind the start of the read overflows the `int` sum. -/
def CopyOverflows (addr : Ut64) (len : Nat) (fromAddr : Ut64) (size : Nat) : Prop :=
  addr < fromAddr ∧ fromAddr ≤ addr + BitVec.ofNat 64 len - 1 ∧
    2147483648 ≤ wrapInt (fromAddr - addr).toNat + size

instance (addr : Ut64) (len : Nat) (fromAddr : Ut64) (size : Nat) :
    Decidable (CopyOverflows addr len fromAddr size) := inferInstanceAs (Decidable (_ ∧ _ ∧ _))

theorem distance_toNat (addr start : Ut64) (p : Nat)
    (ht : addr.toNat + p < 18446744073709551616) :
    (addr + BitVec.ofNat 64 p - start).toNat =
      if start.toNat ≤ addr.toNat + p then addr.toNat + p - start.toNat
      else 18446744073709551616 + (addr.toNat + p) - start.toNat := by
  have hs := start.isLt
  rw [BitVec.toNat_sub, toNat_add_ofNat ht]
  split <;> omega

/-- A buffer whose window holds the item and whose other bytes the item does not reach is the
overlay of the item. -/
theorem eq_overlayBuf_of_window (addr start : Ut64) (data buf out : List Ut8) (da db l : Nat)
    (hsz : data.length ≤ 18446744073709551616)
    (hout : ∀ p : Nat, out[p]? = if da ≤ p ∧ p < da + l then data[p - da + db]? else buf[p]?)
    (hin : ∀ p < buf.length, da ≤ p ∧ p < da + l →
      (addr + BitVec.ofNat 64 p - start).toNat = p - da + db ∧ p - da + db < data.length)
    (hrest : ∀ p < buf.length, ¬ (da ≤ p ∧ p < da + l) →
      data.length ≤ (addr + BitVec.ofNat 64 p - start).toNat)
    (hfit : da + l ≤ buf.length) :
    out = overlayBuf addr (Overlay.patch nextAddr start data) buf := by
  apply List.ext_getElem?
  intro p
  rw [hout p, overlayBuf_getElem?]
  by_cases hp : p < buf.length
  · rw [List.getElem?_eq_getElem hp, Option.map_some, patch_nextAddr start data _ hsz]
    by_cases hw : da ≤ p ∧ p < da + l
    · obtain ⟨hidx, hlt⟩ := hin p hp hw
      rw [if_pos hw, hidx, List.getElem?_eq_getElem hlt]
      rfl
    · rw [if_neg hw, List.getElem?_eq_none (hrest p hp hw)]
      rfl
  · rw [if_neg (by omega), List.getElem?_eq_none (by omega)]
    rfl

theorem lastAddr_toNat (addr : Ut64) (len : Nat) (ht : addr.toNat + len < 18446744073709551616) :
    (addr + BitVec.ofNat 64 len - 1).toNat =
      if addr.toNat + len = 0 then 18446744073709551615 else addr.toNat + len - 1 := by
  have h := distance_toNat addr 1 len ht
  have h1 : (1 : Ut64).toNat = 1 := rfl
  rw [h1] at h
  rw [h]
  split <;> split <;> omega

/-- A window that does not overflow is copied as far as the buffer reaches. -/
theorem cacheCopy_spec (covered : Int) (buf data : List Ut8) (da db l : Nat)
    (hlen : buf.length < 2147483648) (hda : da ≤ buf.length) (hsum : l + da < 2147483648)
    (hsrc : db + l ≤ data.length) :
    ∃ covered' out, cacheCopy buf.length covered buf data da db l = some (covered', out) ∧
      ∀ p : Nat, out[p]? =
        if da ≤ p ∧ p < da + min l (buf.length - da) then data[p - da + db]? else buf[p]? := by
  have hw : wrapInt ((l : Int) + da) = (l + da : Nat) := by
    rw [wrapInt_of_range (by omega) (by omega)]
    push_cast
    rfl
  have hl : (if wrapInt ((l : Int) + da) > (buf.length : Int)
      then wrapInt ((buf.length : Int) - da) else (l : Int)) = (min l (buf.length - da) : Nat) := by
    rw [hw, wrapInt_of_range (by omega) (by omega)]
    split <;> omega
  by_cases h0 : min l (buf.length - da) < 1
  · refine ⟨wrapInt (covered + 1), buf, ?_, ?_⟩
    · simp only [cacheCopy, hl]
      rw [if_pos (by omega)]
    · intro p
      rw [if_neg (by omega)]
  · obtain ⟨out, hout, hp⟩ := memcpy_spec buf data da db (min l (buf.length - da)) (by omega)
      (by omega)
    refine ⟨wrapInt (covered + (min l (buf.length - da) : Nat)), out, ?_, hp⟩
    simp only [cacheCopy, hl]
    rw [if_neg (by omega), hout]
    rfl

/-- A sum that wraps is taken to fit, and the copy leaves the buffer. -/
theorem cacheCopy_overflow (covered : Int) (buf data : List Ut8) (da l : Nat)
    (hlen : buf.length < 2147483648) (hda : da < 2147483648) (hl : l < 2147483648)
    (hsum : 2147483648 ≤ l + da) : cacheCopy buf.length covered buf data da 0 l = none := by
  have hw : ¬ wrapInt ((l : Int) + da) > (buf.length : Int) := by
    unfold wrapInt
    omega
  simp only [cacheCopy, if_neg hw]
  rw [if_neg (by omega), memcpy, if_neg (by omega)]
  rfl

theorem cacheReadItem_apart (addr : Ut64) (covered : Int) (buf : List Ut8) (c : RIOCache)
    (h : (rRangeOverlap addr (addr + BitVec.ofNat 64 buf.length - 1) c.fromAddr c.toAddr).1 =
      false) : cacheReadItem addr buf.length covered buf c = some (covered, buf) := by
  rw [cacheReadItem, h, if_neg Bool.false_ne_true]

theorem cacheReadItem_meets (addr : Ut64) (covered : Int) (buf : List Ut8) (c : RIOCache)
    (h : (rRangeOverlap addr (addr + BitVec.ofNat 64 buf.length - 1) c.fromAddr c.toAddr).1 =
      true) {da db l : Int}
    (hwin : cacheWindow (wrapInt (c.fromAddr - addr).toNat) c.size = (da, db, l)) :
    cacheReadItem addr buf.length covered buf c =
      cacheCopy buf.length covered buf c.data da db l := by
  have hret : (rRangeOverlap addr (addr + BitVec.ofNat 64 buf.length - 1) c.fromAddr c.toAddr).2 =
      wrapInt (c.fromAddr - addr).toNat := by rw [rRangeOverlap]
  rw [cacheReadItem, h, if_pos rfl, hret, hwin]

theorem meets_iff (addr : Ut64) (len : Nat) (c : RIOCache) (hc : CacheItemOk c)
    (ht : addr.toNat + len < 18446744073709551616) :
    (rRangeOverlap addr (addr + BitVec.ofNat 64 len - 1) c.fromAddr c.toAddr).1 = true ↔
      (c.fromAddr.toNat < addr.toNat + len ∨ addr.toNat + len = 0) ∧
        addr.toNat ≤ c.fromAddr.toNat + c.size := by
  have hl := lastAddr_toNat addr len ht
  have hto : c.toAddr.toNat = c.fromAddr.toNat + c.size := by
    rw [hc.ends, toNat_add_ofNat hc.top]
  have hf := c.fromAddr.isLt
  simp only [rRangeOverlap, Bool.not_eq_true', Bool.or_eq_false_iff, decide_eq_false_iff_not,
    BitVec.lt_def, gt_iff_lt, hl, hto]
  split <;> omega

section
variable (addr : Ut64) (covered : Int) (buf : List Ut8) (c : RIOCache) (hc : CacheItemOk c)
  (hlen : buf.length < 2147483648) (ht : addr.toNat + buf.length < 18446744073709551616)

/-- The signed distance of an item's start that fits an `int` is the real distance. -/
theorem start_distance (start : Ut64) (k : Int) (hk : (start.toNat : Int) - addr.toNat = k)
    (hlo : -2147483648 ≤ k) (hhi : k < 2147483648) : wrapInt (start - addr).toNat = k := by
  have hs := start.isLt
  have ha := addr.isLt
  rw [BitVec.toNat_sub]
  unfold wrapInt
  omega

include hc hlen ht in
/-- The item starts inside the read, and its window is clamped to the end of the buffer. -/
theorem cacheReadItem_after (h1 : addr.toNat ≤ c.fromAddr.toNat)
    (h2 : c.fromAddr.toNat < addr.toNat + buf.length)
    (hsum : c.fromAddr.toNat - addr.toNat + c.size < 2147483648) :
    ∃ covered', cacheReadItem addr buf.length covered buf c =
      some (covered', overlayBuf addr (Overlay.patch nextAddr c.fromAddr c.data) buf) := by
  have hsz : c.data.length = c.size := rfl
  have htop := hc.top
  have hm := (meets_iff addr buf.length c hc ht).mpr ⟨Or.inl h2, by omega⟩
  have hd := start_distance addr c.fromAddr (c.fromAddr.toNat - addr.toNat : Nat) (by omega)
    (by omega) (by omega)
  have hwin : cacheWindow (wrapInt (c.fromAddr - addr).toNat) c.size =
      (((c.fromAddr.toNat - addr.toNat : Nat) : Int), ((0 : Nat) : Int), (c.size : Int)) := by
    rw [hd, cacheWindow, Nat.cast_zero]
    by_cases h0 : c.fromAddr.toNat - addr.toNat = 0
    · rw [h0, Nat.cast_zero, if_neg (by omega), if_neg (by omega)]
    · rw [if_pos (by omega)]
  obtain ⟨covered', out, hcopy, hp⟩ := cacheCopy_spec covered buf c.data
    (c.fromAddr.toNat - addr.toNat) 0 c.size hlen (by omega) (by omega) (by omega)
  have hout : out = overlayBuf addr (Overlay.patch nextAddr c.fromAddr c.data) buf := by
    apply eq_overlayBuf_of_window addr c.fromAddr c.data buf out _ _ _ (by omega) hp
    · intro p hpl hw
      rw [distance_toNat addr c.fromAddr p (by omega), if_pos (by omega)]
      omega
    · intro p hpl hw
      rw [distance_toNat addr c.fromAddr p (by omega)]
      split <;> omega
    · omega
  exact ⟨covered', by rw [cacheReadItem_meets addr covered buf c hm hwin, hcopy, hout]⟩

include hc hlen ht in
/-- The item starts before the read, and the part of it before the read is left out. -/
theorem cacheReadItem_before (h1 : c.fromAddr.toNat < addr.toNat)
    (h2 : addr.toNat ≤ c.fromAddr.toNat + c.size) :
    ∃ covered', cacheReadItem addr buf.length covered buf c =
      some (covered', overlayBuf addr (Overlay.patch nextAddr c.fromAddr c.data) buf) := by
  have hsz : c.data.length = c.size := rfl
  have htop := hc.top
  have hcs := hc.size
  have hm := (meets_iff addr buf.length c hc ht).mpr ⟨by omega, h2⟩
  have hd := start_distance addr c.fromAddr (-(addr.toNat - c.fromAddr.toNat : Nat) : Int)
    (by omega) (by omega) (by omega)
  have hwin : cacheWindow (wrapInt (c.fromAddr - addr).toNat) c.size =
      (((0 : Nat) : Int), ((addr.toNat - c.fromAddr.toNat : Nat) : Int),
        ((c.size - (addr.toNat - c.fromAddr.toNat) : Nat) : Int)) := by
    have hdb : wrapInt (-(-((addr.toNat - c.fromAddr.toNat : Nat) : Int))) =
        ((addr.toNat - c.fromAddr.toNat : Nat) : Int) := by
      rw [neg_neg, wrapInt_of_range (by omega) (by omega)]
    have hl : (c.size : Int) - ((addr.toNat - c.fromAddr.toNat : Nat) : Int) =
        ((c.size - (addr.toNat - c.fromAddr.toNat) : Nat) : Int) := by omega
    rw [hd, cacheWindow, if_neg (by omega), if_pos (by omega), hdb,
      wrapInt_of_range (by omega) (by omega), hl, Nat.cast_zero]
  obtain ⟨covered', out, hcopy, hp⟩ := cacheCopy_spec covered buf c.data 0
    (addr.toNat - c.fromAddr.toNat) (c.size - (addr.toNat - c.fromAddr.toNat)) hlen (by omega)
    (by omega) (by omega)
  have hout : out = overlayBuf addr (Overlay.patch nextAddr c.fromAddr c.data) buf := by
    apply eq_overlayBuf_of_window addr c.fromAddr c.data buf out _ _ _ (by omega) hp
    · intro p hpl hw
      rw [distance_toNat addr c.fromAddr p (by omega), if_pos (by omega)]
      omega
    · intro p hpl hw
      rw [distance_toNat addr c.fromAddr p (by omega)]
      split <;> omega
    · omega
  exact ⟨covered', by rw [cacheReadItem_meets addr covered buf c hm hwin, hcopy, hout]⟩

theorem cacheWindow_neg {ret : Int} (size : Int) (h : ret < 0) :
    cacheWindow ret size = (0, wrapInt (-ret), wrapInt (size - wrapInt (-ret))) := by
  rw [cacheWindow, if_neg (by omega), if_pos h]

theorem overlayBuf_of_none (f : Ut64 → Option Ut8)
    (h : ∀ p < buf.length, f (addr + BitVec.ofNat 64 p) = none) : overlayBuf addr f buf = buf := by
  apply List.ext_getElem?
  intro p
  rw [overlayBuf_getElem?]
  by_cases hp : p < buf.length
  · rw [List.getElem?_eq_getElem hp, Option.map_some, h p hp]
    rfl
  · rw [List.getElem?_eq_none (by omega)]
    rfl

include hc ht in
/-- An item that does not meet the read has no byte in it. -/
theorem cacheReadItem_elsewhere
    (hm : (rRangeOverlap addr (addr + BitVec.ofNat 64 buf.length - 1) c.fromAddr c.toAddr).1 =
      false) :
    cacheReadItem addr buf.length covered buf c =
      some (covered, overlayBuf addr (Overlay.patch nextAddr c.fromAddr c.data) buf) := by
  have hsz : c.data.length = c.size := rfl
  have htop := hc.top
  have hnot : ¬ ((c.fromAddr.toNat < addr.toNat + buf.length ∨ addr.toNat + buf.length = 0) ∧
      addr.toNat ≤ c.fromAddr.toNat + c.size) := by
    rw [← meets_iff addr buf.length c hc ht, hm]
    decide
  rw [cacheReadItem_apart addr covered buf c hm, overlayBuf_of_none]
  intro p hp
  rw [patch_nextAddr _ _ _ (by omega), List.getElem?_eq_none]
  rw [distance_toNat addr c.fromAddr p (by omega)]
  split <;> omega

include hc in
/-- Nothing is read from address zero: the end of the range wraps to the top of the address
space, so every item meets it. -/
theorem cacheReadItem_empty (hb : buf.length = 0) (ha : addr.toNat = 0) :
    (¬ CopyOverflows addr buf.length c.fromAddr c.size →
      ∃ covered', cacheReadItem addr buf.length covered buf c = some (covered', buf)) ∧
    (CopyOverflows addr buf.length c.fromAddr c.size →
      cacheReadItem addr buf.length covered buf c = none) := by
  have hcs := hc.size
  have hm := (meets_iff addr buf.length c hc (by omega)).mpr ⟨Or.inr (by omega), by omega⟩
  have hl := lastAddr_toNat addr buf.length (by omega)
  rw [if_pos (by omega)] at hl
  have hflt := c.fromAddr.isLt
  have hov : CopyOverflows addr buf.length c.fromAddr c.size ↔
      2147483648 ≤ wrapInt (c.fromAddr - addr).toNat + c.size := by
    constructor
    · exact fun h => h.2.2
    · intro h
      refine ⟨?_, ?_, h⟩
      · rw [BitVec.lt_def, ha]
        by_contra h0
        have hz : c.fromAddr - addr = 0 := by
          apply BitVec.eq_of_toNat_eq
          rw [BitVec.toNat_sub, ha]
          change _ = 0
          omega
        rw [hz] at h
        have hw : wrapInt ((0 : Ut64).toNat : Int) = 0 :=
          wrapInt_of_range (by decide) (by decide)
        omega
      · rw [BitVec.le_def, hl]
        omega
  obtain ⟨hr1, hr2⟩ := wrapInt_range (c.fromAddr - addr).toNat
  rw [hov]
  have hread {da db l : Int}
      (hwin : cacheWindow (wrapInt (c.fromAddr - addr).toNat) c.size = (da, db, l))
      (hl : (if wrapInt (l + da) > (buf.length : Int) then wrapInt ((buf.length : Int) - da) else l) <
        1) : ∃ covered', cacheReadItem addr buf.length covered buf c = some (covered', buf) := by
    refine ⟨wrapInt (covered + 1), ?_⟩
    rw [cacheReadItem_meets addr covered buf c hm hwin, cacheCopy, if_pos hl]
  have hw0 : wrapInt 0 = 0 := wrapInt_of_range (by decide) (by decide)
  rcases lt_trichotomy (wrapInt (c.fromAddr - addr).toNat) 0 with hneg | hzero | hpos
  · refine ⟨fun _ => ?_, fun h => by omega⟩
    have hwin := cacheWindow_neg c.size hneg
    apply hread hwin
    have hlr := wrapInt_range (c.size - wrapInt (-wrapInt (c.fromAddr - addr).toNat))
    rw [Int.add_zero, wrapInt_of_range hlr.1 hlr.2, hb, Nat.cast_zero, Int.sub_zero, hw0]
    split <;> omega
  · refine ⟨fun _ => ?_, fun h => by omega⟩
    have hwin : cacheWindow (wrapInt (c.fromAddr - addr).toNat) c.size = (0, 0, (c.size : Int)) := by
      rw [hzero, cacheWindow, if_neg (by omega), if_neg (by omega)]
    apply hread hwin
    rw [Int.add_zero, wrapInt_of_range (by omega) (by omega), hb, Nat.cast_zero, Int.sub_zero, hw0]
    split <;> omega
  · have hwin : cacheWindow (wrapInt (c.fromAddr - addr).toNat) c.size =
        (wrapInt (c.fromAddr - addr).toNat, 0, (c.size : Int)) := by
      rw [cacheWindow, if_pos hpos]
    refine ⟨fun h => ?_, fun h => ?_⟩
    · apply hread hwin
      rw [wrapInt_of_range (by omega) (by omega), if_pos (by omega),
        wrapInt_of_range (by omega) (by omega)]
      omega
    · rw [cacheReadItem_meets addr covered buf c hm hwin]
      obtain ⟨da, hda⟩ := Int.eq_ofNat_of_zero_le (le_of_lt hpos)
      rw [hda] at h hr2 ⊢
      exact cacheCopy_overflow covered buf c.data da c.size (by omega) (by omega) hcs (by omega)

include hc hlen ht in
/-- One item of the loop: it is laid over the buffer unless its copy overflows. -/
theorem cacheReadItem_spec :
    (¬ CopyOverflows addr buf.length c.fromAddr c.size →
      ∃ covered', cacheReadItem addr buf.length covered buf c =
        some (covered', overlayBuf addr (Overlay.patch nextAddr c.fromAddr c.data) buf)) ∧
    (CopyOverflows addr buf.length c.fromAddr c.size →
      cacheReadItem addr buf.length covered buf c = none) := by
  have hcs := hc.size
  have hl := lastAddr_toNat addr buf.length ht
  by_cases hz : addr.toNat + buf.length = 0
  · have hb : buf = [] := List.eq_nil_of_length_eq_zero (by omega)
    have h := cacheReadItem_empty addr covered buf c hc (by omega) (by omega)
    rwa [overlayBuf_of_none addr buf _ (by intro p hp; omega)]
  rw [if_neg hz] at hl
  by_cases hin : addr.toNat ≤ c.fromAddr.toNat ∧ c.fromAddr.toNat < addr.toNat + buf.length
  · have hd := start_distance addr c.fromAddr (c.fromAddr.toNat - addr.toNat : Nat) (by omega)
      (by omega) (by omega)
    have hov : CopyOverflows addr buf.length c.fromAddr c.size ↔
        2147483648 ≤ c.fromAddr.toNat - addr.toNat + c.size := by
      simp only [CopyOverflows, BitVec.lt_def, BitVec.le_def, hl, hd]
      omega
    rw [hov]
    refine ⟨fun h => cacheReadItem_after addr covered buf c hc hlen ht hin.1 hin.2 (by omega),
      fun h => ?_⟩
    have hm := (meets_iff addr buf.length c hc ht).mpr ⟨Or.inl hin.2, by omega⟩
    have hwin : cacheWindow (wrapInt (c.fromAddr - addr).toNat) c.size =
        (((c.fromAddr.toNat - addr.toNat : Nat) : Int), 0, (c.size : Int)) := by
      rw [hd, cacheWindow, if_pos (by omega)]
    rw [cacheReadItem_meets addr covered buf c hm hwin]
    exact cacheCopy_overflow covered buf c.data _ c.size hlen (by omega) hcs (by omega)
  · have hno : ¬ CopyOverflows addr buf.length c.fromAddr c.size := by
      rintro ⟨h1, h2, -⟩
      rw [BitVec.lt_def] at h1
      rw [BitVec.le_def, hl] at h2
      omega
    refine ⟨fun _ => ?_, fun h => absurd h hno⟩
    cases hm : (rRangeOverlap addr (addr + BitVec.ofNat 64 buf.length - 1) c.fromAddr
        c.toAddr).1 with
    | false => exact ⟨covered, cacheReadItem_elsewhere addr covered buf c hc ht hm⟩
    | true =>
      have hme := (meets_iff addr buf.length c hc ht).mp hm
      exact cacheReadItem_before addr covered buf c hc hlen ht (by omega) hme.2

end

/-- The items as they were written. -/
def cacheLog (cs : List RIOCache) : List (Ut64 × List Ut8) := cs.map (fun c => (c.fromAddr, c.data))

theorem cacheReadFrom_spec (addr : Ut64) (cs : List RIOCache) (covered : Int) (buf : List Ut8)
    (hcs : ∀ c ∈ cs, CacheItemOk c) (hlen : buf.length < 2147483648)
    (ht : addr.toNat + buf.length < 18446744073709551616)
    (hno : ∀ c ∈ cs, ¬ CopyOverflows addr buf.length c.fromAddr c.size) :
    ∃ covered', cacheReadFrom addr buf.length cs covered buf =
      some (covered', overlayBuf addr (Overlay.lastPatch nextAddr (cacheLog cs)) buf) := by
  induction cs generalizing covered buf with
  | nil => exact ⟨covered, by rw [overlayBuf_of_none addr buf _ (fun _ _ => rfl)]; rfl⟩
  | cons c cs ih =>
    obtain ⟨cov, hitem⟩ := (cacheReadItem_spec addr covered buf c (hcs c (by simp)) hlen ht).1
      (hno c (by simp))
    have hbl := overlayBuf_length addr (Overlay.patch nextAddr c.fromAddr c.data) buf
    obtain ⟨cov', hrest⟩ := ih cov (overlayBuf addr (Overlay.patch nextAddr c.fromAddr c.data) buf)
      (fun d hd => hcs d (by simp [hd])) (by omega) (by omega)
      (fun d hd => by rw [hbl]; exact hno d (by simp [hd]))
    refine ⟨cov', ?_⟩
    rw [hbl, overlayBuf_overlayBuf] at hrest
    have hlog : Overlay.lastPatch nextAddr (cacheLog (c :: cs)) = fun x =>
        (Overlay.lastPatch nextAddr (cacheLog cs) x).or
          (Overlay.patch nextAddr c.fromAddr c.data x) := by
      funext x
      exact Overlay.lastPatch_cons nextAddr (c.fromAddr, c.data) (cacheLog cs) x
    rw [cacheReadFrom, hitem, hlog]
    exact hrest

theorem cacheReadFrom_overflow (addr : Ut64) (cs : List RIOCache) (covered : Int) (buf : List Ut8)
    (hcs : ∀ c ∈ cs, CacheItemOk c) (hlen : buf.length < 2147483648)
    (ht : addr.toNat + buf.length < 18446744073709551616)
    (hov : ∃ c ∈ cs, CopyOverflows addr buf.length c.fromAddr c.size) :
    cacheReadFrom addr buf.length cs covered buf = none := by
  induction cs generalizing covered buf with
  | nil => simp at hov
  | cons c cs ih =>
    have hspec := cacheReadItem_spec addr covered buf c (hcs c (by simp)) hlen ht
    by_cases h : CopyOverflows addr buf.length c.fromAddr c.size
    · rw [cacheReadFrom, hspec.2 h]
    · obtain ⟨cov, hitem⟩ := hspec.1 h
      have hbl := overlayBuf_length addr (Overlay.patch nextAddr c.fromAddr c.data) buf
      have hrest := ih cov (overlayBuf addr (Overlay.patch nextAddr c.fromAddr c.data) buf)
        (fun d hd => hcs d (by simp [hd])) (by omega) (by omega) (by
          obtain ⟨d, hd, hdo⟩ := hov
          rcases List.mem_cons.mp hd with rfl | hd
          · exact absurd hdo h
          · exact ⟨d, hd, by rwa [hbl]⟩)
      rw [hbl] at hrest
      rw [cacheReadFrom, hitem]
      simp only [hrest]

/-- A run of cached writes. -/
def cacheWrites (io : RIO) (ws : List (Ut64 × List Ut8)) : RIO :=
  ws.foldl (fun io w => (rIoCacheWrite io w.1 w.2).2) io

/-- A cached write appends its item and changes nothing else of the cache. -/
theorem rIoCacheWrite_spec (io : RIO) (addr : Ut64) (buf : List Ut8) (hm : io.cached = 1) :
    ∃ c : RIOCache, (rIoCacheWrite io addr buf).2.cache = io.cache ++ [c] ∧
      (rIoCacheWrite io addr buf).2.cached = 1 ∧ c.fromAddr = addr ∧ c.data = buf ∧
      c.toAddr = addr + BitVec.ofNat 64 buf.length ∧ c.written = false := by
  have hseek := rIoSeek_moved io addr .set
  rw [rIoCacheWrite, if_neg (by omega)]
  refine ⟨_, by rw [← hseek.cache], by rw [← hm, ← hseek.cached], rfl, rfl, rfl, ?_⟩
  simp [hseek.cached, hm]

/-- What a run of cached writes leaves in the cache. -/
structure CacheRun (io : RIO) (ws : List (Ut64 × List Ut8)) : Prop where
  mode : io.cached = 1
  log : cacheLog io.cache = ws
  ends : ∀ c ∈ io.cache, c.toAddr = c.fromAddr + BitVec.ofNat 64 c.size
  uncommitted : ∀ c ∈ io.cache, c.written = false

theorem CacheRun.write {io : RIO} {ws : List (Ut64 × List Ut8)} (h : CacheRun io ws) (addr : Ut64)
    (buf : List Ut8) : CacheRun (rIoCacheWrite io addr buf).2 (ws ++ [(addr, buf)]) := by
  obtain ⟨c, hcache, hmode, hfrom, hdata, hto, hwr⟩ := rIoCacheWrite_spec io addr buf h.mode
  have hlast : ∀ d ∈ io.cache ++ [c], d ∈ io.cache ∨ d = c := by simp
  refine ⟨hmode, ?_, ?_, ?_⟩
  · rw [hcache, cacheLog, List.map_append, ← h.log, cacheLog]
    simp [hfrom, hdata]
  · intro d hd
    rw [hcache] at hd
    rcases hlast d hd with hd | rfl
    · exact h.ends d hd
    · rw [hto, hfrom, RIOCache.size, hdata]
  · intro d hd
    rw [hcache] at hd
    rcases hlast d hd with hd | rfl
    · exact h.uncommitted d hd
    · exact hwr

theorem CacheRun.writes {io : RIO} {ws : List (Ut64 × List Ut8)} (h : CacheRun io ws)
    (vs : List (Ut64 × List Ut8)) : CacheRun (cacheWrites io vs) (ws ++ vs) := by
  induction vs generalizing io ws with
  | nil => simpa [cacheWrites] using h
  | cons v vs ih =>
    have hv := ih (h.write v.1 v.2)
    rwa [List.append_assoc, List.singleton_append] at hv

theorem cacheRun_of_empty (io : RIO) (hempty : io.cache = []) (hmode : io.cached = 1)
    (ws : List (Ut64 × List Ut8)) : CacheRun (cacheWrites io ws) ws := by
  have h : CacheRun io [] :=
    ⟨hmode, by rw [hempty]; rfl, by simp [hempty], by simp [hempty]⟩
  simpa using h.writes ws

/-- Every write fits an `int` and does not wrap. -/
def WritesFit (ws : List (Ut64 × List Ut8)) : Prop :=
  ∀ w ∈ ws, w.2.length < 2147483648 ∧ w.1.toNat + w.2.length < 18446744073709551616

instance (ws : List (Ut64 × List Ut8)) : Decidable (WritesFit ws) :=
  inferInstanceAs (Decidable (∀ w ∈ ws, _ ∧ _))

theorem CacheRun.itemOk {io : RIO} {ws : List (Ut64 × List Ut8)} (h : CacheRun io ws)
    (hfit : WritesFit ws) : ∀ c ∈ io.cache, CacheItemOk c := by
  intro c hc
  have hw : (c.fromAddr, c.data) ∈ ws := by
    rw [← h.log, cacheLog]
    exact List.mem_map.mpr ⟨c, hc, rfl⟩
  obtain ⟨h1, h2⟩ := hfit _ hw
  exact ⟨h1, h2, h.ends c hc⟩

theorem CacheRun.overflows_iff {io : RIO} {ws : List (Ut64 × List Ut8)} (h : CacheRun io ws)
    (addr : Ut64) (len : Nat) :
    (∃ w ∈ ws, CopyOverflows addr len w.1 w.2.length) ↔
      ∃ c ∈ io.cache, CopyOverflows addr len c.fromAddr c.size := by
  rw [← h.log, cacheLog]
  simp [RIOCache.size]

/-- The read stays inside its buffer and the cached data, and leaves in each place the byte of
the last write that covers its address, or what was there. -/
def ReadsOverlay (io : RIO) (ws : List (Ut64 × List Ut8)) (addr : Ut64) (buf : List Ut8) : Prop :=
  ∃ covered out, rIoCacheRead io addr buf = some (covered, out) ∧ out.length = buf.length ∧
    ∀ p : Nat, p < buf.length → out[p]? =
      buf[p]?.map (fun b => (Overlay.lastPatch nextAddr ws (addr + BitVec.ofNat 64 p)).getD b)

/-- A cached read shows the cached writes exactly when the copy of no item that starts inside it
overflows an `int`. -/
theorem cache_read_overlay_iff (io : RIO) (hempty : io.cache = []) (hmode : io.cached = 1)
    (ws : List (Ut64 × List Ut8)) (hws : WritesFit ws) (addr : Ut64) (buf : List Ut8)
    (hlen : buf.length < 2147483648) (ht : addr.toNat + buf.length < 18446744073709551616) :
    ReadsOverlay (cacheWrites io ws) ws addr buf ↔
      ∀ w ∈ ws, ¬ CopyOverflows addr buf.length w.1 w.2.length := by
  have hrun := cacheRun_of_empty io hempty hmode ws
  have hok := hrun.itemOk hws
  constructor
  · rintro ⟨covered, out, hread, -⟩ w hw hov
    have hex := (hrun.overflows_iff addr buf.length).mp ⟨w, hw, hov⟩
    rw [rIoCacheRead, cacheReadFrom_overflow addr _ 0 buf hok hlen ht hex] at hread
    exact nomatch hread
  · intro hno
    have hnone : ∀ c ∈ (cacheWrites io ws).cache,
        ¬ CopyOverflows addr buf.length c.fromAddr c.size := by
      intro c hc hov
      obtain ⟨w, hw, hwo⟩ := (hrun.overflows_iff addr buf.length).mpr ⟨c, hc, hov⟩
      exact hno w hw hwo
    obtain ⟨covered, hread⟩ := cacheReadFrom_spec addr _ 0 buf hok hlen ht hnone
    rw [hrun.log] at hread
    exact ⟨covered, _, hread, overlayBuf_length _ _ _, fun p _ => overlayBuf_getElem? _ _ _ p⟩

/-- An I/O with an empty write cache that is switched on, over one file. -/
def cachedFile (file : RIOMalloc) : RIO :=
  { off := 0, va := true, raw := false, vio := false, sectonly := false, bufferEnabled := false,
    debug := false, cached := 1, oxff := 0xff, raised := -1, enforceRwx := 0, writeMask := none,
    files := [⟨3, file⟩], desc := some 0, maps := [], sections := [], cache := [] }

def smallFile : RIOMalloc := ⟨[1, 2, 3, 4, 5, 6, 7, 8], 0, by decide⟩

theorem cache_read_overlay_two_writes :
    WritesFit [(2, [10, 11, 12]), (3, [20])] ∧
    ReadsOverlay (cacheWrites (cachedFile smallFile) [(2, [10, 11, 12]), (3, [20])])
      [(2, [10, 11, 12]), (3, [20])] 1 [0, 0, 0, 0] := by
  have hfit : WritesFit [(2, [10, 11, 12]), (3, [20])] := by decide
  refine ⟨hfit, (cache_read_overlay_iff (cachedFile smallFile) rfl rfl _ hfit 1 [0, 0, 0, 0]
    (by decide) (by decide)).mpr ?_⟩
  decide

/-- One cached write of `2^31 - 1` bytes at address 1 makes a two-byte read at address 0 copy past
its buffer. -/
theorem cache_read_leaves_buffer :
    WritesFit [(1, List.replicate 2147483647 0)] ∧
    ¬ ReadsOverlay (cacheWrites (cachedFile smallFile) [(1, List.replicate 2147483647 0)])
      [(1, List.replicate 2147483647 0)] 0 [0, 0] := by
  have hlength : (List.replicate 2147483647 (0 : Ut8)).length = 2147483647 :=
    List.length_replicate
  have hfit : WritesFit [(1, List.replicate 2147483647 0)] := by
    intro w hw
    obtain rfl := List.mem_singleton.mp hw
    rw [hlength]
    decide
  refine ⟨hfit, ?_⟩
  rintro ⟨covered, out, hread, -⟩
  have hrun := cacheRun_of_empty (cachedFile smallFile) rfl rfl [(1, List.replicate 2147483647 0)]
  have hov : CopyOverflows 0 ([0, 0] : List Ut8).length 1
      (List.replicate 2147483647 (0 : Ut8)).length := by
    rw [hlength]
    decide
  have hex := (hrun.overflows_iff 0 ([0, 0] : List Ut8).length).mp
    ⟨_, List.mem_singleton_self _, hov⟩
  rw [rIoCacheRead, cacheReadFrom_overflow 0 _ 0 [0, 0] (hrun.itemOk hfit) (by decide) (by decide)
    hex] at hread
  exact nomatch hread

end Radare
