import Radare.Util.Base64

namespace Radare

/-- What `b64_decode` makes of a character. -/
inductive B64Class where
  | outside
  | unassigned
  | assigned
  deriving DecidableEq

def b64Class (c : Char) : B64Class :=
  if c.toNat < 43 ∨ c.toNat > 122 then .outside
  else if cd64At c = 36 then .unassigned
  else .assigned

/-- A group of four characters, by the first of them that is unassigned. -/
inductive GroupKind where
  | headless
  | cut
  | one
  | two
  | three
  deriving DecidableEq

/-- The kind of a group, or none where a character outside of the table comes first. -/
def groupKindFrom (g : Nat → Char) : List (Nat × GroupKind) → Option GroupKind
  | [] => some .three
  | (i, k) :: rest =>
    match b64Class (g i) with
    | .outside => none
    | .unassigned => some k
    | .assigned => groupKindFrom g rest

def groupKind (g : Nat → Char) : Option GroupKind :=
  groupKindFrom g [(0, .headless), (1, .cut), (2, .one), (3, .two)]

/-- The kinds of the next `n` groups, up to the first that the decoder stores nothing for or stops at. -/
def storingGroups (f : Nat → Char) : Nat → Nat → List GroupKind
  | 0, _ => []
  | n + 1, pos =>
    match groupKind (fun i => f (pos + i)) with
    | none => []
    | some .cut => [.cut]
    | some k => k :: storingGroups f n (pos + 4)

/-- The last group's stores reach that far behind the cursor after it. -/
def lastExtra (ks : List GroupKind) : Nat :=
  match ks.getLast? with
  | some .cut => 2
  | some .one => 1
  | _ => 0

/-- The groups leave room in `3 * capacity + 1` cells; a headless one takes 255 of them. -/
def GroupsFit (capacity : Nat) (ks : List GroupKind) : Prop :=
  3 * ks.length + 252 * ks.count .headless + lastExtra ks ≤
    3 * capacity + 2 * ks.count .one + ks.count .two + 3 * ks.count .cut

/-- The cursor in the text stays an `int` when it has moved over the groups; a cut one ends the
loop first. -/
def CursorFits (ks : List GroupKind) : Prop := 4 * (ks.length - ks.count .cut) ≤ 2147483647

/-- The groups that `r_base64_decode` comes to. -/
def decodedGroups (bin : CharPtr) (len : Int) : List GroupKind :=
  storingGroups bin.char ((base64Len bin len + 2) / 4) 0

/-- The returned number and the stores stay within `bout[0 .. 3 * ceil (len / 4)]`. -/
def DecodeBounded (bin : CharPtr) (len : Int) : Prop :=
  ∃ ret stores, rBase64Decode bin len = some (ret, stores) ∧ ret ≤ 3 * ((base64Len bin len + 3) / 4) ∧
    ∀ x ∈ stores, x.1 ≤ 3 * ((base64Len bin len + 3) / 4)

/-- What `b64_decode` returns for a group. -/
def GroupKind.ret : GroupKind → Nat
  | .headless => 255
  | .cut => 0
  | .one => 1
  | .two => 2
  | .three => 3

theorem b64DecodeLoop_outside {g : Nat → Char} {i : Nat} (h : b64Class (g i) = .outside) (left : Nat) (vs : List Ut8) :
    b64DecodeLoop g (left + 1) i vs = none := by
  unfold b64Class at h
  split_ifs at h with hout
  rw [b64DecodeLoop, if_pos hout]

theorem b64DecodeLoop_unassigned {g : Nat → Char} {i : Nat} (h : b64Class (g i) = .unassigned) (left : Nat)
    (vs : List Ut8) : b64DecodeLoop g (left + 1) i vs =
      some (if i ≠ 0 then BitVec.ofNat 8 i - 1 else -1, vs.set i (cd64At (g i))) := by
  unfold b64Class at h
  split_ifs at h with hout hdollar
  rw [b64DecodeLoop, if_neg hout, if_pos hdollar]

theorem b64DecodeLoop_assigned {g : Nat → Char} {i : Nat} (h : b64Class (g i) = .assigned) (left : Nat)
    (vs : List Ut8) : b64DecodeLoop g (left + 1) i vs =
      b64DecodeLoop g left (i + 1) (vs.set i (cd64At (g i) - 62)) := by
  unfold b64Class at h
  split_ifs at h with hout hdollar
  rw [b64DecodeLoop, if_neg hout, if_neg hdollar]

/-- The loop gives the length that the kind says. -/
theorem b64DecodeLoop_kind (g : Nat → Char) :
    (b64DecodeLoop g 4 0 [0, 0, 0, 0]).map (fun r => r.1.toNat) = (groupKind g).map GroupKind.ret := by
  rw [groupKind]
  cases h0 : b64Class (g 0) with
  | outside => simp [groupKindFrom, h0, b64DecodeLoop_outside h0]
  | unassigned =>
    simp only [groupKindFrom, h0, b64DecodeLoop_unassigned h0]
    rfl
  | assigned =>
    rw [b64DecodeLoop_assigned h0]
    cases h1 : b64Class (g 1) with
    | outside => simp [groupKindFrom, h0, h1, b64DecodeLoop_outside h1]
    | unassigned =>
      simp only [groupKindFrom, h0, h1, b64DecodeLoop_unassigned h1]
      rfl
    | assigned =>
      rw [b64DecodeLoop_assigned h1]
      cases h2 : b64Class (g 2) with
      | outside => simp [groupKindFrom, h0, h1, h2, b64DecodeLoop_outside h2]
      | unassigned =>
        simp only [groupKindFrom, h0, h1, h2, b64DecodeLoop_unassigned h2]
        rfl
      | assigned =>
        rw [b64DecodeLoop_assigned h2]
        cases h3 : b64Class (g 3) with
        | outside => simp [groupKindFrom, h0, h1, h2, h3, b64DecodeLoop_outside h3]
        | unassigned =>
          simp only [groupKindFrom, h0, h1, h2, h3, b64DecodeLoop_unassigned h3]
          rfl
        | assigned =>
          rw [b64DecodeLoop_assigned h3]
          simp only [groupKindFrom, h0, h1, h2, h3, b64DecodeLoop]
          rfl

theorem b64Decode_none {g : Nat → Char} (h : groupKind g = none) : b64Decode g = (-1, []) := by
  have hloop := b64DecodeLoop_kind g
  rw [h, Option.map_none, Option.map_eq_none_iff] at hloop
  rw [b64Decode, hloop]

theorem b64Decode_some {g : Nat → Char} {k : GroupKind} (h : groupKind g = some k) :
    ∃ bytes, b64Decode g = (↑k.ret, bytes) ∧ bytes.length = 3 := by
  have hloop := b64DecodeLoop_kind g
  rw [h, Option.map_some, Option.map_eq_some_iff] at hloop
  obtain ⟨⟨len, v⟩, hr, hlen⟩ := hloop
  rw [b64Decode, hr, ← hlen]
  exact ⟨_, rfl, rfl⟩

/-- The last cell that the groups and the closing zero reach, with the cursor at `out`. -/
def reach : List GroupKind → Nat → Nat
  | [], out => out
  | k :: ks, out => max (out + 2) (reach ks (out + k.ret))

theorem reach_eq (ks : List GroupKind) (out : Nat) :
    reach ks out + 2 * ks.count .one + ks.count .two + 3 * ks.count .cut =
      out + 3 * ks.length + 252 * ks.count .headless + lastExtra ks := by
  induction ks generalizing out with
  | nil => rfl
  | cons k ks ih =>
    have hrest := ih (out + k.ret)
    cases ks with
    | nil => cases k <;> simp [reach, GroupKind.ret, lastExtra]
    | cons k' ks =>
      have hlow : out + k.ret + 2 ≤ reach (k' :: ks) (out + k.ret) := by
        rw [reach]
        exact Nat.le_max_left _ _
      have hlast : lastExtra (k :: k' :: ks) = lastExtra (k' :: ks) := by simp [lastExtra]
      have hmax : reach (k :: k' :: ks) out = reach (k' :: ks) (out + k.ret) := by
        rw [reach]
        omega
      rw [hmax, hlast, List.length_cons]
      cases k <;> simp only [List.count_cons, GroupKind.ret] at hrest ⊢ <;> simp at hrest ⊢ <;> omega

theorem groupsFit_iff (capacity : Nat) (ks : List GroupKind) : GroupsFit capacity ks ↔ reach ks 0 ≤ 3 * capacity := by
  have heq := reach_eq ks 0
  unfold GroupsFit
  omega

theorem storesAt_le {out bound : Nat} {bytes : List Ut8} (h : bytes.length = 3) :
    (∀ x ∈ storesAt out bytes, x.1 ≤ bound) ↔ out + 2 ≤ bound := by
  obtain ⟨x, y, z, rfl⟩ := List.length_eq_three.mp h
  simp [storesAt]
  omega

theorem le_reach (ks : List GroupKind) (out : Nat) : out ≤ reach ks out := by
  cases ks with
  | nil => exact Nat.le_refl out
  | cons k ks =>
    rw [reach]
    omega

/-- What the loop leaves is within a bound exactly if the groups are. -/
def LoopBounded (bound : Nat) (r : Option B64Decoder) : Prop :=
  ∃ s, r = some s ∧ (∀ x ∈ s.stores, x.1 ≤ bound) ∧ s.out ≤ bound

theorem not_loopBounded_none (bound : Nat) : ¬LoopBounded bound none := by
  rintro ⟨s, hs, -⟩
  exact nomatch hs

theorem loopBounded_some (bound : Nat) (s : B64Decoder) :
    LoopBounded bound (some s) ↔ (∀ x ∈ s.stores, x.1 ≤ bound) ∧ s.out ≤ bound := by
  simp [LoopBounded]

/-- The stores of the loop and the closing zero reach as far as the groups say. -/
theorem base64DecodeLoop_reach (f : Nat → Char) (len bound : Nat) {fuel pos : Nat} (out : Nat)
    (st : List (Nat × Ut8)) (hfuel : (len + 2 - pos) / 4 < fuel) (hbound : bound ≤ 2147483647)
    (hpos : pos ≤ 2147483647) :
    LoopBounded bound (base64DecodeLoop f len fuel ⟨pos, out, st⟩) ↔
      (∀ x ∈ st, x.1 ≤ bound) ∧ reach (storingGroups f ((len + 2 - pos) / 4) pos) out ≤ bound ∧
        pos + 4 * ((storingGroups f ((len + 2 - pos) / 4) pos).length -
          (storingGroups f ((len + 2 - pos) / 4) pos).count .cut) ≤ 2147483647 := by
  induction fuel generalizing pos out st with
  | zero => omega
  | succ fuel ih =>
    by_cases hgo : (pos : Int) < len - 1
    · obtain ⟨n, hn⟩ : ∃ n, (len + 2 - pos) / 4 = n + 1 := ⟨(len + 2 - pos) / 4 - 1, by omega⟩
      have hnext : (len + 2 - (pos + 4)) / 4 = n := by omega
      rw [hn, storingGroups, base64DecodeLoop, if_pos hgo]
      cases hk : groupKind (fun i => f (pos + i)) with
      | none =>
        simp [b64Decode_none hk, loopBounded_some, storesAt, reach, hpos]
      | some k =>
        obtain ⟨bytes, hg, hlen⟩ := b64Decode_some hk
        simp only [hg]
        by_cases hcut : k = .cut
        · subst hcut
          have hlast : reach [.cut] out = out + 2 := Nat.max_eq_left (Nat.le_add_right out 2)
          rw [if_pos (by decide), loopBounded_some, hlast]
          simp only [List.mem_append, or_imp, forall_and, storesAt_le hlen, and_assoc]
          refine and_congr_right fun _ => ?_
          simp [hpos]
          omega
        · have hret : 1 ≤ k.ret := by cases k <;> simp [GroupKind.ret] at hcut ⊢
          have hcons : (match some k with
              | none => []
              | some .cut => [.cut]
              | some k => k :: storingGroups f n (pos + 4)) = k :: storingGroups f n (pos + 4) := by
            cases k <;> first | rfl | exact absurd rfl hcut
          have hcount : (k :: storingGroups f n (pos + 4)).count .cut =
              (storingGroups f n (pos + 4)).count .cut := List.count_cons_of_ne hcut
          have hlast := List.count_le_length (a := GroupKind.cut) (l := storingGroups f n (pos + 4))
          have hreach := le_reach (storingGroups f n (pos + 4)) (out + k.ret)
          rw [if_neg (by omega), Int.toNat_natCast, hcons, hcount, reach, List.length_cons]
          by_cases hover : pos + 4 > 2147483647 ∨ out + k.ret > 2147483647
          · rw [if_pos hover]
            simp only [not_loopBounded_none, false_iff]
            omega
          · have hnext' : (len + 2 - (pos + 4)) / 4 < fuel := by omega
            rw [if_neg hover, ih (out + k.ret) (st ++ storesAt out bytes) hnext' (by omega), hnext]
            simp only [List.mem_append, or_imp, forall_and, storesAt_le hlen, and_assoc]
            refine and_congr_right fun _ => ?_
            omega
    · have hzero : (len + 2 - pos) / 4 = 0 := by omega
      rw [base64DecodeLoop, if_neg hgo, hzero, loopBounded_some]
      simp [storingGroups, reach, hpos]

theorem decodeBounded_iff_reach (bin : CharPtr) (len : Int) :
    DecodeBounded bin len ↔ base64Len bin len ≤ 2147483647 ∧
      reach (decodedGroups bin len) 0 ≤ 3 * ((base64Len bin len + 3) / 4) ∧
      CursorFits (decodedGroups bin len) := by
  rw [decodedGroups, CursorFits, DecodeBounded, rBase64Decode]
  generalize base64Len bin len = n
  by_cases hint : n > 2147483647
  · simp [hint]
  · have hfuel : (n + 2 - 0) / 4 < n + 1 := by omega
    have hreach := base64DecodeLoop_reach bin.char n (3 * ((n + 3) / 4)) 0 [] hfuel (by omega)
      (Nat.zero_le _)
    simp only [List.not_mem_nil, false_imp_iff, implies_true, true_and, Nat.sub_zero, Nat.zero_add] at hreach
    simp only [if_neg hint]
    rw [← hreach, and_iff_right (by omega)]
    cases base64DecodeLoop bin.char n (n + 1) ⟨0, 0, []⟩ with
    | none => simp [LoopBounded]
    | some s =>
      rw [loopBounded_some]
      constructor
      · rintro ⟨ret, stores, hs, -, hall⟩
        obtain ⟨-, rfl⟩ := Prod.mk.inj (Option.some.inj hs)
        exact ⟨fun x hx => hall x (by simp [hx]), hall (s.out, 0) (by simp)⟩
      · rintro ⟨hall, hout⟩
        refine ⟨_, _, rfl, ?_, ?_⟩
        · split_ifs <;> omega
        · intro x hx
          rcases List.mem_append.mp hx with hx | hx
          · exact hall x hx
          · rw [List.mem_singleton.mp hx]
            exact hout

/-- The decoder stays within its bounds exactly if the groups it comes to fit and its counters
hold the length and the cursor. -/
theorem base64_decode_bounded_iff (bin : CharPtr) (len : Int) :
    DecodeBounded bin len ↔ base64Len bin len ≤ 2147483647 ∧
      GroupsFit ((base64Len bin len + 3) / 4) (decodedGroups bin len) ∧
      CursorFits (decodedGroups bin len) := by
  rw [decodeBounded_iff_reach, groupsFit_iff]

/-- A group that begins with a padding character moves the cursor by 255. -/
theorem base64_decode_overruns : ¬DecodeBounded (CharPtr.ofText ['=', 'A', 'A', 'A'] (fun _ => '\x00')) 4 := by
  rw [decodeBounded_iff_reach]
  rintro ⟨-, hreach, -⟩
  revert hreach
  decide

end Radare
