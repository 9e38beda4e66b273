import Radare.Io.Ihex

namespace Radare.Ihex

/-- The state that `ihex_parse` begins with. -/
def parseInit (rbuf : RBuffer) : State := ⟨List.replicate 0xffff 0, 0, 0, 0, 0, rbuf⟩

/-- The states and places that the loop comes to. -/
inductive Reached (rbuf : RBuffer) (text : CStr) : State → CStr → Prop
  | start : Reached rbuf text (parseInit rbuf) text
  | turn {st st' : State} {str next : CStr} : Reached rbuf text st str →
      parseRecord st str = .ok (st', some next) → Reached rbuf text st' next

/-- `next` begins at a later ':' of `str`. -/
def MovesOn (str next : CStr) : Prop := ∃ k, 0 < k ∧ next = str.drop k ∧ next.head? = some ':'

/-- The loop comes to an end, and each of its turns fails, ends, or moves on. -/
def LoopEnds (rbuf : RBuffer) (text : CStr) : Prop :=
  ihexParse rbuf text ≠ .error .endless ∧
    ∀ st str st' next, Reached rbuf text st str → parseRecord st str = .ok (st', some next) → MovesOn str next

/-- Every record that the loop comes to has a type that its switch knows. -/
def KnownTypes (rbuf : RBuffer) (text : CStr) : Prop :=
  ∀ st str, Reached rbuf text st str → ∀ bc addr type, scanHeader str = some (bc, addr, type) → type ≤ 5

section Finishes

variable {α β : Type}

/-- Not kept in the loop. -/
def Finishes (r : Except Stop α) : Prop := r ≠ .error .endless

theorem Finishes.ok (a : α) : Finishes (.ok a) := nofun

theorem Finishes.fail : Finishes (.error .fail : Except Stop α) := nofun

theorem Finishes.undefined : Finishes (.error .undefined : Except Stop α) := nofun

theorem Finishes.bind {x : Except Stop α} {f : α → Except Stop β} (hx : Finishes x) (hf : ∀ a, Finishes (f a)) :
    Finishes (x >>= f) := by
  cases x with
  | error e => exact fun h => hx (congrArg Except.error (Except.error.inj h))
  | ok a => exact hf a

theorem Finishes.map {x : Except Stop α} (f : α → β) (hx : Finishes x) : Finishes (x.map f) := by
  cases x with
  | error e => exact fun h => hx (congrArg Except.error (Except.error.inj h))
  | ok a => exact Finishes.ok _

end Finishes

theorem scanByte_finishes (str : CStr) (eol : Option Nat) (k : Nat) : Finishes (scanByte str eol k) := by
  refine Finishes.bind ?_ fun s => ?_
  · unfold strAt
    dsimp only
    split_ifs
    · exact Finishes.ok _
    · exact Finishes.ok _
    · exact Finishes.undefined
  · split
    · exact Finishes.fail
    · exact Finishes.ok _

theorem writeSection_finishes (st : State) : Finishes (writeSection st) := by
  unfold writeSection
  split_ifs
  · split
    · exact Finishes.undefined
    · split_ifs
      · exact Finishes.fail
      · exact Finishes.ok _
  · exact Finishes.undefined
  · exact Finishes.ok _

theorem readData_finishes (str : CStr) (eol : Option Nat) (secSize left i : Nat) (secTmp : List Ut8) (cksum : Ut8) :
    Finishes (readData str eol secSize left i secTmp cksum) := by
  induction left generalizing i secTmp cksum with
  | zero => exact Finishes.ok _
  | succ left ih =>
    refine (scanByte_finishes str eol (9 + i * 2)).bind fun byte => ?_
    split_ifs
    · exact ih (i + 1) _ _
    · exact Finishes.undefined

theorem verifySum_finishes (str : CStr) (eol : Option Nat) (k : Nat) (cksum : Ut8) :
    Finishes (verifySum str eol k cksum) := by
  unfold verifySum
  split_ifs
  · refine (scanByte_finishes str eol k).bind fun byte => ?_
    split_ifs
    · exact Finishes.fail
    · exact Finishes.ok _
  · exact Finishes.ok _

theorem dataRecord_finishes (st : State) (str : CStr) (bc : Ut8) (addr : BitVec 16) :
    Finishes (dataRecord st str bc addr) := by
  refine Finishes.bind ?_ fun st => (readData_finishes _ _ _ _ _ _ _).bind fun r =>
    (verifySum_finishes _ _ _ _).bind fun _ => Finishes.ok _
  unfold openSection
  split_ifs
  · exact (writeSection_finishes st).map _
  · exact Finishes.ok _

theorem baseRecord_finishes (st : State) (str : CStr) (bc : Ut8) (addr : BitVec 16) (type : Ut8) :
    Finishes (baseRecord st str bc addr type) := by
  refine (writeSection_finishes st).bind fun st => ?_
  by_cases hbad : bc ≠ 2 ∨ addr ≠ 0
  · rw [if_pos hbad]
    exact Finishes.fail
  · rw [if_neg hbad]
    exact (scanByte_finishes _ _ _).bind fun _ => (scanByte_finishes _ _ _).bind fun _ =>
      (verifySum_finishes _ _ _ _).bind fun _ => Finishes.ok _

/-- A turn by itself always finishes. -/
theorem parseRecord_finishes (st : State) (str : CStr) : Finishes (parseRecord st str) := by
  unfold parseRecord
  split
  · exact Finishes.fail
  · split_ifs
    · exact dataRecord_finishes st str _ _
    · exact (writeSection_finishes st).map _
    · exact baseRecord_finishes st str _ _ _
    · exact Finishes.ok _
    · exact Finishes.ok _

theorem findEol_movesOn {str next : CStr} (h : (findEol str).map (fun k => str.drop k) = some next) : MovesOn str next := by
  obtain ⟨k, hk, rfl⟩ := Option.map_eq_some_iff.mp h
  obtain ⟨j, hj, rfl⟩ := Option.map_eq_some_iff.mp hk
  obtain ⟨hlt, hcolon, -⟩ := List.findIdx?_eq_some_iff_getElem.mp hj
  refine ⟨j + 1, Nat.succ_pos j, rfl, ?_⟩
  rw [List.head?_drop, Nat.add_comm, ← List.getElem?_drop, List.getElem?_eq_getElem hlt]
  simpa using hcolon

theorem except_bind_ok {α β : Type} {x : Except Stop α} {f : α → Except Stop β} {b : β} (h : (x >>= f) = .ok b) :
    ∃ a, f a = .ok b := by
  cases x with
  | error e => cases h
  | ok a => exact ⟨a, h⟩

theorem dataRecord_next {st st' : State} {str : CStr} {bc : Ut8} {addr : BitVec 16} {next : Option CStr}
    (h : dataRecord st str bc addr = .ok (st', next)) : next = (findEol str).map (fun k => str.drop k) := by
  obtain ⟨st₁, h⟩ := except_bind_ok h
  obtain ⟨r, h⟩ := except_bind_ok h
  obtain ⟨u, h⟩ := except_bind_ok h
  exact (Prod.mk.inj (Except.ok.inj h)).2.symm

theorem baseRecord_next {st st' : State} {str : CStr} {bc type : Ut8} {addr : BitVec 16} {next : Option CStr}
    (h : baseRecord st str bc addr type = .ok (st', next)) : next = (findEol str).map (fun k => str.drop k) := by
  obtain ⟨st₁, h⟩ := except_bind_ok h
  by_cases hbad : bc ≠ 2 ∨ addr ≠ 0
  · rw [if_pos hbad] at h
    cases h
  · rw [if_neg hbad] at h
    obtain ⟨extH, h⟩ := except_bind_ok h
    obtain ⟨extL, h⟩ := except_bind_ok h
    obtain ⟨u, h⟩ := except_bind_ok h
    exact (Prod.mk.inj (Except.ok.inj h)).2.symm

theorem known_type : ∀ {type : Ut8}, type ≤ 5 → type = 0 ∨ type = 1 ∨ type = 2 ∨ type = 3 ∨ type = 4 ∨ type = 5 := by
  decide

/-- A turn over a record of a known type moves on if it goes on at all. -/
theorem parseRecord_movesOn {st st' : State} {str next : CStr} (h : parseRecord st str = .ok (st', some next))
    (htype : ∀ bc addr type, scanHeader str = some (bc, addr, type) → type ≤ 5) : MovesOn str next := by
  unfold parseRecord at h
  split at h
  · cases h
  · rename_i bc addr type hheader
    split_ifs at h with h0 h1 h24 h35
    · exact findEol_movesOn (dataRecord_next h).symm
    · cases hw : writeSection st with
      | error e => rw [hw] at h; cases h
      | ok st => rw [hw] at h; cases h
    · exact findEol_movesOn (baseRecord_next h).symm
    · exact findEol_movesOn (Prod.mk.inj (Except.ok.inj h)).2
    · have hle := htype bc addr type hheader
      rw [not_or] at h24 h35
      rcases known_type hle with heq | heq | heq | heq | heq | heq
      · exact absurd heq h0
      · exact absurd heq h1
      · exact absurd heq h24.1
      · exact absurd heq h35.1
      · exact absurd heq h24.2
      · exact absurd heq h35.2

/-- A record of any other type is read again and again. -/
theorem parseRecord_stuck (st : State) {str : CStr} {bc type : Ut8} {addr : BitVec 16}
    (hheader : scanHeader str = some (bc, addr, type)) (htype : ¬type ≤ 5) : parseRecord st str = .ok (st, some str) := by
  have hne {n : Ut8} (hn : n ≤ 5) : type ≠ n := fun h => htype (h ▸ hn)
  simp only [parseRecord, hheader]
  rw [if_neg (hne (by decide)), if_neg (hne (by decide)), if_neg (not_or.mpr ⟨hne (by decide), hne (by decide)⟩),
    if_neg (not_or.mpr ⟨hne (by decide), hne (by decide)⟩)]

theorem MovesOn.length {str next : CStr} (h : MovesOn str next) : next.length < str.length := by
  obtain ⟨k, hk, rfl, hcolon⟩ := h
  have hlt : k < str.length := by
    by_contra hge
    rw [List.drop_eq_nil_of_le (Nat.le_of_not_lt hge)] at hcolon
    cases hcolon
  rw [List.length_drop]
  omega

/-- From a place of the run there are at most as many turns as characters. -/
theorem parseLoop_finishes {rbuf : RBuffer} {text : CStr} (hknown : KnownTypes rbuf text) (turns : Nat) {st : State}
    {str : CStr} (hreach : Reached rbuf text st str) (hlen : str.length < turns) : Finishes (parseLoop turns st str) := by
  induction turns generalizing st str with
  | zero => exact absurd hlen (Nat.not_lt_zero _)
  | succ turns ih =>
    cases hrec : parseRecord st str with
    | error e =>
      have hne := parseRecord_finishes st str
      rw [hrec] at hne
      rw [parseLoop, hrec]
      exact fun h => hne (congrArg Except.error (Except.error.inj h))
    | ok r =>
      obtain ⟨st', next⟩ := r
      rw [parseLoop, hrec]
      cases next with
      | none => exact Finishes.ok _
      | some next =>
        have hmoves := (parseRecord_movesOn hrec (hknown st str hreach)).length
        exact ih (.turn hreach hrec) (by omega)

/-- A record of type 6. -/
def unknownRecord : CStr := [':', '0', '0', '0', '0', '0', '0', '0', '6', 'F', 'A']

end Radare.Ihex
