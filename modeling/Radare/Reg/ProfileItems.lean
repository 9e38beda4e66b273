import Radare.Reg.ProfileLines
import Mathlib.Data.List.Forall2

namespace Radare.Reg

section Definitions

/-- The register that `parse_def` makes of the words of a line. -/
structure DefinedBy (tok : List CStr) (item : RRegItem) : Prop where
  type : tok[0]?.bind rRegTypeByName = some item.type
  name : tok[1]? = some item.name
  size : tok[2]?.map (fun s => toInt (parseSize s).1) = some item.size
  offset : tok[3]?.map (fun s => toInt (parseSize s).1) = some item.offset
  packedSize : tok[4]?.map (fun s => toInt (parseSize s).1) = some item.packedSize
  sized : item.size ≠ 0

variable {reg reg' : RReg}

theorem defItem_ok {type name size offset packed : CStr} {flags : Option CStr} (more : List CStr)
    (h : defItem reg type name size offset packed flags = .ok reg') :
    ∃ item, DefinedBy (type :: name :: size :: offset :: packed :: more) item ∧ reg.knows item.name = false ∧
      reg' = reg.append item := by
  unfold defItem at h
  split at h
  · cases h
  · rename_i t ht
    simp only at h
    split_ifs at h with hsize hoffset hpacked hknown
    cases h
    exact ⟨{ name := name, type := t, size := toInt (parseSize size).1, offset := toInt (parseSize offset).1
             packedSize := toInt (parseSize packed).1, flags := flags },
      ⟨ht, rfl, rfl, rfl, rfl, fun hzero => hsize (.inr hzero)⟩, by simpa using hknown, rfl⟩

/-- A definition has five or six words and a name of its own. -/
theorem parseDef_ok {tok : List CStr} (h : parseDef reg tok = .ok reg') :
    (tok.length = 5 ∨ tok.length = 6) ∧
      ∃ item, DefinedBy tok item ∧ reg.knows item.name = false ∧ reg' = reg.append item := by
  unfold parseDef at h
  split at h
  · exact ⟨.inl rfl, defItem_ok [] h⟩
  · exact ⟨.inr rfl, defItem_ok _ h⟩
  · cases h

theorem parseAlias_none {tok : List CStr} (h : parseAlias tok = none) : tok.length = 2 := by
  unfold parseAlias at h
  split at h
  · rfl
  · cases h

/-- Only a blank end of the text makes the first word another one. -/
theorem CutAs.isDefinition {line tok : List CStr} {first : CStr} (h : CutAs line (first :: tok))
    (hne : first :: tok ≠ [[]]) : isDefinition line = decide (first.head? ≠ some '=') := by
  rcases h with heq | heq
  · rw [← heq]
    rfl
  · cases line with
    | nil => exact absurd heq hne
    | cons x line =>
      rw [← (List.cons.inj heq).1]
      rfl

theorem CutAs.nil {line : List CStr} (h : CutAs line []) : line = [] := by
  rcases h with heq | heq
  · exact heq.symm
  · exact absurd heq.symm (by simp)

/-- An accepted text defines its registers one line after the other. -/
theorem parseLines_ok {fuel : Nat} {p : CStr} (h : parseLines fuel p reg = some (.ok reg')) :
    ∃ toks, List.Forall₂ CutAs (definitionLines p) toks ∧ toks.foldlM parseDef reg = .ok reg' := by
  induction fuel generalizing p reg with
  | zero => cases h
  | succ fuel ih =>
    obtain ⟨line, rest, rfl, hline, hrest⟩ := exists_line p
    have hbehind : ∀ reg, afterLine fuel rest reg = some (Except.ok reg') →
        ∃ toks, List.Forall₂ CutAs (definitionsBehind rest) toks ∧ toks.foldlM parseDef reg = .ok reg' := by
      intro reg hnext
      cases rest with
      | nil =>
        cases hnext
        exact ⟨[], .nil, rfl⟩
      | cons c rest => exact ih hnext
    rw [definitionLines_append hline hrest]
    rw [parseLines] at h
    split_ifs at h with hcomment
    · obtain ⟨q, hskip, hnext⟩ := Option.bind_eq_some_iff.mp h
      obtain ⟨rfl, -⟩ := skipToEol_line hline hrest hskip
      have hwords : wordsFrom [] line = [] := by
        cases line with
        | nil => rfl
        | cons c line =>
          rw [List.cons_append, List.head?_cons, Option.some.injEq] at hcomment
          rw [hcomment, wordsFrom_comment]
      rw [hwords]
      exact hbehind reg hnext
    · obtain ⟨w, hwords, hnext⟩ := Option.bind_eq_some_iff.mp h
      have hspec := lineWords_spec hline hrest (by simp) hwords
      simp only [List.nil_append, exists_eq_left'] at hspec
      split at hnext
      · rename_i hnil
        rw [hnil] at hspec
        obtain ⟨hw, hcut⟩ := hspec (by simp)
        rw [hw] at hnext
        rw [hcut.nil]
        exact hbehind reg hnext
      · rename_i first tok hfirst
        rw [hfirst] at hspec
        split_ifs at hnext with halias
        · split at hnext
          · cases hnext
          · rename_i hnone
            have hlen := parseAlias_none hnone
            obtain ⟨hw, hcut⟩ := hspec (by omega)
            have hdef := hcut.isDefinition (by intro heq; rw [heq] at hlen; cases hlen)
            rw [hw] at hnext
            rw [List.filter_singleton, hdef, halias]
            exact hbehind reg hnext
        · split at hnext
          · cases hnext
          · rename_i next hnextdef
            obtain ⟨hlen, -⟩ := parseDef_ok hnextdef
            obtain ⟨hw, hcut⟩ := hspec (by omega)
            have hdef := hcut.isDefinition (by intro heq; rw [heq] at hlen; simp at hlen)
            rw [hw] at hnext
            obtain ⟨toks, htoks, hfold⟩ := hbehind next hnext
            rw [List.filter_singleton, hdef, decide_eq_true halias]
            refine ⟨(first :: tok) :: toks, .cons hcut htoks, ?_⟩
            rw [List.foldlM_cons, hnextdef]
            exact hfold

/-- The registers of the sets, in the order of their definitions. -/
structure Holds (reg : RReg) (items : List RRegItem) : Prop where
  regs : ∀ t, (reg.regset t).regs = items.filter (fun r => r.type = t)
  names : (items.map RRegItem.name).Nodup

variable {items : List RRegItem}

theorem Holds.new_name (h : Holds reg items) {name : CStr} (hknown : reg.knows name = false) :
    ∀ r ∈ items, r.name ≠ name := by
  intro r hr heq
  have hmem : r ∈ (reg.regset r.type).regs := by
    rw [h.regs]
    exact List.mem_filter.mpr ⟨hr, by simp⟩
  have hall : (reg.regset r.type).regs.any (fun x => x.name == name) = true :=
    List.any_eq_true.mpr ⟨r, hmem, by simp [heq]⟩
  have hknows : reg.knows name = true := by
    refine List.any_eq_true.mpr ⟨r.type, ?_, hall⟩
    cases r.type <;> simp
  rw [hknows] at hknown
  cases hknown

theorem Holds.append (h : Holds reg items) {item : RRegItem} (hknown : reg.knows item.name = false) :
    Holds (reg.append item) (items ++ [item]) := by
  refine ⟨fun t => ?_, ?_⟩
  · rw [List.filter_append, List.filter_singleton, RReg.append]
    by_cases ht : t = item.type
    · rw [ht, ← h.regs]
      simp
    · simp only [Function.update_of_ne ht, ← h.regs]
      simp [Ne.symm ht]
  · rw [List.map_append, List.map_singleton]
    refine h.names.append (List.nodup_singleton _) ?_
    intro name hname hmem
    obtain ⟨r, hr, hrname⟩ := List.mem_map.mp hname
    exact h.new_name hknown r hr (hrname.trans (List.mem_singleton.mp hmem))

theorem Holds.define (h : Holds reg items) {toks : List (List CStr)} (hfold : toks.foldlM parseDef reg = .ok reg') :
    ∃ new, List.Forall₂ DefinedBy toks new ∧ Holds reg' (items ++ new) ∧ reg'.regProfileStr = reg.regProfileStr := by
  induction toks generalizing reg items with
  | nil =>
    cases hfold
    exact ⟨[], .nil, by rwa [List.append_nil], rfl⟩
  | cons tok toks ih =>
    rw [List.foldlM_cons] at hfold
    cases hdef : parseDef reg tok with
    | error e =>
      rw [hdef] at hfold
      cases hfold
    | ok next =>
      rw [hdef] at hfold
      obtain ⟨-, item, hitem, hknown, hnext⟩ := parseDef_ok hdef
      rw [hnext] at hfold
      obtain ⟨new, hnew, hholds, hstr⟩ := ih (h.append hknown) hfold
      exact ⟨item :: new, .cons hitem hnew, by rwa [List.append_assoc] at hholds, hstr⟩

/-- The line that defines a register. -/
def LineOf (line : List CStr) (item : RRegItem) : Prop := ∃ tok, CutAs line tok ∧ DefinedBy tok item

/-- The registers of an accepted text are those of its lines. -/
theorem Holds.parseLines (h : Holds reg []) {fuel : Nat} {p : CStr} (hp : parseLines fuel p reg = some (.ok reg')) :
    ∃ items, List.Forall₂ LineOf (definitionLines p) items ∧ Holds reg' items ∧
      reg'.regProfileStr = reg.regProfileStr := by
  obtain ⟨toks, hcut, hfold⟩ := parseLines_ok hp
  obtain ⟨items, hdef, hholds, hstr⟩ := h.define hfold
  refine ⟨items, ?_, hholds, hstr⟩
  clear hholds hstr hfold hp
  generalize definitionLines p = lines at hcut ⊢
  induction hcut generalizing items with
  | nil =>
    cases hdef
    exact .nil
  | cons hline hlines ih =>
    cases hdef with
    | cons hitem hitems => exact .cons ⟨_, hline, hitem⟩ (ih _ hitems)

end Definitions

end Radare.Reg
