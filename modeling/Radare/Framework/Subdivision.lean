import Mathlib.Logic.Relation
import Mathlib.Order.Basic
import Mathlib.Data.List.Basic
import Mathlib.Data.List.Nodup
import Mathlib.Data.List.Perm.Basic
import Mathlib.Data.List.Flatten

namespace Radare.Framework

variable {ι : Type} {R : ι → ι → Prop} {a b c n : ι} {j k : Nat}

/-- A path of `k` edges. -/
inductive Walk (R : ι → ι → Prop) : Nat → ι → ι → Prop where
  | nil (a : ι) : Walk R 0 a a
  | snoc {k : Nat} {a b c : ι} (h : Walk R k a b) (hstep : R b c) : Walk R (k + 1) a c

/-- The longest path that leads to a node has `k` edges. -/
structure LongestTo (R : ι → ι → Prop) (n : ι) (k : Nat) : Prop where
  attained : ∃ a, Walk R k a n
  longest : ∀ a j, Walk R j a n → j ≤ k

/-- The recurrence: one more than the longest path to a predecessor, or nothing without one. -/
theorem LongestTo.of_preds (layer : ι → Nat) (hpred : ∀ p, R p n → LongestTo R p (layer p) ∧ layer p < k)
    (hmax : k = 0 ∨ ∃ p, R p n ∧ k = layer p + 1) : LongestTo R n k := by
  constructor
  · rcases hmax with hzero | ⟨p, hp, hk⟩
    · rw [hzero]
      exact ⟨n, .nil n⟩
    · obtain ⟨a, ha⟩ := (hpred p hp).1.attained
      rw [hk]
      exact ⟨a, ha.snoc hp⟩
  · intro a j hj
    cases hj with
    | nil => exact Nat.zero_le k
    | snoc hw hstep =>
      obtain ⟨hlong, hlt⟩ := hpred _ hstep
      have hle := hlong.longest _ _ hw
      omega

/-- A path climbs at least one step of a height for each of its edges. -/
theorem Walk.climbs {height : ι → Nat} (hlt : ∀ a b, R a b → height a < height b) (h : Walk R k a b) :
    height a + k ≤ height b := by
  induction h with
  | nil a => simp
  | snoc _ hstep ih =>
    have := hlt _ _ hstep
    omega

/-- A relation that climbs has no cycle. -/
theorem acyclic_of_height {α : Type} [Preorder α] {height : ι → α} (hlt : ∀ a b, R a b → height a < height b) (a : ι) :
    ¬Relation.TransGen R a a := by
  have hmono : ∀ b, Relation.TransGen R a b → height a < height b := by
    intro b hb
    induction hb with
    | single hstep => exact hlt _ _ hstep
    | tail _ hstep ih => exact ih.trans (hlt _ _ hstep)
  exact fun hcycle => lt_irrefl _ (hmono a hcycle)

end Radare.Framework

namespace Radare.Framework

variable {ι : Type} {a b m x : ι} {ms : List ι}

/-- The edges of a path through the nodes of a list. -/
def pathSteps : ι → List ι → ι → List (ι × ι)
  | a, [], b => [(a, b)]
  | a, m :: ms, b => (a, m) :: pathSteps m ms b

theorem pathSteps_nil (a b : ι) : pathSteps a [] b = [(a, b)] := rfl

theorem pathSteps_cons (a m : ι) (ms : List ι) (b : ι) : pathSteps a (m :: ms) b = (a, m) :: pathSteps m ms b := rfl

@[simp] theorem pathSteps_fst (a : ι) (ms : List ι) (b : ι) : (pathSteps a ms b).map Prod.fst = a :: ms := by
  induction ms generalizing a with
  | nil => rfl
  | cons m ms ih => simp [pathSteps_cons, ih]

@[simp] theorem pathSteps_snd (a : ι) (ms : List ι) (b : ι) :
    (pathSteps a ms b).map Prod.snd = ms ++ [b] := by
  induction ms generalizing a with
  | nil => rfl
  | cons m ms ih => simp [pathSteps_cons, ih]

theorem pathSteps_eq (a : ι) (ms : List ι) (b : ι) :
    pathSteps a ms b = (a, ms.headD b) :: (pathSteps a ms b).tail := by
  cases ms with
  | nil => rfl
  | cons m ms => rfl

theorem pathSteps_tail_fst (h : (m, x) ∈ (pathSteps a ms b).tail) : m ∈ ms := by
  have hfst := pathSteps_fst a ms b
  rw [pathSteps_eq, List.map_cons, List.cons.injEq] at hfst
  rw [← hfst.2]
  exact List.mem_map_of_mem h

/-- Along a path that rises, the nodes inside lie between its ends. -/
theorem pathSteps_between {f : ι → Int} (h : ∀ e ∈ pathSteps a ms b, f e.1 < f e.2) :
    f a < f b ∧ ∀ m ∈ ms, f a < f m ∧ f m < f b := by
  induction ms generalizing a with
  | nil => exact ⟨h (a, b) List.mem_cons_self, nofun⟩
  | cons m ms ih =>
    have hfirst : f a < f m := h (a, m) List.mem_cons_self
    obtain ⟨hend, hmid⟩ := ih fun e he => h e (List.mem_cons_of_mem _ he)
    refine ⟨Int.lt_trans hfirst hend, fun x hx => ?_⟩
    rcases List.mem_cons.mp hx with rfl | hx
    · exact ⟨hfirst, hend⟩
    · exact ⟨Int.lt_trans hfirst (hmid x hx).1, (hmid x hx).2⟩

/-- An edge that became a path through nodes of its own. -/
structure Chain (ι : Type) where
  from_ : ι
  mid : List ι
  to_ : ι

def Chain.steps (c : Chain ι) : List (ι × ι) := pathSteps c.from_ c.mid c.to_

def Chain.ends (c : Chain ι) : ι × ι := (c.from_, c.to_)

/-- The edges over the old nodes are the short ones and the paths of the chains, whose inner nodes are
new and no two the same. -/
structure Subdivided (old : List ι) (short : List (ι × ι)) (chains : List (Chain ι)) (es : List (ι × ι)) :
    Prop where
  edges : es.Perm (short ++ chains.flatMap Chain.steps)
  shortOld : ∀ e ∈ short, e.1 ∈ old ∧ e.2 ∈ old
  chainOld : ∀ c ∈ chains, c.from_ ∈ old ∧ c.to_ ∈ old
  nodup : (chains.flatMap Chain.mid).Nodup
  apart : ∀ m ∈ chains.flatMap Chain.mid, m ∉ old

section Degree

variable [DecidableEq ι] {old : List ι} {short es : List (ι × ι)} {chains : List (Chain ι)}

/-- A node inside a chain is one end of one edge, if it is one end of one edge of its chain. -/
theorem Subdivided.count_end (h : Subdivided old short chains es) (hm : m ∈ chains.flatMap Chain.mid)
    {p : ι × ι → ι} (hshort : ∀ e ∈ short, p e ∈ old)
    (hchain : ∀ c ∈ chains, (c.steps.map p).count m = c.mid.count m) : (es.map p).count m = 1 := by
  have hzero : (short.map p).count m = 0 := by
    apply List.count_eq_zero_of_not_mem
    intro hmem
    obtain ⟨e, he, hem⟩ := List.mem_map.mp hmem
    apply h.apart m hm
    rw [← hem]
    exact hshort e he
  have hsum : ((chains.flatMap Chain.steps).map p).count m = (chains.flatMap Chain.mid).count m := by
    rw [List.map_flatMap, List.count_flatMap, List.count_flatMap]
    exact congrArg List.sum (List.map_congr_left hchain)
  rw [(h.edges.map p).count_eq, List.map_append, List.count_append, hzero, hsum,
    List.count_eq_one_of_mem h.nodup hm]

/-- One edge leaves a node inside a chain. -/
theorem Subdivided.one_out (h : Subdivided old short chains es) (hm : m ∈ chains.flatMap Chain.mid) :
    (es.map Prod.fst).count m = 1 := by
  apply h.count_end hm (fun e he => (h.shortOld e he).1)
  intro c hc
  have hne : c.from_ ≠ m := by
    intro he
    apply h.apart m hm
    rw [← he]
    exact (h.chainOld c hc).1
  rw [Chain.steps, pathSteps_fst, List.count_cons_of_ne hne]

/-- One edge reaches a node inside a chain. -/
theorem Subdivided.one_in (h : Subdivided old short chains es) (hm : m ∈ chains.flatMap Chain.mid) :
    (es.map Prod.snd).count m = 1 := by
  apply h.count_end hm (fun e he => (h.shortOld e he).2)
  intro c hc
  have hne : c.to_ ≠ m := by
    intro he
    apply h.apart m hm
    rw [← he]
    exact (h.chainOld c hc).2
  rw [Chain.steps, pathSteps_snd, List.count_append, List.count_singleton]
  simp [hne]

/-- An old node is an end of as many edges as before. -/
theorem Subdivided.count_old (h : Subdivided old short chains es) (hm : m ∈ old) {p : ι × ι → ι}
    (hchain : ∀ c ∈ chains, m ∉ c.mid → (c.steps.map p).count m = [p c.ends].count m) :
    (es.map p).count m = ((short ++ chains.map Chain.ends).map p).count m := by
  have hsum : ((chains.flatMap Chain.steps).map p).count m = ((chains.map Chain.ends).map p).count m := by
    rw [List.map_flatMap, List.map_map, List.map_eq_flatMap, List.count_flatMap, List.count_flatMap]
    apply congrArg List.sum
    apply List.map_congr_left
    intro c hc
    exact hchain c hc fun hmid => h.apart m (List.mem_flatMap.mpr ⟨c, hc, hmid⟩) hm
  rw [(h.edges.map p).count_eq, List.map_append, List.map_append, List.count_append, List.count_append, hsum]

theorem Subdivided.old_out (h : Subdivided old short chains es) (hm : m ∈ old) :
    (es.map Prod.fst).count m = ((short ++ chains.map Chain.ends).map Prod.fst).count m := by
  apply h.count_old hm
  intro c _ hmid
  simp [Chain.steps, Chain.ends, List.count_cons, List.count_eq_zero_of_not_mem hmid]

theorem Subdivided.old_in (h : Subdivided old short chains es) (hm : m ∈ old) :
    (es.map Prod.snd).count m = ((short ++ chains.map Chain.ends).map Prod.snd).count m := by
  apply h.count_old hm
  intro c _ hmid
  simp [Chain.steps, Chain.ends, List.count_eq_zero_of_not_mem hmid]

/-- Without the nodes inside the chains, the short edges are left. -/
theorem Subdivided.filter_old {mids : List ι} (h : Subdivided old short chains es) (hmids : ∀ u, u ∈ mids ↔ u ∈ chains.flatMap Chain.mid)
    (hinside : ∀ c ∈ chains, c.mid ≠ []) : (es.filter fun e => e.1 ∉ mids ∧ e.2 ∉ mids).Perm short := by
  apply (h.edges.filter _).trans
  have hshort : short.filter (fun e => decide (e.1 ∉ mids ∧ e.2 ∉ mids)) = short := by
    rw [List.filter_eq_self]
    intro e he
    obtain ⟨hfst, hsnd⟩ := h.shortOld e he
    simp only [hmids, decide_eq_true_eq]
    exact ⟨fun hm => h.apart _ hm hfst, fun hm => h.apart _ hm hsnd⟩
  have hsteps : (chains.flatMap Chain.steps).filter (fun e => decide (e.1 ∉ mids ∧ e.2 ∉ mids)) = [] := by
    rw [List.filter_eq_nil_iff]
    intro e he hkept
    obtain ⟨c, hc, hstep⟩ := List.mem_flatMap.mp he
    simp only [hmids, decide_eq_true_eq] at hkept
    obtain ⟨first, ms, hmid⟩ := List.exists_cons_of_ne_nil (hinside c hc)
    rw [Chain.steps, hmid, pathSteps_cons, List.mem_cons] at hstep
    rcases hstep with rfl | hstep
    · exact hkept.2 (List.mem_flatMap.mpr ⟨c, hc, by simp [hmid]⟩)
    · refine hkept.1 (List.mem_flatMap.mpr ⟨c, hc, ?_⟩)
      rw [hmid, ← pathSteps_fst first ms c.to_]
      exact List.mem_map.mpr ⟨e, hstep, rfl⟩
  rw [List.filter_append, hshort, hsteps, List.append_nil]

end Degree

/-- Of a list one member and another are together at most all. -/
theorem count_add_count_le [DecidableEq ι] {x y : ι} (hne : x ≠ y) (l : List ι) :
    l.count x + l.count y ≤ l.length := by
  induction l with
  | nil => simp
  | cons a l ih =>
    rw [List.count_cons, List.count_cons, List.length_cons]
    by_cases hx : a = x
    · subst hx
      simp [hne]
      omega
    · simp only [beq_iff_eq, hx, if_false]
      split_ifs <;> omega

section Contract

variable {inside : ι → Bool} {out : ι → List ι}

/-- The first node that is not inside a chain, along the first edge of each. -/
def follow (inside : ι → Bool) (out : ι → List ι) : Nat → ι → ι
  | 0, n => n
  | k + 1, n => if inside n then follow inside out k ((out n).headD n) else n

/-- The edges once every chain is one edge again. -/
def contract (inside : ι → Bool) (out : ι → List ι) (k : Nat) (es : List (ι × ι)) : List (ι × ι) :=
  (es.filter (fun e => !inside e.1)).map (fun e => (e.1, follow inside out k e.2))

@[simp] theorem follow_outside (h : inside x = false) (k : Nat) : follow inside out k x = x := by
  cases k with
  | zero => simp [follow]
  | succ k => simp [follow, h]

theorem follow_path (hms : ∀ m ∈ ms, inside m = true) (hb : inside b = false)
    (hout : ∀ m x, (m, x) ∈ pathSteps a ms b → inside m = true → out m = [x]) {k : Nat} (hk : ms.length ≤ k) :
    follow inside out k (ms.headD b) = b := by
  induction ms generalizing a k with
  | nil => simp [hb]
  | cons m ms ih =>
    obtain ⟨k, rfl⟩ : ∃ l, k = l + 1 := ⟨k - 1, by simp at hk; omega⟩
    have hm := hms m List.mem_cons_self
    have hstep : out m = [ms.headD b] := by
      apply hout m _ _ hm
      rw [pathSteps, pathSteps_eq m]
      simp
    rw [List.headD_cons, follow, if_pos hm, hstep, List.headD_cons]
    apply ih (fun n hn => hms n (List.mem_cons_of_mem m hn)) (a := m)
    · intro n y hn
      exact hout n y (List.mem_cons_of_mem _ hn)
    · simpa using hk

/-- A chain is one edge again. -/
theorem contract_path (ha : inside a = false) (hms : ∀ m ∈ ms, inside m = true) (hb : inside b = false)
    (hout : ∀ m x, (m, x) ∈ pathSteps a ms b → inside m = true → out m = [x]) {k : Nat} (hk : ms.length ≤ k) :
    contract inside out k (pathSteps a ms b) = [(a, b)] := by
  have htail : (pathSteps a ms b).tail.filter (fun e => !inside e.1) = [] := by
    rw [List.filter_eq_nil_iff]
    intro e he
    simp [hms e.1 (pathSteps_tail_fst he)]
  rw [contract, pathSteps_eq, List.filter_cons_of_pos (by simp [ha]), htail]
  simp only [List.map_cons, List.map_nil]
  rw [follow_path hms hb hout hk]

theorem contract_append (k : Nat) (es es' : List (ι × ι)) :
    contract inside out k (es ++ es') = contract inside out k es ++ contract inside out k es' := by
  simp [contract]

theorem contract_outside {k : Nat} {es : List (ι × ι)}
    (h : ∀ e ∈ es, inside e.1 = false ∧ inside e.2 = false) : contract inside out k es = es := by
  have hfilter : es.filter (fun e => !inside e.1) = es := by
    rw [List.filter_eq_self]
    intro e he
    simp [(h e he).1]
  rw [contract, hfilter]
  conv_rhs => rw [← List.map_id es]
  apply List.map_congr_left
  intro e he
  simp [(h e he).2]

variable {old : List ι} {short es : List (ι × ι)} {chains : List (Chain ι)}

/-- Contracting the chains gives the edges back. -/
theorem Subdivided.contract (h : Subdivided old short chains es) (hold : ∀ n ∈ old, inside n = false)
    (hmid : ∀ m ∈ chains.flatMap Chain.mid, inside m = true)
    (hout : ∀ m x, (m, x) ∈ es → inside m = true → out m = [x]) {k : Nat}
    (hk : ∀ c ∈ chains, c.mid.length ≤ k) :
    (contract inside out k es).Perm (short ++ chains.map Chain.ends) := by
  have hperm : (Framework.contract inside out k es).Perm
      (Framework.contract inside out k (short ++ chains.flatMap Chain.steps)) :=
    (h.edges.filter _).map _
  have hshort : Framework.contract inside out k short = short := by
    apply contract_outside
    intro e he
    exact ⟨hold _ (h.shortOld e he).1, hold _ (h.shortOld e he).2⟩
  have hchain : ∀ c ∈ chains, Framework.contract inside out k c.steps = [c.ends] := by
    intro c hc
    apply contract_path (hold _ (h.chainOld c hc).1) _ (hold _ (h.chainOld c hc).2) _ (hk c hc)
    · intro m hm
      exact hmid m (List.mem_flatMap_of_mem hc hm)
    · intro m x hmx
      apply hout
      rw [h.edges.mem_iff]
      exact List.mem_append_right _ (List.mem_flatMap_of_mem hc hmx)
  have hchains : Framework.contract inside out k (chains.flatMap Chain.steps) = chains.map Chain.ends := by
    rw [Framework.contract, List.filter_flatMap, List.map_flatMap]
    rw [List.map_eq_flatMap]
    exact List.flatMap_congr hchain
  rw [contract_append, hshort, hchains] at hperm
  exact hperm

end Contract

end Radare.Framework
