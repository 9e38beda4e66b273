import Radare.Framework.DepthFirst
import Mathlib.Data.List.Flatten

namespace Radare.Framework.DepthFirst

variable {ι ε : Type}

/-- What is known of the reports of a search that is over. -/
structure Complete (nodes : List ι) (edges : ι → List ε) (src dst : ε → ι) (log : List (Visit ι ε)) : Prop where
  discovered : (discovered log).Perm nodes
  finished : (finished log).Perm nodes
  used : (used log).Perm (nodes.flatMap edges)
  back : ∀ e ∈ nodes.flatMap edges, Visit.back e ∈ log ↔ Anc src dst log (dst e) (src e)
  parent : ∀ x y z, Tree src dst log x z → Tree src dst log y z → x = y

/-- An edge that was not reported as a back edge. -/
def Kept (occurrences : List ε) (src dst : ε → ι) (log : List (Visit ι ε)) (a b : ι) : Prop :=
  ∃ e ∈ occurrences, Visit.back e ∉ log ∧ src e = a ∧ dst e = b

theorem mem_used {log : List (Visit ι ε)} {e : ε} (h : e ∈ used log) :
    Visit.tree e ∈ log ∨ Visit.back e ∈ log ∨ Visit.cross e ∈ log := by
  obtain ⟨v, hv, he⟩ := List.mem_filterMap.mp h
  cases v with
  | discover n => cases he
  | finish n => cases he
  | tree e' =>
    cases he
    exact Or.inl hv
  | back e' =>
    cases he
    exact Or.inr (Or.inl hv)
  | cross e' =>
    cases he
    exact Or.inr (Or.inr hv)

theorem count_discover [DecidableEq ι] [DecidableEq ε] (log : List (Visit ι ε)) (n : ι) :
    log.count (.discover n) = (discovered log).count n := by
  rw [discovered, List.count_filterMap, List.count]
  apply List.countP_congr
  intro v _
  cases v <;> simp [Visit.discovered?]

theorem count_finish [DecidableEq ι] [DecidableEq ε] (log : List (Visit ι ε)) (n : ι) :
    log.count (.finish n) = (finished log).count n := by
  rw [finished, List.count_filterMap, List.count]
  apply List.countP_congr
  intro v _
  cases v <;> simp [Visit.finished?]

/-- An edge is passed on in one of three ways. -/
theorem count_used [DecidableEq ι] [DecidableEq ε] (log : List (Visit ι ε)) (e : ε) :
    log.count (.tree e) + log.count (.back e) + log.count (.cross e) = (used log).count e := by
  induction log with
  | nil => rfl
  | cons v log ih =>
    simp only [used, List.count_filterMap] at ih ⊢
    rw [List.count_cons, List.count_cons, List.count_cons, List.countP_cons, ← ih]
    cases v with
    | discover m => simp [Visit.used?]
    | finish m => simp [Visit.used?]
    | _ e' =>
      simp [Visit.used?]
      omega

theorem length_onPath {src : ε → ι} {path : List ι} {st : List (Frame ι ε)} (h : OnPath src path st) :
    st.length = (pending st).length + path.length := by
  induction h with
  | nil => rfl
  | @edge e ps st h ih =>
    show st.length + 1 = (pending st).length + 1 + _
    omega
  | @close n ps st h ih =>
    show st.length + 1 = (pending st).length + (ps.length + 1)
    omega

theorem flatMap_length_le {f : ι → List ε} {l l' : List ι} (hnd : l.Nodup) (hsub : ∀ x ∈ l, x ∈ l') :
    (l.flatMap f).length ≤ (l'.flatMap f).length := by
  obtain ⟨k, hk, hsubl⟩ := List.subperm_of_subset hnd hsub
  rw [← (hk.flatMap_right f).length_eq]
  exact (hsubl.flatMap f).length_le

theorem idxOf_reverse_lt [DecidableEq ι] {l : List ι} (hnd : l.Nodup) {a b : ι} (ha : a ∈ l) (hb : b ∈ l)
    (hlt : l.idxOf b < l.idxOf a) : l.reverse.idxOf a < l.reverse.idxOf b := by
  induction l with
  | nil => cases ha
  | cons x l ih =>
    rw [List.nodup_cons] at hnd
    rw [List.reverse_cons]
    by_cases hx : b = x
    · rw [hx] at hlt
      have hax : a ≠ x := by
        intro he
        rw [he] at hlt
        exact lt_irrefl _ hlt
      have hal : a ∈ l.reverse := List.mem_reverse.mpr ((List.mem_cons.mp ha).resolve_left hax)
      have hbl : b ∉ l.reverse := by
        rw [hx, List.mem_reverse]
        exact hnd.1
      rw [List.idxOf_append_of_mem hal, List.idxOf_append_of_notMem hbl]
      have := List.idxOf_lt_length_of_mem hal
      omega
    · have hax : a ≠ x := by
        intro he
        rw [he, List.idxOf_cons_self] at hlt
        omega
      have hal := (List.mem_cons.mp ha).resolve_left hax
      have hbl := (List.mem_cons.mp hb).resolve_left hx
      rw [List.idxOf_append_of_mem (List.mem_reverse.mpr hal), List.idxOf_append_of_mem (List.mem_reverse.mpr hbl)]
      rw [List.idxOf_cons_ne _ (Ne.symm hax), List.idxOf_cons_ne _ (Ne.symm hx)] at hlt
      exact ih hnd.2 hal hbl (by omega)

/-- The turns that were made: each passes on an edge or finishes a node. -/
def turns (log : List (Visit ι ε)) : Nat := (used log).length + (finished log).length

theorem turns_append (l k : List (Visit ι ε)) : turns (l ++ k) = turns l + turns k := by
  rw [turns, turns, turns, used_append, finished_append, List.length_append, List.length_append]
  omega

/-- Every open node but the first was reached along a tree edge. -/
theorem chain_reached {src dst : ε → ι} {log : List (Visit ι ε)} {path : List ι}
    (h : path.IsChain (fun p q => Tree src dst log q p)) : ∀ p ∈ path.dropLast, p ∈ (used log).map dst := by
  induction path with
  | nil => exact nofun
  | cons p ps ih =>
    intro x hx
    cases ps with
    | nil => cases hx
    | cons q qs =>
      rw [List.isChain_cons_cons] at h
      rw [List.dropLast_cons_cons, List.mem_cons] at hx
      rcases hx with hx | hx
      · obtain ⟨e, he, -, hd⟩ := h.1
        rw [hx, ← hd]
        exact List.mem_map_of_mem (mem_used_of_tree he)
      · exact ih h.2 x hx

/-- The nodes of the graph hold all that the search meets. -/
structure Within (nodes : List ι) (edges : ι → List ε) (dst : ε → ι) (s : Search ι ε) : Prop where
  closed : ∀ n ∈ nodes, ∀ e ∈ edges n, dst e ∈ nodes
  met : ∀ n ∈ discovered s.log, n ∈ nodes

/-- A report that discovers nothing. -/
theorem Within.report {nodes : List ι} {edges : ι → List ε} {dst : ε → ι} {s : Search ι ε}
    (hw : Within nodes edges dst s) (color : ι → Color) (stack : List (Frame ι ε))
    {v : Visit ι ε} (hv : v.discovered? = none) : Within nodes edges dst ⟨color, stack, s.log ++ [v]⟩ := by
  refine ⟨hw.closed, fun x hx => hw.met x ?_⟩
  simpa [discovered, hv] using hx

section Machine

variable [DecidableEq ι] {edges : ι → List ε} {src dst : ε → ι} {s : Search ι ε} {path : List ι}

section Turn

variable {e : ε} {n : ι} {rest : List (Frame ι ε)}

theorem Search.step_white (hs : s.stack = .edge e :: rest) (hc : s.color (dst e) = .white) :
    s.step edges dst = Search.enter edges ⟨s.color, rest, s.log ++ [.tree e]⟩ (dst e) := by
  rw [Search.step, hs]
  simp only [hc]

theorem Search.step_gray (hs : s.stack = .edge e :: rest) (hc : s.color (dst e) = .gray) :
    s.step edges dst = ⟨s.color, rest, s.log ++ [.back e]⟩ := by
  rw [Search.step, hs]
  simp only [hc]

theorem Search.step_black (hs : s.stack = .edge e :: rest) (hc : s.color (dst e) = .black) :
    s.step edges dst = ⟨s.color, rest, s.log ++ [.cross e]⟩ := by
  rw [Search.step, hs]
  simp only [hc]

theorem Search.step_close (hs : s.stack = .close n :: rest) :
    s.step edges dst = ⟨Function.update s.color n .black, rest, s.log ++ [.finish n]⟩ := by
  rw [Search.step, hs]

end Turn

/-- One turn keeps the invariant. -/
theorem Inv.step (hsrc : ∀ n, ∀ e ∈ edges n, src e = n) (h : Inv edges src dst s path) :
    ∃ path', Inv edges src dst (s.step edges dst) path' := by
  cases hs : s.stack with
  | nil =>
    rw [Search.step, hs]
    exact ⟨path, h⟩
  | cons f rest =>
    cases f with
    | edge e =>
      cases hc : s.color (dst e) with
      | white =>
        rw [Search.step_white hs hc]
        exact ⟨_, h.enter_tree hsrc hs hc⟩
      | gray =>
        rw [Search.step_gray hs hc]
        exact ⟨path, h.pass hs (Or.inl ⟨rfl, (h.gray_iff _).mp hc⟩)⟩
      | black =>
        rw [Search.step_black hs hc]
        exact ⟨path, h.pass hs (Or.inr ⟨rfl, (h.black_iff _).mp hc⟩)⟩
    | close n =>
      obtain ⟨ps, -, hps⟩ := h.finish hs
      rw [Search.step_close hs]
      exact ⟨ps, hps⟩

variable {nodes : List ι}

/-- An edge on the stack is an edge of the graph. -/
theorem Inv.edge_mem (h : Inv edges src dst s path) (hw : Within nodes edges dst s) {e : ε}
    (he : e ∈ used s.log ∨ e ∈ pending s.stack) : ∃ n ∈ nodes, e ∈ edges n := by
  have hmem := h.passed.mem_iff.mp (List.mem_append.mpr he)
  obtain ⟨n, hn, hen⟩ := List.mem_flatMap.mp hmem
  exact ⟨n, hw.met n hn, hen⟩

theorem Within.enter (hw : Within nodes edges dst s) {n : ι} (hn : n ∈ nodes) :
    Within nodes edges dst (s.enter edges n) := by
  refine ⟨hw.closed, fun x hx => ?_⟩
  rw [Search.enter, discovered_append, List.mem_append] at hx
  rcases hx with hx | hx
  · exact hw.met x hx
  · have hxn : x = n := by simpa [discovered, Visit.discovered?] using hx
    rw [hxn]
    exact hn

theorem Within.step (h : Inv edges src dst s path) (hw : Within nodes edges dst s) :
    Within nodes edges dst (s.step edges dst) := by
  cases hs : s.stack with
  | nil =>
    rw [Search.step, hs]
    exact hw
  | cons f rest =>
    cases f with
    | edge e =>
      obtain ⟨n, hn, hen⟩ := h.edge_mem hw (e := e) (Or.inr (by rw [hs]; exact List.mem_cons_self))
      cases hc : s.color (dst e) with
      | white =>
        rw [Search.step_white hs hc]
        exact (hw.report s.color rest rfl).enter (hw.closed n hn e hen)
      | gray =>
        rw [Search.step_gray hs hc]
        exact hw.report _ _ rfl
      | black =>
        rw [Search.step_black hs hc]
        exact hw.report _ _ rfl
    | close n =>
      rw [Search.step_close hs]
      exact hw.report _ _ rfl

theorem log_step : ∃ l, (s.step edges dst).log = s.log ++ l := by
  cases hst : s.stack with
  | nil =>
    rw [Search.step, hst]
    exact ⟨[], (List.append_nil _).symm⟩
  | cons f rest =>
    cases f with
    | edge e =>
      cases hc : s.color (dst e) with
      | white =>
        rw [Search.step_white hst hc, Search.enter, List.append_assoc]
        exact ⟨_, rfl⟩
      | gray =>
        rw [Search.step_gray hst hc]
        exact ⟨_, rfl⟩
      | black =>
        rw [Search.step_black hst hc]
        exact ⟨_, rfl⟩
    | close n =>
      rw [Search.step_close hst]
      exact ⟨_, rfl⟩

theorem turns_step (hs : s.stack ≠ []) : turns (s.step edges dst).log = turns s.log + 1 := by
  cases hst : s.stack with
  | nil => exact absurd hst hs
  | cons f rest =>
    cases f with
    | edge e =>
      cases hc : s.color (dst e) with
      | white =>
        rw [Search.step_white hst hc, Search.enter, turns_append, turns_append]
        rfl
      | gray =>
        rw [Search.step_gray hst hc, turns_append]
        rfl
      | black =>
        rw [Search.step_black hst hc, turns_append]
        rfl
    | close n =>
      rw [Search.step_close hst, turns_append]
      rfl

theorem Inv.passed_le (h : Inv edges src dst s path) (hw : Within nodes edges dst s) :
    (used s.log).length + (pending s.stack).length ≤ (nodes.flatMap edges).length := by
  have hlen := h.passed.length_eq
  rw [List.length_append] at hlen
  rw [hlen]
  exact flatMap_length_le h.discNodup hw.met

theorem Inv.turns_le (h : Inv edges src dst s path) (hw : Within nodes edges dst s) :
    turns s.log ≤ (nodes.flatMap edges).length + nodes.length := by
  have hused := h.passed_le hw
  have hfin := (List.subperm_of_subset h.finNodup (fun x hx => hw.met x (h.finDisc x hx))).length_le
  rw [turns]
  omega

/-- How high the stack gets. -/
theorem Inv.stack_length_le (h : Inv edges src dst s path) (hw : Within nodes edges dst s) :
    s.stack.length ≤ (nodes.flatMap edges).length + 1 := by
  have hlen := length_onPath h.onPath
  have hused := h.passed_le hw
  have hnd := h.pathNodup.sublist (List.dropLast_sublist path)
  have hpath := (List.subperm_of_subset hnd (chain_reached h.chain)).length_le
  rw [List.length_dropLast, List.length_map] at hpath
  omega

/-- Before the first turn. -/
theorem Inv.start (edges : ι → List ε) (src dst : ε → ι) :
    Inv edges src dst ⟨fun _ => .white, [], []⟩ [] := by
  have hno : ∀ a b, ¬Tree src dst ([] : List (Visit ι ε)) a b := by
    intro a b ht
    obtain ⟨e, he, -⟩ := ht
    cases he
  refine ⟨.nil, fun _ => rfl, ?_, nofun, List.nodup_nil, List.nodup_nil, List.nodup_nil, List.isChain_nil,
    nofun, ?_, nofun, nofun, ?_, ?_, List.Perm.refl _⟩
  · intro x
    simp [discovered]
  · intro x y z hx
    exact absurd hx (hno x z)
  · intro e he
    exact he.elim nofun nofun
  · intro e he
    exact he.elim nofun nofun

/-- The search is over when no node is open and every node was discovered. -/
theorem Inv.complete (h : Inv edges src dst s []) (hw : Within nodes edges dst s) (hs : s.stack = [])
    (hnd : nodes.Nodup) (hall : ∀ n ∈ nodes, n ∈ discovered s.log) :
    Complete nodes edges src dst s.log := by
  have hdisc : (discovered s.log).Perm nodes :=
    (List.perm_ext_iff_of_nodup h.discNodup hnd).mpr (fun x => ⟨hw.met x, hall x⟩)
  have hfin : (finished s.log).Perm nodes := by
    refine (List.perm_ext_iff_of_nodup h.finNodup hnd).mpr (fun x => ⟨fun hx => hw.met x (h.finDisc x hx), fun hx => ?_⟩)
    by_contra hno
    exact List.not_mem_nil ((h.open_ x).mpr ⟨hall x hx, hno⟩)
  have hused : (used s.log).Perm (nodes.flatMap edges) := by
    have hp := h.passed
    rw [hs] at hp
    have hempty : pending ([] : List (Frame ι ε)) = [] := rfl
    rw [hempty, List.append_nil] at hp
    exact hp.trans (hdisc.flatMap_right edges)
  refine ⟨hdisc, hfin, hused, fun e he => ⟨h.back e, fun ha => ?_⟩, h.parent⟩
  rcases mem_used (hused.mem_iff.mpr he) with ht | hb | hc
  · exact absurd ha (h.forth e (Or.inl ht))
  · exact hb
  · exact absurd ha (h.forth e (Or.inr hc))

/-- Reverse finishing order is a topological order of the edges that are no back edges. -/
theorem Inv.topological (h : Inv edges src dst s []) (hc : Complete nodes edges src dst s.log) {a b : ι}
    (hk : Kept (nodes.flatMap edges) src dst s.log a b) :
    (finished s.log).reverse.idxOf a < (finished s.log).reverse.idxOf b := by
  obtain ⟨e, he, hback, rfl, rfl⟩ := hk
  have hforth : Visit.tree e ∈ s.log ∨ Visit.cross e ∈ s.log := by
    rcases mem_used (hc.used.mem_iff.mpr he) with ht | hb | hx
    · exact Or.inl ht
    · exact absurd hb hback
    · exact Or.inr hx
  have hknown := h.known e (hc.used.mem_iff.mpr he)
  have hsrc : src e ∈ finished s.log := hc.finished.mem_iff.mpr (hc.discovered.mem_iff.mp hknown.1)
  rcases h.ordered e hforth with ⟨hd, hlt⟩ | ⟨l1, l2, hnil, hd, -⟩
  · exact idxOf_reverse_lt h.finNodup hsrc hd (hlt hsrc)
  · rw [eq_comm, List.append_eq_nil_iff] at hnil
    rw [hnil.1] at hd
    cases hd

/-- Without the back edges the graph has no cycle. -/
theorem Inv.acyclic (h : Inv edges src dst s []) (hc : Complete nodes edges src dst s.log) (a : ι) :
    ¬Relation.TransGen (Kept (nodes.flatMap edges) src dst s.log) a a := by
  have hlt : ∀ b, Relation.TransGen (Kept (nodes.flatMap edges) src dst s.log) a b →
      (finished s.log).reverse.idxOf a < (finished s.log).reverse.idxOf b := by
    intro b hb
    induction hb with
    | single hk => exact h.topological hc hk
    | tail _ hk ih => exact ih.trans (h.topological hc hk)
  exact fun hcycle => lt_irrefl _ (hlt a hcycle)

end Machine

end Radare.Framework.DepthFirst
