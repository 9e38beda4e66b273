import Mathlib.Data.List.Chain
import Mathlib.Data.List.Nodup
import Mathlib.Data.List.Perm.Subperm
import Mathlib.Logic.Relation
import Mathlib.Logic.Function.Basic

namespace Radare.Framework.DepthFirst

inductive Color where
  | white
  | gray
  | black
  deriving DecidableEq

/-- What a search reports; an edge when it is taken from the stack. -/
inductive Visit (ι ε : Type) where
  | discover (n : ι)
  | finish (n : ι)
  | tree (e : ε)
  | back (e : ε)
  | cross (e : ε)
  deriving DecidableEq

/-- What waits on the stack: an edge to follow, or the end of a node. -/
inductive Frame (ι ε : Type) where
  | edge (e : ε)
  | close (n : ι)

structure Search (ι ε : Type) where
  color : ι → Color
  stack : List (Frame ι ε)
  log : List (Visit ι ε)

variable {ι ε : Type}

def Visit.discovered? : Visit ι ε → Option ι
  | .discover n => some n
  | _ => none

def Visit.finished? : Visit ι ε → Option ι
  | .finish n => some n
  | _ => none

def Visit.used? : Visit ι ε → Option ε
  | .tree e => some e
  | .back e => some e
  | .cross e => some e
  | _ => none

def discovered (log : List (Visit ι ε)) : List ι := log.filterMap Visit.discovered?

/-- The nodes in the order in which they are finished. -/
def finished (log : List (Visit ι ε)) : List ι := log.filterMap Visit.finished?

/-- The edges that were passed on, each as often as it was. -/
def used (log : List (Visit ι ε)) : List ε := log.filterMap Visit.used?

@[simp] theorem discovered_append (l k : List (Visit ι ε)) :
    discovered (l ++ k) = discovered l ++ discovered k := List.filterMap_append

@[simp] theorem finished_append (l k : List (Visit ι ε)) : finished (l ++ k) = finished l ++ finished k :=
  List.filterMap_append

@[simp] theorem used_append (l k : List (Visit ι ε)) : used (l ++ k) = used l ++ used k :=
  List.filterMap_append

def Frame.edge? : Frame ι ε → Option ε
  | .edge e => some e
  | .close _ => none

/-- The edges that wait on the stack. -/
def pending (stack : List (Frame ι ε)) : List ε := stack.filterMap Frame.edge?

section Forest

variable (src dst : ε → ι)

/-- The edges of the forest that the search builds. -/
def Tree (log : List (Visit ι ε)) (a b : ι) : Prop := ∃ e, Visit.tree e ∈ log ∧ src e = a ∧ dst e = b

/-- `a` is `b` or an ancestor of it. -/
def Anc (log : List (Visit ι ε)) : ι → ι → Prop := Relation.ReflTransGen (Tree src dst log)

/-- The stack over a path of open nodes, the deepest first: the edges that wait over the end of a
node are edges of this node. -/
inductive OnPath : List ι → List (Frame ι ε) → Prop where
  | nil : OnPath [] []
  | edge {e : ε} {ps : List ι} {st : List (Frame ι ε)} (h : OnPath (src e :: ps) st) :
    OnPath (src e :: ps) (.edge e :: st)
  | close {n : ι} {ps : List ι} {st : List (Frame ι ε)} (h : OnPath ps st) : OnPath (n :: ps) (.close n :: st)

variable {src dst} {log : List (Visit ι ε)}

theorem mem_used_of_tree {e : ε} (h : Visit.tree e ∈ log) : e ∈ used log :=
  List.mem_filterMap.mpr ⟨_, h, rfl⟩

theorem mem_used_of_cross {e : ε} (h : Visit.cross e ∈ log) : e ∈ used log :=
  List.mem_filterMap.mpr ⟨_, h, rfl⟩

theorem mem_used_of_back {e : ε} (h : Visit.back e ∈ log) : e ∈ used log :=
  List.mem_filterMap.mpr ⟨_, h, rfl⟩

/-- Reports that are no tree edges leave the forest as it is. -/
theorem tree_append_other {v : Visit ι ε} (hv : ∀ e, v ≠ .tree e) :
    Tree src dst (log ++ [v]) = Tree src dst log := by
  funext a b
  apply propext
  constructor
  · intro ht
    obtain ⟨e, he, hab⟩ := ht
    rw [List.mem_append, List.mem_singleton] at he
    exact ⟨e, he.resolve_right (fun hev => hv e hev.symm), hab⟩
  · intro ht
    obtain ⟨e, he, hab⟩ := ht
    exact ⟨e, List.mem_append_left _ he, hab⟩

theorem tree_append_tree (e : ε) (a b : ι) :
    Tree src dst (log ++ [.tree e]) a b ↔ Tree src dst log a b ∨ (src e = a ∧ dst e = b) := by
  constructor
  · intro ht
    obtain ⟨e', he, hab⟩ := ht
    rw [List.mem_append, List.mem_singleton] at he
    rcases he with he | he
    · exact Or.inl ⟨e', he, hab⟩
    · cases he
      exact Or.inr hab
  · intro ht
    rcases ht with ⟨e', he, hab⟩ | hab
    · exact ⟨e', List.mem_append_left _ he, hab⟩
    · exact ⟨e, List.mem_append_right _ (List.mem_singleton_self _), hab⟩

/-- A tree edge to a new node gives no old node a new ancestor. -/
theorem anc_append_tree (hknown : ∀ x y, Tree src dst log x y → x ∈ discovered log) {e : ε}
    (hnew : dst e ∉ discovered log) {a b : ι} (hb : b ∈ discovered log) :
    Anc src dst (log ++ [.tree e]) a b ↔ Anc src dst log a b := by
  constructor
  · intro ha
    induction ha with
    | refl => exact Relation.ReflTransGen.refl
    | tail hay hyz ih =>
      rcases (tree_append_tree e _ _).mp hyz with ht | ⟨-, hd⟩
      · exact (ih (hknown _ _ ht)).tail ht
      · rw [hd] at hnew
        exact absurd hb hnew
  · intro ha
    exact Relation.ReflTransGen.mono (fun x y ht => (tree_append_tree e x y).mpr (Or.inl ht)) _ _ ha

theorem pending_append (l k : List (Frame ι ε)) : pending (l ++ k) = pending l ++ pending k :=
  List.filterMap_append

theorem pending_edges (es : List ε) : pending (es.map (Frame.edge (ι := ι))) = es := by
  induction es with
  | nil => rfl
  | cons e es ih => exact congrArg (e :: ·) ih

theorem onPath_edges (n : ι) {ps : List ι} {st : List (Frame ι ε)} (h : OnPath src (n :: ps) st)
    (es : List ε) (hes : ∀ e ∈ es, src e = n) : OnPath src (n :: ps) (es.map .edge ++ st) := by
  induction es with
  | nil => exact h
  | cons e es ih =>
    have he := hes e List.mem_cons_self
    have hrec := ih (fun e' he' => hes e' (List.mem_cons_of_mem _ he'))
    rw [List.map_cons, List.cons_append]
    rw [← he] at hrec ⊢
    exact .edge hrec

theorem nodup_snoc {l : List ι} {n : ι} (h : l.Nodup) (hn : n ∉ l) : (l ++ [n]).Nodup := by
  refine List.nodup_append.mpr ⟨h, List.nodup_singleton n, ?_⟩
  intro a ha b hb hab
  rw [List.mem_singleton] at hb
  rw [hab, hb] at ha
  exact hn ha

/-- The open nodes after one more is discovered. -/
theorem open_enter {path fin disc : List ι} (ho : ∀ x, x ∈ path ↔ x ∈ disc ∧ x ∉ fin) {n : ι} (hn : n ∉ fin)
    (x : ι) : x ∈ n :: path ↔ x ∈ disc ++ [n] ∧ x ∉ fin := by
  rw [List.mem_cons, List.mem_append, List.mem_singleton, ho x]
  constructor
  · intro hx
    rcases hx with hx | hx
    · rw [hx]
      exact ⟨Or.inr rfl, hn⟩
    · exact ⟨Or.inl hx.1, hx.2⟩
  · intro hx
    rcases hx.1 with hd | hd
    · exact Or.inr ⟨hd, hx.2⟩
    · exact Or.inl hd

end Forest

section Machine

variable [DecidableEq ι] (edges : ι → List ε) (src dst : ε → ι)

/-- A node is discovered: its end goes on the stack, and its edges over it. -/
def Search.enter (s : Search ι ε) (n : ι) : Search ι ε :=
  { color := Function.update s.color n .gray
    stack := (edges n).reverse.map .edge ++ .close n :: s.stack
    log := s.log ++ [.discover n] }

/-- One turn: the top of the stack is taken off and looked at. -/
def Search.step (s : Search ι ε) : Search ι ε :=
  match s.stack with
  | [] => s
  | .edge e :: rest =>
    match s.color (dst e) with
    | .white => Search.enter edges ⟨s.color, rest, s.log ++ [.tree e]⟩ (dst e)
    | .gray => ⟨s.color, rest, s.log ++ [.back e]⟩
    | .black => ⟨s.color, rest, s.log ++ [.cross e]⟩
  | .close n :: rest => ⟨Function.update s.color n .black, rest, s.log ++ [.finish n]⟩

/-- `v` is finished before `u` is, or will be as things stand. -/
def Before (fin path : List ι) (v u : ι) : Prop :=
  (v ∈ fin ∧ (u ∈ fin → fin.idxOf v < fin.idxOf u)) ∨ ∃ l1 l2, path = l1 ++ l2 ∧ v ∈ l1 ∧ u ∈ l2

/-- What holds between two turns, `path` being the open nodes. -/
structure Inv (s : Search ι ε) (path : List ι) : Prop where
  onPath : OnPath src path s.stack
  color : ∀ x, s.color x =
    if x ∈ finished s.log then .black else if x ∈ discovered s.log then .gray else .white
  open_ : ∀ x, x ∈ path ↔ x ∈ discovered s.log ∧ x ∉ finished s.log
  finDisc : ∀ x ∈ finished s.log, x ∈ discovered s.log
  discNodup : (discovered s.log).Nodup
  finNodup : (finished s.log).Nodup
  pathNodup : path.Nodup
  chain : path.IsChain (fun p q => Tree src dst s.log q p)
  root : ∀ r, path.getLast? = some r → ∀ x, ¬Tree src dst s.log x r
  parent : ∀ x y z, Tree src dst s.log x z → Tree src dst s.log y z → x = y
  known : ∀ e ∈ used s.log, src e ∈ discovered s.log ∧ dst e ∈ discovered s.log
  back : ∀ e, .back e ∈ s.log → Anc src dst s.log (dst e) (src e)
  forth : ∀ e, .tree e ∈ s.log ∨ .cross e ∈ s.log → ¬Anc src dst s.log (dst e) (src e)
  ordered : ∀ e, .tree e ∈ s.log ∨ .cross e ∈ s.log → Before (finished s.log) path (dst e) (src e)
  passed : (used s.log ++ pending s.stack).Perm ((discovered s.log).flatMap edges)

variable {edges src dst} {s : Search ι ε} {path : List ι}

theorem Inv.tree_known (h : Inv edges src dst s path) {x y : ι} (ht : Tree src dst s.log x y) :
    x ∈ discovered s.log ∧ y ∈ discovered s.log := by
  obtain ⟨e, he, rfl, rfl⟩ := ht
  exact h.known e (mem_used_of_tree he)

/-- The ancestors of the deepest open node are the open nodes. -/
theorem Inv.anc_iff_mem (h : Inv edges src dst s path) {p : ι} {ps : List ι} (hp : path = p :: ps) (x : ι) :
    Anc src dst s.log x p ↔ x ∈ path := by
  have hchain := h.chain
  have hroot := h.root
  rw [hp] at hchain hroot ⊢
  clear hp
  induction ps generalizing p with
  | nil =>
    rw [List.mem_singleton]
    constructor
    · intro ha
      rcases Relation.ReflTransGen.cases_tail ha with he | ⟨y, -, hy⟩
      · exact he.symm
      · exact absurd hy (hroot p rfl y)
    · intro he
      rw [he]
      exact Relation.ReflTransGen.refl
  | cons q qs ih =>
    rw [List.isChain_cons_cons] at hchain
    have hrec := ih hchain.2 (fun r hr => hroot r (by rw [List.getLast?_cons_cons]; exact hr))
    rw [List.mem_cons]
    constructor
    · intro ha
      rcases Relation.ReflTransGen.cases_tail ha with he | ⟨y, hay, hy⟩
      · exact Or.inl he.symm
      · have hyq : y = q := h.parent y q p hy hchain.1
        rw [hyq] at hay
        exact Or.inr (hrec.mp hay)
    · intro hx
      rcases hx with he | hx
      · rw [he]
        exact Relation.ReflTransGen.refl
      · exact (hrec.mpr hx).tail hchain.1

theorem Before.push {fin : List ι} {v u : ι} (h : Before fin path v u) (n : ι) : Before fin (n :: path) v u := by
  rcases h with h | ⟨l1, l2, he, hv, hu⟩
  · exact Or.inl h
  · exact Or.inr ⟨n :: l1, l2, by rw [he, List.cons_append], List.mem_cons_of_mem _ hv, hu⟩

/-- The deepest open node is finished. -/
theorem Before.close {fin : List ι} {n v u : ι} (h : Before fin (n :: path) v u)
    (hnd : (n :: path).Nodup) (hopen : ∀ x ∈ path, x ∉ fin) : Before (fin ++ [n]) path v u := by
  rcases h with ⟨hv, hlt⟩ | ⟨l1, l2, he, hv, hu⟩
  · refine Or.inl ⟨List.mem_append_left _ hv, fun hu => ?_⟩
    rw [List.idxOf_append_of_mem hv]
    by_cases hmem : u ∈ fin
    · rw [List.idxOf_append_of_mem hmem]
      exact hlt hmem
    · rw [List.idxOf_append_of_notMem hmem]
      have hidx := List.idxOf_lt_length_of_mem hv
      omega
  · cases l1 with
    | nil => cases hv
    | cons a l1 =>
      rw [List.cons_append, List.cons.injEq] at he
      obtain ⟨rfl, hpath⟩ := he
      have hup : u ∈ path := by
        rw [hpath]
        exact List.mem_append_right _ hu
      by_cases hvn : v = n
      · refine Or.inl ⟨by rw [hvn]; exact List.mem_append_right _ (List.mem_singleton_self _), fun hmem => ?_⟩
        rw [List.mem_append, List.mem_singleton] at hmem
        rcases hmem with hmem | hmem
        · exact absurd hmem (hopen u hup)
        · rw [hmem] at hup
          exact absurd hup (List.nodup_cons.mp hnd).1
      · exact Or.inr ⟨l1, l2, hpath, (List.mem_cons.mp hv).resolve_left hvn, hu⟩

/-- The colours after a node is discovered. -/
theorem color_enter {fin disc : List ι} {color : ι → Color}
    (hc : ∀ x, color x = if x ∈ fin then .black else if x ∈ disc then .gray else .white) {n : ι}
    (hn : n ∉ fin) (x : ι) : Function.update color n .gray x =
      if x ∈ fin then .black else if x ∈ disc ++ [n] then .gray else .white := by
  by_cases hx : x = n
  · rw [hx, Function.update_self, if_neg hn, if_pos (List.mem_append_right _ (List.mem_singleton_self _))]
  · rw [Function.update_of_ne hx, hc x]
    simp only [List.mem_append, List.mem_singleton, hx, or_false]

theorem Inv.white_iff (h : Inv edges src dst s path) (x : ι) :
    s.color x = .white ↔ x ∉ discovered s.log := by
  rw [h.color x]
  split_ifs with hf hd
  · simp [h.finDisc x hf]
  · simp [hd]
  · simp [hd]

theorem Inv.gray_iff (h : Inv edges src dst s path) (x : ι) : s.color x = .gray ↔ x ∈ path := by
  rw [h.color x, h.open_ x]
  split_ifs with hf hd
  · simp [hf]
  · simp [hf, hd]
  · simp [hd]

theorem Inv.black_iff (h : Inv edges src dst s path) (x : ι) :
    s.color x = .black ↔ x ∈ finished s.log := by
  rw [h.color x]
  split_ifs with hf hd
  · simp [hf]
  · simp [hf]
  · simp [hf]

/-- The first node of a search. -/
theorem Inv.enter_root (hsrc : ∀ n, ∀ e ∈ edges n, src e = n) (h : Inv edges src dst s []) {n : ι}
    (hs : s.stack = []) (hn : n ∉ discovered s.log) : Inv edges src dst (s.enter edges n) [n] := by
  have hfin : n ∉ finished s.log := fun hf => hn (h.finDisc n hf)
  have htree : Tree src dst (s.log ++ [.discover n]) = Tree src dst s.log := tree_append_other nofun
  have hold : ∀ {v : Visit ι ε}, v ∈ s.log ++ [.discover n] → (∀ m, v ≠ .discover m) → v ∈ s.log := by
    intro v hv hne
    rw [List.mem_append, List.mem_singleton] at hv
    exact hv.resolve_right (hne n)
  have hd : discovered (s.log ++ [.discover n]) = discovered s.log ++ [n] := discovered_append _ _
  have hf : finished (s.log ++ [.discover n]) = finished s.log := by
    rw [finished_append]
    exact List.append_nil _
  have hu : used (s.log ++ [.discover n]) = used s.log := by
    rw [used_append]
    exact List.append_nil _
  refine ⟨?_, ?_, ?_, ?_, ?_, ?_, List.nodup_singleton n, List.isChain_singleton n, ?_, ?_, ?_, ?_, ?_, ?_, ?_⟩
  · refine onPath_edges n ?_ _ (fun e he => hsrc n e (List.mem_reverse.mp he))
    rw [hs]
    exact .close .nil
  · intro x
    show Function.update s.color n .gray x = _
    rw [Search.enter, hd, hf]
    exact color_enter h.color hfin x
  · intro x
    rw [Search.enter, hd, hf]
    exact open_enter h.open_ hfin x
  · intro x hx
    rw [Search.enter, hf] at hx
    rw [Search.enter, hd]
    exact List.mem_append_left _ (h.finDisc x hx)
  · rw [Search.enter, hd]
    exact nodup_snoc h.discNodup hn
  · rw [Search.enter, hf]
    exact h.finNodup
  · intro r hr x ht
    rw [Search.enter, htree] at ht
    rw [List.getLast?_singleton, Option.some.injEq] at hr
    rw [← hr] at ht
    exact hn (h.tree_known ht).2
  · rw [Search.enter, htree]
    exact h.parent
  · intro e he
    rw [Search.enter, hu] at he
    rw [Search.enter, hd]
    exact ⟨List.mem_append_left _ (h.known e he).1, List.mem_append_left _ (h.known e he).2⟩
  · intro e he
    rw [Search.enter, Anc, htree]
    exact h.back e (hold he nofun)
  · intro e he
    rw [Search.enter, Anc, htree]
    exact h.forth e (he.imp (fun ht => hold ht nofun) (fun hc => hold hc nofun))
  · intro e he
    rw [Search.enter, hf]
    exact (h.ordered e (he.imp (fun ht => hold ht nofun) (fun hc => hold hc nofun))).push n
  · have hp := h.passed
    rw [hs] at hp
    rw [Search.enter, hd, hu, hs, pending_append, pending_edges, List.flatMap_append, List.flatMap_singleton]
    have hempty : pending ([] : List (Frame ι ε)) = [] := rfl
    have hclose : pending [(.close n : Frame ι ε)] = [] := rfl
    rw [hempty, List.append_nil] at hp
    rw [hclose, List.append_nil]
    exact hp.append (List.reverse_perm _)

/-- A tree edge: the node it leads to is discovered. -/
theorem Inv.enter_tree (hsrc : ∀ n, ∀ e ∈ edges n, src e = n) (h : Inv edges src dst s path) {e : ε}
    {rest : List (Frame ι ε)} (hs : s.stack = .edge e :: rest) (hw : s.color (dst e) = .white) :
    Inv edges src dst (Search.enter edges ⟨s.color, rest, s.log ++ [.tree e]⟩ (dst e)) (dst e :: path) := by
  have hn : dst e ∉ discovered s.log := (h.white_iff _).mp hw
  have hfin : dst e ∉ finished s.log := fun hf => hn (h.finDisc _ hf)
  have hpath : dst e ∉ path := fun hm => hn ((h.open_ _).mp hm).1
  obtain ⟨ps, hps, hrest⟩ : ∃ ps, path = src e :: ps ∧ OnPath src path rest := by
    have hon := h.onPath
    rw [hs] at hon
    cases hon with
    | edge hst => exact ⟨_, rfl, hst⟩
  have hsrcPath : src e ∈ path := by
    rw [hps]
    exact List.mem_cons_self
  have hsrcDisc : src e ∈ discovered s.log := ((h.open_ _).mp hsrcPath).1
  let log := s.log ++ [.tree e] ++ [.discover (dst e)]
  have hforest : ∀ a b, Tree src dst log a b ↔ Tree src dst s.log a b ∨ (src e = a ∧ dst e = b) := by
    intro a b
    rw [show Tree src dst log = Tree src dst (s.log ++ [.tree e]) from tree_append_other nofun]
    exact tree_append_tree e a b
  have hanc : ∀ a b, b ∈ discovered s.log → (Anc src dst log a b ↔ Anc src dst s.log a b) := by
    intro a b hb
    rw [Anc, show Tree src dst log = Tree src dst (s.log ++ [.tree e]) from tree_append_other nofun]
    exact anc_append_tree (fun x y ht => (h.tree_known ht).1) hn hb
  have hold : ∀ {v : Visit ι ε}, v ∈ log → v ≠ .tree e → (∀ m, v ≠ .discover m) → v ∈ s.log := by
    intro v hv hne hne'
    rw [List.mem_append, List.mem_singleton, List.mem_append, List.mem_singleton] at hv
    exact (hv.resolve_right (hne' _)).resolve_right hne
  have hd : discovered log = discovered s.log ++ [dst e] := by
    rw [discovered_append, discovered_append]
    exact congrArg (· ++ [dst e]) (List.append_nil _)
  have hf : finished log = finished s.log := by
    rw [finished_append, finished_append]
    exact (List.append_nil _).trans (List.append_nil _)
  have hu : used log = used s.log ++ [e] := by
    rw [used_append, used_append]
    exact List.append_nil _
  show Inv edges src dst ⟨Function.update s.color (dst e) .gray,
    (edges (dst e)).reverse.map .edge ++ .close (dst e) :: rest, log⟩ (dst e :: path)
  refine ⟨?_, ?_, ?_, ?_, ?_, ?_, ?_, ?_, ?_, ?_, ?_, ?_, ?_, ?_, ?_⟩
  · exact onPath_edges (dst e) (.close hrest) _ (fun e' he => hsrc _ e' (List.mem_reverse.mp he))
  · intro x
    simp only [hd, hf]
    exact color_enter h.color hfin x
  · intro x
    simp only [hd, hf]
    exact open_enter h.open_ hfin x
  · intro x hx
    simp only [hf] at hx
    simp only [hd]
    exact List.mem_append_left _ (h.finDisc x hx)
  · simp only [hd]
    exact nodup_snoc h.discNodup hn
  · simp only [hf]
    exact h.finNodup
  · exact List.nodup_cons.mpr ⟨hpath, h.pathNodup⟩
  · have hchain := h.chain.imp (fun a b hab => (hforest b a).mpr (Or.inl hab))
    rw [hps] at hchain ⊢
    exact List.isChain_cons_cons.mpr ⟨(hforest _ _).mpr (Or.inr ⟨rfl, rfl⟩), hchain⟩
  · intro r hr x ht
    have hr' : path.getLast? = some r := by
      rw [hps] at hr ⊢
      rwa [List.getLast?_cons_cons] at hr
    rcases (hforest x r).mp ht with ht | ⟨-, hdr⟩
    · exact h.root r hr' x ht
    · rw [← hdr] at hr'
      exact hpath (List.mem_of_getLast? hr')
  · intro x y z hx hy
    rcases (hforest x z).mp hx with hx | ⟨hsx, hdx⟩
    · rcases (hforest y z).mp hy with hy | ⟨-, hdy⟩
      · exact h.parent x y z hx hy
      · rw [← hdy] at hx
        exact absurd (h.tree_known hx).2 hn
    · rcases (hforest y z).mp hy with hy | ⟨hsy, -⟩
      · rw [← hdx] at hy
        exact absurd (h.tree_known hy).2 hn
      · exact hsx.symm.trans hsy
  · intro e' he
    simp only [hu, List.mem_append, List.mem_singleton] at he
    simp only [hd]
    rcases he with he | he
    · exact ⟨List.mem_append_left _ (h.known e' he).1, List.mem_append_left _ (h.known e' he).2⟩
    · rw [he]
      exact ⟨List.mem_append_left _ hsrcDisc, List.mem_append_right _ (List.mem_singleton_self _)⟩
  · intro e' he
    have hmem := hold he nofun nofun
    exact (hanc _ _ (h.known e' (mem_used_of_back hmem)).1).mpr (h.back e' hmem)
  · intro e' he
    by_cases hee : e' = e
    · rw [hee, hanc _ _ hsrcDisc, h.anc_iff_mem hps]
      exact hpath
    · have hmem : .tree e' ∈ s.log ∨ .cross e' ∈ s.log :=
        he.imp (fun ht => hold ht (fun heq => hee (Visit.tree.inj heq)) nofun) (fun hc => hold hc nofun nofun)
      have hk := h.known e' (hmem.elim mem_used_of_tree mem_used_of_cross)
      rw [hanc _ _ hk.1]
      exact h.forth e' hmem
  · intro e' he
    simp only [hf]
    by_cases hee : e' = e
    · rw [hee]
      exact Or.inr ⟨[dst e], path, rfl, List.mem_singleton_self _, hsrcPath⟩
    · have hmem : .tree e' ∈ s.log ∨ .cross e' ∈ s.log :=
        he.imp (fun ht => hold ht (fun heq => hee (Visit.tree.inj heq)) nofun) (fun hc => hold hc nofun nofun)
      exact (h.ordered e' hmem).push _
  · have hp := h.passed
    rw [hs] at hp
    have hpe : pending (.edge e :: rest) = e :: pending rest := rfl
    have hpc : pending (.close (dst e) :: rest) = pending rest := rfl
    rw [hpe] at hp
    simp only [hd, hu, pending_append, pending_edges, hpc, List.flatMap_append, List.flatMap_singleton]
    have h1 : (used s.log ++ [e] ++ ((edges (dst e)).reverse ++ pending rest)).Perm
        ((used s.log ++ e :: pending rest) ++ (edges (dst e)).reverse) := by
      rw [List.append_assoc, List.append_assoc]
      refine List.Perm.append_left _ ?_
      rw [List.singleton_append, List.cons_append]
      exact List.perm_append_comm.cons e
    exact h1.trans (hp.append (List.reverse_perm _))

/-- An edge to a node that is open, or finished. -/
theorem Inv.pass (h : Inv edges src dst s path) {e : ε} {rest : List (Frame ι ε)}
    (hs : s.stack = .edge e :: rest) {v : Visit ι ε}
    (hv : v = .back e ∧ dst e ∈ path ∨ v = .cross e ∧ dst e ∈ finished s.log) :
    Inv edges src dst ⟨s.color, rest, s.log ++ [v]⟩ path := by
  obtain ⟨ps, hps, hrest⟩ : ∃ ps, path = src e :: ps ∧ OnPath src path rest := by
    have hon := h.onPath
    rw [hs] at hon
    cases hon with
    | edge hst => exact ⟨_, rfl, hst⟩
  have hsrcPath : src e ∈ path := by
    rw [hps]
    exact List.mem_cons_self
  have hanc := h.anc_iff_mem hps (dst e)
  have hsrcOpen := (h.open_ _).mp hsrcPath
  have hdstDisc : dst e ∈ discovered s.log := by
    rcases hv with ⟨-, hm⟩ | ⟨-, hm⟩
    · exact ((h.open_ _).mp hm).1
    · exact h.finDisc _ hm
  have hforest : Tree src dst (s.log ++ [v]) = Tree src dst s.log := by
    apply tree_append_other
    intro e' he
    rcases hv with ⟨hv, -⟩ | ⟨hv, -⟩
    · rw [hv] at he
      cases he
    · rw [hv] at he
      cases he
  have hd : discovered (s.log ++ [v]) = discovered s.log := by
    rw [discovered_append]
    rcases hv with ⟨hv, -⟩ | ⟨hv, -⟩
    · rw [hv]
      exact List.append_nil _
    · rw [hv]
      exact List.append_nil _
  have hf : finished (s.log ++ [v]) = finished s.log := by
    rw [finished_append]
    rcases hv with ⟨hv, -⟩ | ⟨hv, -⟩
    · rw [hv]
      exact List.append_nil _
    · rw [hv]
      exact List.append_nil _
  have hu : used (s.log ++ [v]) = used s.log ++ [e] := by
    rw [used_append]
    rcases hv with ⟨hv, -⟩ | ⟨hv, -⟩
    · rw [hv]
      rfl
    · rw [hv]
      rfl
  refine ⟨hrest, ?_, ?_, ?_, ?_, ?_, h.pathNodup, ?_, ?_, ?_, ?_, ?_, ?_, ?_, ?_⟩
  · simp only [hd, hf]
    exact h.color
  · simp only [hd, hf]
    exact h.open_
  · simp only [hd, hf]
    exact h.finDisc
  · simp only [hd]
    exact h.discNodup
  · simp only [hf]
    exact h.finNodup
  · simp only [hforest]
    exact h.chain
  · simp only [hforest]
    exact h.root
  · simp only [hforest]
    exact h.parent
  · intro e' he
    simp only [hu, List.mem_append, List.mem_singleton] at he
    simp only [hd]
    rcases he with he | he
    · exact h.known e' he
    · rw [he]
      exact ⟨hsrcOpen.1, hdstDisc⟩
  · intro e' he
    simp only [List.mem_append, List.mem_singleton] at he
    simp only [Anc, hforest]
    rcases he with he | he
    · exact h.back e' he
    · rcases hv with ⟨hv, hm⟩ | ⟨hv, -⟩
      · rw [hv] at he
        cases he
        exact hanc.mpr hm
      · rw [hv] at he
        cases he
  · intro e' he
    simp only [List.mem_append, List.mem_singleton] at he
    simp only [Anc, hforest]
    rcases he with (he | he) | (he | he)
    · exact h.forth e' (Or.inl he)
    · rcases hv with ⟨hv, -⟩ | ⟨hv, -⟩
      · rw [hv] at he
        cases he
      · rw [hv] at he
        cases he
    · exact h.forth e' (Or.inr he)
    · rcases hv with ⟨hv, -⟩ | ⟨hv, hm⟩
      · rw [hv] at he
        cases he
      · rw [hv] at he
        cases he
        intro ha
        exact ((h.open_ _).mp (hanc.mp ha)).2 hm
  · intro e' he
    simp only [List.mem_append, List.mem_singleton] at he
    simp only [hf]
    rcases he with (he | he) | (he | he)
    · exact h.ordered e' (Or.inl he)
    · rcases hv with ⟨hv, -⟩ | ⟨hv, -⟩
      · rw [hv] at he
        cases he
      · rw [hv] at he
        cases he
    · exact h.ordered e' (Or.inr he)
    · rcases hv with ⟨hv, -⟩ | ⟨hv, hm⟩
      · rw [hv] at he
        cases he
      · rw [hv] at he
        cases he
        exact Or.inl ⟨hm, fun hf' => absurd hf' hsrcOpen.2⟩
  · have hp := h.passed
    rw [hs] at hp
    simp only [hd, hu]
    rw [List.append_assoc]
    exact hp

/-- The deepest open node is finished. -/
theorem Inv.finish (h : Inv edges src dst s path) {n : ι} {rest : List (Frame ι ε)}
    (hs : s.stack = .close n :: rest) : ∃ ps, path = n :: ps ∧
      Inv edges src dst ⟨Function.update s.color n .black, rest, s.log ++ [.finish n]⟩ ps := by
  obtain ⟨ps, hps, hrest⟩ : ∃ ps, path = n :: ps ∧ OnPath src ps rest := by
    have hon := h.onPath
    rw [hs] at hon
    cases hon with
    | close hst => exact ⟨_, rfl, hst⟩
  refine ⟨ps, hps, ?_⟩
  have hnd := h.pathNodup
  have hopenp := h.open_
  have hordered := h.ordered
  have hchain := h.chain
  have hroot := h.root
  rw [hps] at hnd hopenp hordered hchain hroot
  have hn := (hopenp n).mp List.mem_cons_self
  have hforest : Tree src dst (s.log ++ [.finish n]) = Tree src dst s.log := tree_append_other nofun
  have hd : discovered (s.log ++ [.finish n]) = discovered s.log := by
    rw [discovered_append]
    exact List.append_nil _
  have hf : finished (s.log ++ [.finish n]) = finished s.log ++ [n] := finished_append _ _
  have hu : used (s.log ++ [.finish n]) = used s.log := by
    rw [used_append]
    exact List.append_nil _
  have hold : ∀ {v : Visit ι ε}, v ∈ s.log ++ [.finish n] → (∀ m, v ≠ .finish m) → v ∈ s.log := by
    intro v hv hne
    rw [List.mem_append, List.mem_singleton] at hv
    exact hv.resolve_right (hne n)
  refine ⟨hrest, ?_, ?_, ?_, ?_, ?_, (List.nodup_cons.mp hnd).2, ?_, ?_, ?_, ?_, ?_, ?_, ?_, ?_⟩
  · intro x
    simp only [hd, hf, List.mem_append, List.mem_singleton]
    by_cases hx : x = n
    · rw [hx, Function.update_self, if_pos (Or.inr rfl)]
    · rw [Function.update_of_ne hx, h.color x]
      simp only [hx, or_false]
  · intro x
    simp only [hd, hf, List.mem_append, List.mem_singleton, not_or]
    constructor
    · intro hx
      have hop := (hopenp x).mp (List.mem_cons_of_mem _ hx)
      refine ⟨hop.1, hop.2, ?_⟩
      intro he
      rw [he] at hx
      exact (List.nodup_cons.mp hnd).1 hx
    · intro hx
      exact (List.mem_cons.mp ((hopenp x).mpr ⟨hx.1, hx.2.1⟩)).resolve_left hx.2.2
  · intro x hx
    simp only [hf, List.mem_append, List.mem_singleton] at hx
    simp only [hd]
    rcases hx with hx | hx
    · exact h.finDisc x hx
    · rw [hx]
      exact hn.1
  · simp only [hd]
    exact h.discNodup
  · simp only [hf]
    exact nodup_snoc h.finNodup hn.2
  · simp only [hforest]
    exact hchain.tail
  · simp only [hforest]
    intro r hr
    cases ps with
    | nil => cases hr
    | cons q qs => exact hroot r (by rw [List.getLast?_cons_cons]; exact hr)
  · simp only [hforest]
    exact h.parent
  · simp only [hu, hd]
    exact h.known
  · intro e he
    simp only [Anc, hforest]
    exact h.back e (hold he nofun)
  · intro e he
    simp only [Anc, hforest]
    exact h.forth e (he.imp (fun ht => hold ht nofun) (fun hc => hold hc nofun))
  · intro e he
    simp only [hf]
    refine (hordered e (he.imp (fun ht => hold ht nofun) (fun hc => hold hc nofun))).close hnd ?_
    intro x hx
    exact ((hopenp x).mp (List.mem_cons_of_mem _ hx)).2
  · have hp := h.passed
    rw [hs] at hp
    simp only [hd, hu]
    exact hp

end Machine

end Radare.Framework.DepthFirst
