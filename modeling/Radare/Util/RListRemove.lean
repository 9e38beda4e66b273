import Radare.Util.RListOps

namespace Radare

open Framework

variable {α β : Type} {h : ListMem α} {l : RList} {xs : List (Nat × α)}

/-- A list with nothing behind its tail, split at a node. -/
structure SplitAt (h : ListMem α) (l : RList) (l1 : List (Nat × α)) (x : Nat × α)
    (r1 : List (Nat × α)) : Prop where
  node : h.cells x.1 = some ⟨some x.2, firstPtr r1 none, lastPtr l1 none⟩
  before : ∀ b, lastPtr l1 none = some b → (h.cells b).isSome
  after : ∀ b, firstPtr r1 none = some b → (h.cells b).isSome
  notBefore : x.1 ∉ addrs l1
  notAfter : x.1 ∉ addrs r1
  head : l.head = firstPtr l1 (some x.1)
  tail : l.tail = lastPtr r1 (some x.1)

theorem ListAt.splitAt {l1 r1 : List (Nat × α)} {x : Nat × α} (hl : ListAt h l (l1 ++ x :: r1) []) :
    SplitAt h l l1 x r1 := by
  obtain ⟨hlink, hnd, hhead, htail, _⟩ := hl
  rw [List.append_nil] at hlink hnd hhead
  have hsome : ∀ b ∈ addrs (l1 ++ x :: r1), (h.cells b).isSome := fun b hb => hlink.isSome hb
  rw [linked_append, linked_cons] at hlink
  rw [addrs_append, addrs_cons, List.nodup_append, List.nodup_cons] at hnd
  rw [firstPtr_append, firstPtr_cons] at hhead
  rw [lastPtr_append, lastPtr_cons] at htail
  refine ⟨hlink.2.1, ?_, ?_, ?_, hnd.2.1.1, hhead, htail⟩
  · intro b hb
    exact hsome b (by rw [addrs_append]; exact List.mem_append_left _ (lastPtr_mem hb))
  · intro b hb
    refine hsome b ?_
    rw [addrs_append, addrs_cons]
    exact List.mem_append_right _ (List.mem_cons_of_mem _ (firstPtr_mem hb))
  · intro hin
    exact hnd.2.2 x.1 hin x.1 List.mem_cons_self rfl

theorem free_eq {c : Cells α} {a : Nat} (hs : (c a).isSome) (n : Nat) :
    ListMem.free ⟨c, n⟩ a = some ⟨Function.update c a none, n⟩ := if_pos hs

theorem setPrevIf_isSome {c : Cells α} {a : Option Nat} {b : Nat} {v : Option Nat} :
    (setPrevIf c a v b).isSome = (c b).isSome := by
  cases a with
  | none => rfl
  | some a => exact setPrev_isSome

theorem firstPtr_eq_some_iff_of_notMem {l1 : List (Nat × α)} {a : Nat} (ha : a ∉ addrs l1) :
    firstPtr l1 (some a) = some a ↔ l1 = [] := by
  cases l1 with
  | nil => simp
  | cons y ys =>
    simp only [firstPtr_cons, Option.some.injEq, reduceCtorEq, iff_false]
    intro he
    exact ha (by simp [he])

theorem lastPtr_eq_some_iff_of_notMem {r1 : List (Nat × α)} {a : Nat} (ha : a ∉ addrs r1) :
    lastPtr r1 (some a) = some a ↔ r1 = [] := by
  rcases List.eq_nil_or_concat r1 with rfl | ⟨m, y, rfl⟩
  · simp
  · rw [List.concat_eq_append] at ha ⊢
    simp only [lastPtr_append, lastPtr_cons, lastPtr_nil, Option.some.injEq, List.append_eq_nil_iff,
      reduceCtorEq, and_false, iff_false]
    intro he
    exact ha (by simp [he])

theorem pop_turns (hl : ListAt h l xs []) (hne : xs ≠ []) :
    ∃ r, rListPop h l = some r ∧ ∃ xs', Turns h l xs [] r xs' [] := by
  rcases List.eq_nil_or_concat xs with rfl | ⟨l1, x, rfl⟩
  · exact absurd rfl hne
  rw [List.concat_eq_append] at hl ⊢
  have hs := hl.splitAt
  have htail : l.tail = some x.1 := hs.tail
  cases l1 with
  | nil =>
    have hhead : l.head = some x.1 := hs.head
    have hpop : rListPop h l = some ⟨⟨Function.update h.cells x.1 none, h.fresh⟩,
        { l with head := none, tail := none, length := l.length - 1 }, some x.2⟩ := by
      rw [rListPop, htail]
      simp only [hs.node, Option.bind_eq_bind, Option.bind_some, hhead, if_true, ListMem.free,
        Option.isSome_some]
    exact ⟨_, hpop, [], remove_turns hl rfl rfl rfl rfl rfl⟩
  | cons y ys =>
    have hhead : l.head = some y.1 := hs.head
    have hyx : ¬ some y.1 = some x.1 := by
      intro he
      exact hs.notBefore (by simp [Option.some.inj he])
    obtain ⟨t, ht⟩ := Option.ne_none_iff_exists'.mp (lastPtr_cons_ne_none y ys none)
    have hnode := hs.node
    rw [ht] at hnode
    have hstore := storeNext_eq (v := none) (hs.before t ht)
    have hfree := free_eq (setNext_isSome.trans (by rw [hnode]; rfl) :
      (setNext h.cells t none x.1).isSome = true) h.fresh
    have hpop : rListPop h l = some ⟨⟨Function.update (setNext h.cells t none) x.1 none, h.fresh⟩,
        { l with tail := some t, length := l.length - 1 }, some x.2⟩ := by
      rw [rListPop, htail]
      simp only [hnode, Option.bind_eq_bind, Option.bind_some, hhead, if_neg hyx, hstore, hfree]
    refine ⟨_, hpop, y :: ys, ?_⟩
    have hturn := remove_turns (r := ⟨⟨Function.update (setNext h.cells t none) x.1 none, h.fresh⟩,
      { l with tail := some t, length := l.length - 1 }, some x.2⟩) hl rfl ?_ ?_ ?_ rfl
    · rwa [List.append_nil] at hturn
    · rw [ht]
      rfl
    · exact hhead
    · rw [List.append_nil, ht]

theorem popHead_turns (hl : ListAt h l xs []) (hne : xs ≠ []) :
    ∃ r, rListPopHead h l = some r ∧ ∃ xs', Turns h l xs [] r xs' [] := by
  cases xs with
  | nil => exact absurd rfl hne
  | cons x r1 =>
    have hs := ListAt.splitAt (show ListAt h l ([] ++ x :: r1) [] from hl)
    have hhead : l.head = some x.1 := hs.head
    cases r1 with
    | nil =>
      have htail : l.tail = some x.1 := hs.tail
      have hpop : rListPopHead h l = some ⟨⟨Function.update h.cells x.1 none, h.fresh⟩,
          { l with head := none, tail := none, length := l.length - 1 }, some x.2⟩ := by
        rw [rListPopHead, hhead]
        simp only [hs.node, Option.bind_eq_bind, Option.bind_some, htail, if_true, ListMem.free,
          Option.isSome_some]
      exact ⟨_, hpop, [], remove_turns hl (show [x] = [] ++ x :: [] from rfl) rfl rfl rfl rfl⟩
    | cons y ys =>
      have hxt : ¬ some x.1 = l.tail := by
        intro he
        have hend := (lastPtr_eq_some_iff_of_notMem hs.notAfter).mp (hs.tail.symm.trans he.symm)
        cases hend
      have hstore := storePrev_eq (v := none) (hs.after y.1 rfl)
      have hfree := free_eq (setPrev_isSome.trans (by rw [hs.node]; rfl) :
        (setPrev h.cells y.1 none x.1).isSome = true) h.fresh
      have hpop : rListPopHead h l = some ⟨⟨Function.update (setPrev h.cells y.1 none) x.1 none, h.fresh⟩,
          { l with head := some y.1, length := l.length - 1 }, some x.2⟩ := by
        rw [rListPopHead, hhead]
        simp only [hs.node, Option.bind_eq_bind, Option.bind_some, if_neg hxt, firstPtr_cons, hstore,
          hfree]
      exact ⟨_, hpop, y :: ys, remove_turns hl (show x :: y :: ys = [] ++ x :: y :: ys from rfl) rfl rfl
        hs.tail rfl⟩

/-- `r_list_split_iter`, for a node anywhere, with the `free` that follows it. -/
theorem delete_turns {l1 r1 : List (Nat × α)} {x : Nat × α} (hl : ListAt h l (l1 ++ x :: r1) []) :
    ∃ r, rListDelete h l (some x.1) = some r ∧ Turns h l (l1 ++ x :: r1) [] r (l1 ++ r1) [] := by
  have hs := hl.splitAt
  have hstoreN := storeNextIf_eq (v := firstPtr r1 none) hs.before
  have hstoreP := storePrevIf_eq (v := lastPtr l1 none)
    (fun b hb => (setNextIf_isSome (a := lastPtr l1 none) (v := firstPtr r1 none)).trans (hs.after b hb))
  have hsome : (setPrevIf (setNextIf h.cells (lastPtr l1 none) (firstPtr r1 none))
      (firstPtr r1 none) (lastPtr l1 none) x.1).isSome = true := by
    rw [setPrevIf_isSome, setNextIf_isSome, hs.node]
    rfl
  simp only [rListDelete, rListSplitIter, hs.node, Option.bind_eq_bind, Option.bind_some, hstoreN,
    hstoreP, free_eq hsome]
  refine ⟨_, rfl, remove_turns hl rfl rfl ?_ ?_ rfl⟩
  · show ite _ _ _ = _
    rw [hs.head]
    by_cases h1 : l1 = []
    · rw [if_pos ((firstPtr_eq_some_iff_of_notMem hs.notBefore).mpr h1), h1]
      rfl
    · rw [if_neg (fun he => h1 ((firstPtr_eq_some_iff_of_notMem hs.notBefore).mp he))]
      cases l1 with
      | nil => exact absurd rfl h1
      | cons y ys => rfl
  · show ite _ _ _ = _
    rw [hs.tail, lastPtr_append]
    by_cases h1 : r1 = []
    · rw [if_pos ((lastPtr_eq_some_iff_of_notMem hs.notAfter).mpr h1), h1]
      rfl
    · rw [if_neg (fun he => h1 ((lastPtr_eq_some_iff_of_notMem hs.notAfter).mp he))]
      cases r1 with
      | nil => exact absurd rfl h1
      | cons y ys => rfl

/-- The four cases of `r_list_del_n` do what `r_list_delete` does. -/
theorem unlinkAt_turns {l1 r1 : List (Nat × α)} {x : Nat × α} (hl : ListAt h l (l1 ++ x :: r1) []) :
    ∃ r, unlinkAt h l x.1 = some r ∧ Turns h l (l1 ++ x :: r1) [] r (l1 ++ r1) [] := by
  have hs := hl.splitAt
  have hnode := hs.node
  have hsome : (h.cells x.1).isSome = true := by
    rw [hnode]
    rfl
  cases hp : lastPtr l1 none with
  | none =>
    have h1 : l1 = [] := by
      cases l1 with
      | nil => rfl
      | cons y ys => exact absurd hp (lastPtr_cons_ne_none y ys none)
    subst h1
    cases r1 with
    | nil =>
      have hdel : unlinkAt h l x.1 = some ⟨⟨Function.update h.cells x.1 none, h.fresh⟩,
          { l with head := none, tail := none, length := l.length - 1 }, true⟩ := by
        simp only [unlinkAt, hnode, Option.bind_eq_bind, Option.bind_some, lastPtr_nil, firstPtr_nil,
          ListMem.free, Option.isSome_some, if_true]
      exact ⟨_, hdel, remove_turns hl rfl rfl rfl rfl rfl⟩
    | cons y ys =>
      have hstore := storePrev_eq (v := none) (hs.after y.1 rfl)
      have hfree := free_eq (setPrev_isSome.trans hsome :
        (setPrev h.cells y.1 none x.1).isSome = true) h.fresh
      have hdel : unlinkAt h l x.1 = some ⟨⟨Function.update (setPrev h.cells y.1 none) x.1 none, h.fresh⟩,
          { l with head := some y.1, length := l.length - 1 }, true⟩ := by
        simp only [unlinkAt, hnode, Option.bind_eq_bind, Option.bind_some, lastPtr_nil, firstPtr_cons,
          hstore, hfree]
      exact ⟨_, hdel, remove_turns hl rfl rfl rfl hs.tail rfl⟩
  | some t =>
    rw [hp] at hnode
    obtain ⟨y, ys, rfl⟩ : ∃ y ys, l1 = y :: ys := by
      cases l1 with
      | nil => cases hp
      | cons y ys => exact ⟨y, ys, rfl⟩
    have hstoreN := fun v => storeNext_eq (v := v) (hs.before t hp)
    cases r1 with
    | nil =>
      have hfree := free_eq (setNext_isSome.trans hsome :
        (setNext h.cells t none x.1).isSome = true) h.fresh
      have hdel : unlinkAt h l x.1 = some ⟨⟨Function.update (setNext h.cells t none) x.1 none, h.fresh⟩,
          { l with tail := some t, length := l.length - 1 }, true⟩ := by
        simp only [unlinkAt, hnode, Option.bind_eq_bind, Option.bind_some, firstPtr_nil, hstoreN, hfree]
      refine ⟨_, hdel, remove_turns hl rfl ?_ hs.head ?_ rfl⟩
      · rw [hp]
        rfl
      · rw [List.append_nil, hp]
    | cons z zs =>
      have hstoreP := storePrev_eq (v := some t)
        ((setNext_isSome (a := t) (v := some z.1)).trans (hs.after z.1 rfl))
      have hfree := free_eq (setPrev_isSome.trans (setNext_isSome.trans hsome) :
        (setPrev (setNext h.cells t (some z.1)) z.1 (some t) x.1).isSome = true) h.fresh
      have hdel : unlinkAt h l x.1 = some
          ⟨⟨Function.update (setPrev (setNext h.cells t (some z.1)) z.1 (some t)) x.1 none, h.fresh⟩,
            { l with length := l.length - 1 }, true⟩ := by
        simp only [unlinkAt, hnode, Option.bind_eq_bind, Option.bind_some, firstPtr_cons, hstoreN,
          hstoreP, hfree]
      refine ⟨_, hdel, remove_turns hl rfl ?_ hs.head ?_ rfl⟩
      · rw [hp]
        rfl
      · rw [lastPtr_append]
        exact hs.tail

theorem delN_turns (hv : h.Valid) (hl : ListAt h l xs []) (n : Int) :
    ∃ r, rListDelN h l n = some r ∧ ∃ xs', Turns h l xs [] r xs' [] := by
  have hlink := hl.linked
  have hfuel := hl.length_le_fresh hv
  have hhead := hl.head
  rw [List.append_nil] at hlink hfuel hhead
  have hfind := iterAt_spec hlink n hfuel 0
  rw [← hhead] at hfind
  unfold rListDelN
  rcases hfind with hnone | ⟨l1, x, r1, rfl, hsome, _⟩
  · rw [hnone]
    exact ⟨_, rfl, xs, relabel_turns hl rfl rfl hl.linked (fun _ _ => rfl) l.sorted false⟩
  · rw [hsome]
    obtain ⟨r, hr, ht⟩ := unlinkAt_turns hl
    exact ⟨r, hr, _, ht⟩

theorem findData_spec [DecidableEq α] {c : Cells α} {p : Option Nat} (hc : Linked c p xs none) (d : α)
    {fuel : Nat} (hf : xs.length ≤ fuel) :
    findData c d fuel (firstPtr xs none) = some none ∨
      ∃ l1 x r1, xs = l1 ++ x :: r1 ∧ findData c d fuel (firstPtr xs none) = some (some x.1) := by
  induction xs generalizing p fuel with
  | nil =>
    left
    cases fuel <;> rfl
  | cons x xs ih =>
    cases fuel with
    | zero => cases hf
    | succ fuel =>
      have hstep : findData c d (fuel + 1) (firstPtr (x :: xs) none) =
          if some x.2 = some d then some (some x.1) else findData c d fuel (firstPtr xs none) := by
        rw [firstPtr_cons, findData, hc.1]
        rfl
      rw [hstep]
      by_cases hd : some x.2 = some d
      · right
        exact ⟨[], x, xs, rfl, if_pos hd⟩
      · rw [if_neg hd]
        rcases ih hc.2 (Nat.le_of_succ_le_succ hf) with hnone | ⟨l1, y, r1, hxs, hsome⟩
        · exact Or.inl hnone
        · right
          exact ⟨x :: l1, y, r1, by rw [hxs]; rfl, hsome⟩

theorem split_turns [DecidableEq α] (hv : h.Valid) (hl : ListAt h l xs []) (d : α) :
    ∃ r, rListSplit h l d = some r ∧ ∃ xs', Turns h l xs [] r xs' [] := by
  have hlink := hl.linked
  have hfuel := hl.length_le_fresh hv
  have hhead := hl.head
  rw [List.append_nil] at hlink hfuel hhead
  have hfind := findData_spec hlink d hfuel
  rw [← hhead] at hfind
  unfold rListSplit
  rcases hfind with hnone | ⟨l1, x, r1, rfl, hsome⟩
  · rw [hnone]
    exact ⟨_, rfl, xs, relabel_turns hl rfl rfl hl.linked (fun _ _ => rfl) l.sorted ()⟩
  · rw [hsome]
    obtain ⟨r, hr, ht⟩ := delete_turns hl
    exact ⟨r, hr, _, ht⟩

/-- One call after another on the same list. -/
theorem Turns.trans {γ : Type} {r : ListResult α β} {r' : ListResult α γ} {ys zs : List (Nat × α)}
    (hv : h.Valid) (hl : ListAt h l xs []) (ht : Turns h l xs [] r ys [])
    (ht' : Turns r.mem r.list ys [] r' zs []) : Turns h l xs [] r' zs [] := by
  refine ⟨ht'.listAt, Nat.le_trans ht.grows ht'.grows, ?_, ?_, ?_⟩
  · intro a ha hside
    have hgrow := ht.grows
    have hgrow' := ht'.grows
    have hout : a ∉ addrs (ys ++ []) := by
      intro hin
      rcases ht.source a hin with hold | hge
      · exact ha hold
      · rcases hside with hlt | hge'
        · omega
        · exact absurd (Linked.lt_fresh (ht.valid hv hl) ht.listAt.linked hin) (by omega)
    rw [ht'.keeps a hout (by omega), ht.keeps a ha (by omega)]
  · intro a ha
    have hgrow := ht.grows
    rcases ht'.source a ha with hin | hge
    · exact ht.source a hin
    · exact Or.inr (by omega)
  · intro hn
    have h1 := (ht.whole hn).2
    have h2 := (ht'.whole rfl).2
    exact ⟨rfl, by omega⟩

theorem purgeLoop_turns (hv : h.Valid) (hl : ListAt h l xs []) {fuel : Nat} (hf : xs.length ≤ fuel) :
    ∃ r, purgeLoop fuel h l (firstPtr xs none) = some r ∧ Turns h l xs [] r [] [] := by
  induction xs generalizing h l fuel with
  | nil =>
    have hturn : Turns h l [] [] ⟨h, { l with head := none, tail := none }, ()⟩ [] [] := by
      have hhead : l.head = none := hl.head
      have htail : l.tail = none := hl.tail
      have hsame := relabel_turns hl rfl rfl hl.linked (fun _ _ => rfl) l.sorted ()
      rw [hhead, htail] at hsame
      exact hsame
    cases fuel <;> exact ⟨_, rfl, hturn⟩
  | cons x xs ih =>
    cases fuel with
    | zero => cases hf
    | succ fuel =>
      obtain ⟨r, hr, ht⟩ := delete_turns (show ListAt h l ([] ++ x :: xs) [] from hl)
      obtain ⟨r', hr', ht'⟩ := ih (ht.valid hv hl) ht.listAt (Nat.le_of_succ_le_succ hf)
      have hnode : h.cells x.1 = some ⟨some x.2, firstPtr xs none, none⟩ := by
        have hlink := hl.linked
        rw [List.append_nil] at hlink
        exact hlink.1
      refine ⟨r', ?_, ht.trans hv hl ht'⟩
      rw [firstPtr_cons, purgeLoop]
      simp only [hnode, Option.bind_eq_bind, Option.bind_some, hr]
      exact hr'

theorem purge_turns (hv : h.Valid) (hl : ListAt h l xs []) :
    ∃ r, rListPurge h l = some r ∧ ∃ xs', Turns h l xs [] r xs' [] := by
  have hfuel := hl.length_le_fresh hv
  have hhead := hl.head
  rw [List.append_nil] at hfuel hhead
  obtain ⟨r, hr, ht⟩ := purgeLoop_turns hv hl hfuel
  rw [← hhead] at hr
  exact ⟨r, hr, [], ht⟩

/-- The loop swaps the links of every node it passes. -/
theorem reverseLoop_spec {c : Cells α} {p : Option Nat} (hc : Linked c p xs none)
    (hnd : (addrs xs).Nodup) {fuel : Nat} (hf : xs.length ≤ fuel) :
    ∃ c', reverseLoop fuel c (firstPtr xs none) = some c' ∧
      (∀ a ∈ addrs xs, c' a = (c a).map (fun x => ⟨x.data, x.p, x.n⟩)) ∧
      ∀ a, a ∉ addrs xs → c' a = c a := by
  induction xs generalizing p c fuel with
  | nil =>
    refine ⟨c, ?_, ?_, fun a _ => rfl⟩
    · cases fuel <;> rfl
    · intro a ha
      cases ha
  | cons x xs ih =>
    cases fuel with
    | zero => cases hf
    | succ fuel =>
      rw [addrs_cons, List.nodup_cons] at hnd
      have hrest : Linked (Function.update c x.1 (some ⟨some x.2, p, firstPtr xs none⟩)) (some x.1) xs
          none := by
        apply hc.2.congr
        intro a ha
        exact Function.update_of_ne (fun he : a = x.1 => hnd.1 (he ▸ ha)) _ _
      obtain ⟨c', hr, hin, hout⟩ := ih hrest hnd.2 (Nat.le_of_succ_le_succ hf)
      refine ⟨c', ?_, ?_, ?_⟩
      · rw [firstPtr_cons, reverseLoop, hc.1]
        exact hr
      · intro a ha
        rcases List.mem_cons.mp ha with rfl | ha
        · rw [hout _ hnd.1, Function.update_self, hc.1]
          rfl
        · rw [hin a ha, Function.update_of_ne (fun he : a = x.1 => hnd.1 (he ▸ ha))]
      · intro a ha
        rw [addrs_cons, List.mem_cons, not_or] at ha
        rw [hout a ha.2, Function.update_of_ne ha.1]

theorem reverse_turns (hv : h.Valid) (hl : ListAt h l xs []) :
    ∃ r, rListReverse h l = some r ∧ ∃ xs', Turns h l xs [] r xs' [] := by
  obtain ⟨hlink, hnd, hhead, htail, _⟩ := id hl
  have hfuel := hl.length_le_fresh hv
  rw [List.append_nil] at hlink hfuel hhead hnd
  obtain ⟨c', hr, hin, hout⟩ := reverseLoop_spec hlink hnd hfuel
  rw [← hhead] at hr
  simp only [rListReverse, hr]
  have haddrs : addrs xs.reverse = (addrs xs).reverse := List.map_reverse
  refine ⟨_, rfl, xs.reverse, ⟨?_, ?_, ?_, ?_, fun _ => rfl⟩, Nat.le_refl _, ?_, ?_, ?_⟩
  · rw [List.append_nil]
    exact hlink.swapped hin
  · rw [List.append_nil, haddrs]
    exact List.nodup_reverse.mpr hnd
  · rw [List.append_nil, firstPtr_reverse]
    exact htail
  · rw [lastPtr_reverse]
    exact hhead
  · intro a ha _
    rw [List.append_nil] at ha
    exact hout a ha
  · intro a ha
    rw [List.append_nil, haddrs, List.mem_reverse] at ha
    left
    rwa [List.append_nil]
  · intro _
    refine ⟨rfl, ?_⟩
    show l.length - l.length = _
    rw [List.length_reverse]
    omega

end Radare
