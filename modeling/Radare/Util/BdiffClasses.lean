import Radare.Util.Bdiff

namespace Radare

open Framework

/-- The lines of class `e` in a list of lines from `i` on. -/
def occurrences (e : Nat) : Nat → List Link → List Nat
  | _, [] => []
  | i, x :: rest => if x.e = e then i :: occurrences e (i + 1) rest else occurrences e (i + 1) rest

/-- Each line links to the next one of its class. -/
def Chained : Nat → List Link → Prop
  | _, [] => True
  | i, x :: rest => x.n = (occurrences x.e (i + 1) rest).head? ∧ Chained (i + 1) rest

theorem mem_occurrences {e i p : Nat} {links : List Link} :
    p ∈ occurrences e i links ↔ ∃ d x, p = i + d ∧ links[d]? = some x ∧ x.e = e := by
  induction links generalizing i with
  | nil => simp [occurrences]
  | cons x rest ih =>
    rw [occurrences]
    have hrest : p ∈ occurrences e (i + 1) rest ↔
        ∃ d y, p = i + (d + 1) ∧ (x :: rest)[d + 1]? = some y ∧ y.e = e := by
      rw [ih]
      simp only [List.getElem?_cons_succ, Nat.add_assoc, Nat.add_comm 1]
    constructor
    · intro hp
      split_ifs at hp with hx
      · rcases List.mem_cons.mp hp with rfl | hp
        · exact ⟨0, x, rfl, rfl, hx⟩
        · obtain ⟨d, y, h⟩ := hrest.mp hp
          exact ⟨d + 1, y, h⟩
      · obtain ⟨d, y, h⟩ := hrest.mp hp
        exact ⟨d + 1, y, h⟩
    · rintro ⟨d, y, hp, hy, he⟩
      cases d with
      | zero =>
        obtain rfl := Option.some.inj hy
        rw [if_pos he, hp]
        exact List.mem_cons_self
      | succ d =>
        have hmem := hrest.mpr ⟨d, y, hp, hy, he⟩
        split_ifs
        · exact List.mem_cons_of_mem _ hmem
        · exact hmem

theorem occurrences_sorted (e i : Nat) (links : List Link) :
    (occurrences e i links).Pairwise (· < ·) := by
  induction links generalizing i with
  | nil => exact List.Pairwise.nil
  | cons x rest ih =>
    rw [occurrences]
    split_ifs
    · refine List.Pairwise.cons ?_ (ih (i + 1))
      intro p hp
      obtain ⟨d, _, rfl, _⟩ := mem_occurrences.mp hp
      omega
    · exact ih (i + 1)

/-- The links lead through a class from any line of the file on. -/
theorem chain_occurrences {bl links : List Link} {i fuel : Nat} (e : Nat) (h : Chained i links)
    (hat : ∀ d, bl[i + d]? = links[d]?) (hf : links.length ≤ fuel) :
    chain bl fuel (occurrences e i links).head? = occurrences e i links := by
  induction links generalizing i fuel with
  | nil => cases fuel <;> rfl
  | cons x rest ih =>
    obtain ⟨hn, hrest⟩ := h
    have hat' : ∀ d, bl[i + 1 + d]? = rest[d]? := by
      intro d
      have hd := hat (d + 1)
      rwa [List.getElem?_cons_succ, show i + (d + 1) = i + 1 + d by omega] at hd
    cases fuel with
    | zero => cases hf
    | succ fuel =>
      have hlen : rest.length ≤ fuel := Nat.le_of_succ_le_succ hf
      rw [occurrences]
      split_ifs with hx
      · have hx0 : bl[i]? = some x := hat 0
        rw [List.head?_cons, chain, hx0, Option.bind_some, hn, hx, ih hrest hat' hlen]
      · exact ih hrest hat' (by omega)

/-- What the table holds in a slot: the bytes of a line of the class. -/
def content (b : List Line) (h : Nat → Pos) (j : Nat) : Option (List Ut8) :=
  (h j).pos.bind (fun p => b[p]?.map Line.text)

/-- Where the search for a line starts. -/
def startSlot (size : Nat) (text : List Ut8) : Nat := (textHash text).toNat &&& (size - 1)

theorem findClass_eq_probe {k fuel j : Nat} {b : List Line} {h : Nat → Pos} {x : Line}
    (hb : ∀ y ∈ b, y.h = textHash y.text) (hx : x.h = textHash x.text)
    (hpos : ∀ j p, (h j).pos = some p → p < b.length) (hj : j < 2 ^ k) :
    findClass (2 ^ k) b h x fuel j = probe (2 ^ k) (content b h) x.text fuel j := by
  induction fuel generalizing j with
  | zero => rfl
  | succ fuel ih =>
    rw [findClass, if_pos hj, probe, content]
    cases hp : (h j).pos with
    | none => rfl
    | some p =>
      have hlt := hpos j p hp
      have hy : b[p]? = some b[p] := List.getElem?_eq_getElem hlt
      have hcmp := cmp_eq_false hx (hb b[p] (List.getElem_mem hlt))
      dsimp only [Option.bind_some]
      rw [hy, Option.map_some]
      dsimp only
      by_cases heq : b[p].text = x.text
      · rw [hcmp.mpr heq.symm, if_pos heq]
        rfl
      · have hne : cmp x b[p] = true := by
          rw [← Bool.not_eq_false, hcmp]
          exact fun h => heq h.symm
        rw [hne, if_neg heq, Nat.and_two_pow_sub_one_eq_mod]
        exact ih (Nat.mod_lt _ (by positivity))

/-- The table and the links when the lines from `i` on are filed. -/
structure Filed (size : Nat) (b : List Line) (i : Nat) (h : Nat → Pos) (links : List Link) :
    Prop where
  len : i + links.length = b.length
  head : ∀ j, (h j).pos = (occurrences j i links).head?
  chained : Chained i links
  placed : Placed size (startSlot size) (content b h)
  text : ∀ d x, links[d]? = some x → x.e < size ∧ content b h x.e = b[i + d]?.map Line.text

section

variable {size i : Nat} {b : List Line} {h : Nat → Pos} {links : List Link}

theorem Filed.occ (hf : Filed size b i h links) {j p : Nat} (hp : (h j).pos = some p) :
    ∃ d x, p = i + d ∧ links[d]? = some x ∧ x.e = j := by
  rw [hf.head j] at hp
  exact mem_occurrences.mp (List.mem_of_mem_head? hp)

theorem Filed.pos_lt (hf : Filed size b i h links) (j p : Nat) (hp : (h j).pos = some p) :
    p < b.length := by
  obtain ⟨d, x, rfl, hx, -⟩ := hf.occ hp
  have hd := (List.getElem?_eq_some_iff.mp hx).1
  have hlen := hf.len
  omega

/-- The table has more slots than the file lines. -/
theorem Filed.exists_empty (hf : Filed size b i h links) (hsize : b.length < size) :
    ∃ s < size, content b h s = none := by
  have hlen := hf.len
  obtain ⟨s, hs, hnone⟩ := exists_empty_slot (fun s => (h s).pos ≠ none)
    (fun s => ((h s).pos.getD 0) - i) (fun d => (links[d]?.map Link.e).getD 0) hsize (by
      intro s hs
      obtain ⟨p, hp⟩ := Option.ne_none_iff_exists'.mp hs
      have hlt := hf.pos_lt s p hp
      show (h s).pos.getD 0 - i < b.length
      rw [hp, Option.getD_some]
      omega) (by
      intro s hs
      obtain ⟨p, hp⟩ := Option.ne_none_iff_exists'.mp hs
      obtain ⟨d, x, rfl, hx, he⟩ := hf.occ hp
      show (links[(h s).pos.getD 0 - i]?.map Link.e).getD 0 = s
      rw [hp, Option.getD_some, Nat.add_sub_cancel_left, hx, Option.map_some, Option.getD_some, he])
  rw [not_not] at hnone
  refine ⟨s, hs, ?_⟩
  rw [content, hnone]
  rfl

end

theorem startSlot_lt {k : Nat} (text : List Ut8) : startSlot (2 ^ k) text < 2 ^ k := by
  rw [startSlot, Nat.and_two_pow_sub_one_eq_mod]
  exact Nat.mod_lt _ (by positivity)

/-- Every search ends. -/
theorem Filed.classOf_eq {k i : Nat} {b : List Line} {h : Nat → Pos} {links : List Link}
    (hf : Filed (2 ^ k) b i h links) (hsize : b.length < 2 ^ k)
    (hb : ∀ y ∈ b, y.h = textHash y.text) {x : Line} (hx : x.h = textHash x.text) :
    ∃ j, classOf (2 ^ k) b h x = some j ∧
      probe (2 ^ k) (content b h) x.text (2 ^ k) (startSlot (2 ^ k) x.text) = some j := by
  obtain ⟨s, hs, hnone⟩ := hf.exists_empty hsize
  have hstart := startSlot_lt (k := k) x.text
  obtain ⟨j, hj⟩ := probe_total x.text hstart hs hnone
  refine ⟨j, ?_, hj⟩
  rw [classOf, hx, ← hj]
  exact findClass_eq_probe hb hx hf.pos_lt hstart

/-- Filing one more line. -/
theorem Filed.file {k i j : Nat} {b : List Line} {h : Nat → Pos} {links : List Link}
    (hf : Filed (2 ^ k) b (i + 1) h links) {x : Line} (hx : b[i]? = some x)
    (hj : probe (2 ^ k) (content b h) x.text (2 ^ k) (startSlot (2 ^ k) x.text) = some j) :
    Filed (2 ^ k) b i (Function.update h j ⟨some i, (h j).len + 1⟩) (⟨(h j).pos, j⟩ :: links) := by
  have hcontent : content b (Function.update h j ⟨some i, (h j).len + 1⟩) =
      Function.update (content b h) j (some x.text) := by
    funext s
    by_cases hs : s = j
    · subst hs
      rw [content, Function.update_self, Function.update_self, Option.bind_some, hx, Option.map_some]
    · rw [content, Function.update_of_ne hs, Function.update_of_ne hs]
      rfl
  refine ⟨?_, ?_, ⟨hf.head j, hf.chained⟩, ?_, ?_⟩
  · have hlen := hf.len
    rw [List.length_cons]
    omega
  · intro s
    rw [occurrences]
    by_cases hs : s = j
    · subst hs
      rw [Function.update_self, if_pos rfl, List.head?_cons]
    · rw [Function.update_of_ne hs, if_neg (fun h => hs h.symm)]
      exact hf.head s
  · rw [hcontent]
    exact hf.placed.insert hj
  · intro d y hy
    rw [hcontent]
    cases d with
    | zero =>
      obtain rfl := Option.some.inj hy
      refine ⟨probe_lt (startSlot_lt x.text) hj, ?_⟩
      show Function.update (content b h) j (some x.text) j = _
      rw [Function.update_self, Nat.add_zero, hx, Option.map_some]
    | succ d =>
      rw [List.getElem?_cons_succ] at hy
      obtain ⟨hlt, htext⟩ := hf.text d y hy
      refine ⟨hlt, ?_⟩
      rw [show i + (d + 1) = i + 1 + d by omega, ← htext]
      by_cases hs : y.e = j
      · rw [hs, Function.update_self]
        rw [hs] at htext
        rcases probe_spec hj with hnone | hsome
        · have hd := (List.getElem?_eq_some_iff.mp hy).1
          have hlen := hf.len
          rw [hnone, List.getElem?_eq_getElem (by omega)] at htext
          cases htext
        · exact hsome.symm
      · rw [Function.update_of_ne hs]

theorem chainLines_filed {k : Nat} {b : List Line} (hsize : b.length < 2 ^ k)
    (hb : ∀ y ∈ b, y.h = textHash y.text) {i : Nat} {h : Nat → Pos} {links : List Link}
    (hf : Filed (2 ^ k) b i h links) :
    ∃ h' bl, chainLines (2 ^ k) b i h links = some (h', bl) ∧ Filed (2 ^ k) b 0 h' bl := by
  induction i generalizing h links with
  | zero => exact ⟨h, links, rfl, hf⟩
  | succ i ih =>
    have hlen := hf.len
    have hlt : i < b.length := by omega
    have hx : b[i]? = some b[i] := List.getElem?_eq_getElem hlt
    obtain ⟨j, hclass, hj⟩ := hf.classOf_eq hsize hb (hb b[i] (List.getElem_mem hlt))
    obtain ⟨h', bl, hrun, hdone⟩ := ih (hf.file hx hj)
    refine ⟨h', bl, ?_, hdone⟩
    rw [chainLines, hx]
    simp only [Option.bind_eq_bind, Option.bind_some, hclass]
    exact hrun

theorem filed_empty {size : Nat} (b : List Line) :
    Filed size b b.length (fun _ => ⟨none, 0⟩) [] := by
  refine ⟨rfl, fun _ => rfl, trivial, placed_empty _ _, ?_⟩
  intro d x hx
  cases hx

theorem mapM_some {α β : Type} {f : α → Option β} {l : List α} (h : ∀ x ∈ l, ∃ y, f x = some y) :
    ∃ out, l.mapM f = some out ∧ out.length = l.length ∧
      ∀ (i : Nat) (y : β), out[i]? = some y → ∃ x, l[i]? = some x ∧ f x = some y := by
  induction l with
  | nil => exact ⟨[], rfl, rfl, fun i y hy => by cases hy⟩
  | cons x l ih =>
    obtain ⟨y, hy⟩ := h x List.mem_cons_self
    obtain ⟨out, hout, hlen, hall⟩ := ih (fun z hz => h z (List.mem_cons_of_mem _ hz))
    refine ⟨y :: out, ?_, by rw [List.length_cons, hlen, List.length_cons], ?_⟩
    · simp [hy, hout]
    · intro i z hz
      cases i with
      | zero =>
        obtain rfl := Option.some.inj hz
        exact ⟨x, rfl, hy⟩
      | succ i => exact hall i z hz

/-- The links of two files: lines with the same bytes are in one class, and from a line of `a` the
links lead through its class in `b`, unless the class is too popular. -/
structure Equated (a b : List Line) (al bl : List Link) : Prop where
  lenA : al.length = a.length
  lenB : bl.length = b.length
  same : ∀ (i j : Nat) (x y : Line), a[i]? = some x → b[j]? = some y → (sameClass al bl i j = true ↔ x.text = y.text)
  links : ∃ rare : Nat → Prop, ∀ (i : Nat) (x : Link), al[i]? = some x → ∀ j : Nat,
    j ∈ chain bl bl.length x.n ↔ rare x.e ∧ ∃ y, bl[j]? = some y ∧ y.e = x.e
  sorted : ∀ (i : Nat) (x : Link), al[i]? = some x → (chain bl bl.length x.n).Pairwise (· < ·)

section

variable {k : Nat} {b : List Line} {h : Nat → Pos} {bl : List Link}

theorem Filed.chain_head (hf : Filed (2 ^ k) b 0 h bl) (j : Nat) :
    chain bl bl.length (h j).pos = occurrences j 0 bl := by
  rw [hf.head j]
  exact chain_occurrences j hf.chained (fun d => by rw [Nat.zero_add]) (Nat.le_refl _)

theorem Filed.mem_chain (hf : Filed (2 ^ k) b 0 h bl) (j p : Nat) :
    p ∈ chain bl bl.length (h j).pos ↔ ∃ y, bl[p]? = some y ∧ y.e = j := by
  rw [hf.chain_head, mem_occurrences]
  constructor
  · rintro ⟨d, y, rfl, hy, he⟩
    exact ⟨y, by rwa [Nat.zero_add], he⟩
  · rintro ⟨y, hy, he⟩
    exact ⟨p, y, (Nat.zero_add p).symm, hy, he⟩

/-- The class of a line is the class of the lines with its bytes. -/
theorem Filed.class_iff (hf : Filed (2 ^ k) b 0 h bl) {text : List Ut8} {j : Nat}
    (hj : probe (2 ^ k) (content b h) text (2 ^ k) (startSlot (2 ^ k) text) = some j) {p : Nat}
    {y : Line} {link : Link} (hy : b[p]? = some y) (hlink : bl[p]? = some link) :
    j = link.e ↔ text = y.text := by
  have hcontent : content b h link.e = some y.text := by
    rw [(hf.text p link hlink).2, Nat.zero_add, hy, Option.map_some]
  constructor
  · intro he
    rcases probe_spec hj with hnone | hsome
    · rw [he, hcontent] at hnone
      cases hnone
    · rw [he, hcontent] at hsome
      exact (Option.some.inj hsome).symm
  · intro ht
    have hplaced := hf.placed link.e y.text hcontent
    rw [← ht, hj] at hplaced
    exact Option.some.inj hplaced

end

theorem equatelines_equated {a b : List Line} (hb29 : b.length + 1 ≤ 2 ^ 29)
    (ha : ∀ x ∈ a, x.h = textHash x.text) (hb : ∀ y ∈ b, y.h = textHash y.text) :
    ∃ al bl, equatelines a b = some (al, bl) ∧ Equated a b al bl := by
  obtain ⟨k, hsize, hlt⟩ := tableSize_eq hb29
  obtain ⟨h, bl, hrun, hf⟩ := chainLines_filed hlt hb (filed_empty b)
  generalize ht : (if b.length ≥ 4000 then b.length / 1000 else b.length + 1) = t
  have hfound : ∀ x ∈ a, ∃ y, matchLine (2 ^ k) b h t x = some y := by
    intro x hx
    obtain ⟨j, hclass, -⟩ := hf.classOf_eq hlt hb (ha x hx)
    rw [matchLine, hclass]
    exact ⟨_, rfl⟩
  obtain ⟨al, hal, hlen, hall⟩ := mapM_some hfound
  have hlenB : bl.length = b.length := by
    have := hf.len
    omega
  have hlink : ∀ (i : Nat) (y : Link), al[i]? = some y → ∃ x, a[i]? = some x ∧
      y.n = (if (h y.e).len ≤ t then (h y.e).pos else none) ∧
      probe (2 ^ k) (content b h) x.text (2 ^ k) (startSlot (2 ^ k) x.text) = some y.e := by
    intro i y hy
    obtain ⟨x, hx, hmatch⟩ := hall i y hy
    obtain ⟨j, hclass, hj⟩ := hf.classOf_eq hlt hb (ha x (List.mem_of_getElem? hx))
    rw [matchLine, hclass] at hmatch
    obtain rfl := Option.some.inj hmatch
    exact ⟨x, hx, rfl, hj⟩
  refine ⟨al, bl, ?_, hlen, hlenB, ?_, ⟨fun e => (h e).len ≤ t, ?_⟩, ?_⟩
  · simp only [equatelines, hsize, Option.bind_eq_bind, Option.bind_some, hrun, ht, hal]
  · intro i j x y hx hy
    obtain ⟨hi, -⟩ := List.getElem?_eq_some_iff.mp hx
    obtain ⟨hj, -⟩ := List.getElem?_eq_some_iff.mp hy
    have hxl : al[i]? = some al[i] := List.getElem?_eq_getElem (by omega)
    have hyl : bl[j]? = some bl[j] := List.getElem?_eq_getElem (by omega)
    obtain ⟨x', hx', -, hprobe⟩ := hlink i _ hxl
    obtain rfl := Option.some.inj (hx.symm.trans hx')
    rw [← hf.class_iff hprobe hy hyl, sameClass, hxl, hyl]
    simp
  · intro i x hx j
    obtain ⟨_, -, hn, -⟩ := hlink i x hx
    rw [hn]
    split_ifs with hrare
    · rw [hf.mem_chain]
      simp [hrare]
    · simp [chain, hrare]
  · intro i x hx
    obtain ⟨_, -, hn, -⟩ := hlink i x hx
    rw [hn]
    split_ifs
    · rw [hf.chain_head]
      exact occurrences_sorted _ _ _
    · simp [chain]

end Radare
