import Mathlib.Data.List.Basic

namespace Radare.Framework

variable {σ ι ο : Type}

/-- A machine reads one input after another; what it puts out is put together. -/
def feed (step : σ → ι → σ × List ο) : σ → List ι → σ × List ο
  | s, [] => (s, [])
  | s, x :: xs =>
    let r := step s x
    let t := feed step r.1 xs
    (t.1, r.2 ++ t.2)

/-- Several machines read the same input, each putting out under its place. -/
def stepAll (step : σ → ι → σ × List ο) : Nat → List σ → ι → List σ × List (Nat × ο)
  | _, [], _ => ([], [])
  | n, s :: ss, x =>
    let r := step s x
    let t := stepAll step (n + 1) ss x
    (r.1 :: t.1, r.2.map (fun o => (n, o)) ++ t.2)

/-- What the machine at a place has put out. -/
def outputs (n : Nat) (log : List (Nat × ο)) : List ο := (log.filter (fun p => p.1 = n)).map Prod.snd

variable (step : σ → ι → σ × List ο)

theorem feed_append (s : σ) (xs ys : List ι) :
    feed step s (xs ++ ys) =
      ((feed step (feed step s xs).1 ys).1, (feed step s xs).2 ++ (feed step (feed step s xs).1 ys).2) := by
  induction xs generalizing s with
  | nil => rfl
  | cons x xs ih =>
    rw [List.cons_append, feed, ih]
    simp only [feed, List.append_assoc]

@[simp] theorem outputs_append (n : Nat) (l k : List (Nat × ο)) : outputs n (l ++ k) = outputs n l ++ outputs n k := by
  rw [outputs, List.filter_append, List.map_append]
  rfl

theorem outputs_same (n : Nat) (os : List ο) : outputs n (os.map (fun o => (n, o))) = os := by
  induction os with
  | nil => rfl
  | cons o os ih => simpa [outputs] using ih

theorem outputs_other {n k : Nat} (h : k ≠ n) (os : List ο) : outputs n (os.map (fun o => (k, o))) = [] := by
  simp [outputs, h]

theorem stepAll_cons (n : Nat) (s : σ) (ss : List σ) (x : ι) :
    stepAll step n (s :: ss) x =
      ((step s x).1 :: (stepAll step (n + 1) ss x).1,
        (step s x).2.map (fun o => (n, o)) ++ (stepAll step (n + 1) ss x).2) := rfl

theorem stepAll_fst (n : Nat) (ss : List σ) (x : ι) : (stepAll step n ss x).1 = ss.map (fun s => (step s x).1) := by
  induction ss generalizing n with
  | nil => rfl
  | cons s ss ih => exact congrArg ((step s x).1 :: ·) (ih (n + 1))

theorem stepAll_append (n : Nat) (ss ts : List σ) (x : ι) :
    stepAll step n (ss ++ ts) x =
      ((stepAll step n ss x).1 ++ (stepAll step (n + ss.length) ts x).1,
        (stepAll step n ss x).2 ++ (stepAll step (n + ss.length) ts x).2) := by
  induction ss generalizing n with
  | nil => rfl
  | cons s ss ih =>
    rw [List.cons_append, stepAll_cons, ih (n + 1), List.length_cons, show n + 1 + ss.length = n + (ss.length + 1) by omega]
    simp only [stepAll_cons, List.cons_append, List.append_assoc]

theorem mem_stepAll {n : Nat} {ss : List σ} {x : ι} {t : σ} (h : t ∈ (stepAll step n ss x).1) :
    ∃ s ∈ ss, t = (step s x).1 := by
  rw [stepAll_fst] at h
  obtain ⟨s, hs, ht⟩ := List.mem_map.mp h
  exact ⟨s, hs, ht.symm⟩

/-- Machines that an input leaves as they are. -/
theorem stepAll_idle {n : Nat} {ss : List σ} {x : ι} (h : ∀ s ∈ ss, step s x = (s, [])) :
    stepAll step n ss x = (ss, []) := by
  induction ss generalizing n with
  | nil => rfl
  | cons s ss ih =>
    rw [stepAll_cons, h s List.mem_cons_self, ih (fun t ht => h t (List.mem_cons_of_mem _ ht))]
    rfl

/-- Machines of which the last one alone sees an input. -/
theorem stepAll_snoc_idle {ss : List σ} {x : ι} (s : σ) (h : ∀ t ∈ ss, step t x = (t, [])) :
    stepAll step 0 (ss ++ [s]) x = (ss ++ [(step s x).1], (step s x).2.map (fun o => (ss.length, o))) := by
  rw [stepAll_append, stepAll_idle step h, stepAll_cons]
  have hend (n : Nat) : stepAll step n [] x = ([], []) := rfl
  simp [hend]

/-- Two ways to step that agree on the machines at hand. -/
theorem stepAll_congr {step' : σ → ι → σ × List ο} {n : Nat} {ss : List σ} {x : ι}
    (h : ∀ s ∈ ss, step s x = step' s x) : stepAll step n ss x = stepAll step' n ss x := by
  induction ss generalizing n with
  | nil => rfl
  | cons s ss ih =>
    rw [stepAll_cons, stepAll_cons, h s List.mem_cons_self, ih (fun t ht => h t (List.mem_cons_of_mem _ ht))]

/-- A machine further back puts nothing out under an earlier place. -/
theorem outputs_stepAll_lt {n k : Nat} (h : k < n) (ss : List σ) (x : ι) :
    outputs k (stepAll step n ss x).2 = [] := by
  induction ss generalizing n with
  | nil => rfl
  | cons s ss ih =>
    rw [stepAll_cons, outputs_append, outputs_other (by omega), ih (by omega)]
    rfl

/-- One input for all machines is one for each. -/
theorem outputs_stepAll (n k : Nat) (ss : List σ) (x : ι) :
    outputs (n + k) (stepAll step n ss x).2 = (ss[k]?.map (fun s => (step s x).2)).getD [] := by
  induction ss generalizing n k with
  | nil => rfl
  | cons s ss ih =>
    cases k with
    | zero =>
      rw [stepAll_cons, outputs_append, Nat.add_zero, outputs_same, outputs_stepAll_lt step (Nat.lt_succ_self n)]
      exact List.append_nil _
    | succ k =>
      rw [stepAll_cons, outputs_append, outputs_other (by omega), List.nil_append,
        show n + (k + 1) = n + 1 + k by omega]
      exact ih (n + 1) k

/-- Machines that run side by side do not see one another. -/
theorem feed_stepAll (k : Nat) (ss : List σ) (xs : List ι) :
    outputs k (feed (stepAll step 0) ss xs).2 = (ss[k]?.map (fun s => (feed step s xs).2)).getD [] := by
  induction xs generalizing ss with
  | nil => cases ss[k]? <;> rfl
  | cons x xs ih =>
    have hout := outputs_stepAll step 0 k ss x
    rw [Nat.zero_add] at hout
    rw [feed, outputs_append, ih, hout, stepAll_fst, List.getElem?_map]
    cases ss[k]? with
    | none => rfl
    | some s => rfl

end Radare.Framework
