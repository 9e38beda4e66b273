import Mathlib.Logic.Relation
import Radare.Framework.Subdivision

namespace Radare.Framework

section Uniform

variable {ι : Type} {R : ι → ι → Prop} {a b c z : ι} {m n : Nat}

theorem Walk.cons (hstep : R a b) (h : Walk R n b c) : Walk R (n + 1) a c := by
  induction h with
  | nil => exact .snoc (.nil _) hstep
  | snoc _ hlast ih => exact .snoc (ih hstep) hlast

theorem Walk.exists_head (h : Walk R (n + 1) a c) : ∃ b, R a b ∧ Walk R n b c := by
  induction n generalizing c with
  | zero =>
    cases h with
    | snoc h hstep =>
      cases h
      exact ⟨c, hstep, .nil c⟩
  | succ n ih =>
    cases h with
    | snoc h hstep =>
      obtain ⟨b, hfirst, hrest⟩ := ih h
      exact ⟨b, hfirst, .snoc hrest hstep⟩

theorem exists_walk (h : Relation.ReflTransGen R a b) : ∃ n, Walk R n a b := by
  induction h with
  | refl => exact ⟨0, .nil a⟩
  | tail _ hstep ih =>
    obtain ⟨n, hwalk⟩ := ih
    exact ⟨n + 1, .snoc hwalk hstep⟩

/-- Two different steps can each be followed by the other. -/
def Diamond (R : ι → ι → Prop) : Prop := ∀ a b c, R a b → R a c → b = c ∨ ∃ d, R b d ∧ R c d

variable (hdiamond : Diamond R) (hend : ∀ b, ¬R z b)
include hdiamond hend

theorem Diamond.after_step (h : Walk R n a z) (hstep : R a b) : ∃ k, k + 1 = n ∧ Walk R k b z := by
  induction n generalizing a b with
  | zero =>
    cases h
    exact absurd hstep (hend b)
  | succ n ih =>
    obtain ⟨c, hfirst, hrest⟩ := h.exists_head
    rcases hdiamond a b c hstep hfirst with rfl | ⟨d, hbd, hcd⟩
    · exact ⟨n, rfl, hrest⟩
    · obtain ⟨k, hk, hwalk⟩ := ih hrest hcd
      exact ⟨k + 1, by omega, hwalk.cons hbd⟩

/-- If one order of the steps ends, every order ends there, after as many steps. -/
theorem Diamond.uniform (h : Walk R n a z) (h' : Walk R m a b) : ∃ k, m + k = n ∧ Walk R k b z := by
  induction h' with
  | nil => exact ⟨n, Nat.zero_add n, h⟩
  | snoc _ hstep ih =>
    obtain ⟨k, hk, hwalk⟩ := ih h
    obtain ⟨j, hj, hrest⟩ := hdiamond.after_step hend hwalk hstep
    exact ⟨j, by omega, hrest⟩

end Uniform

/-- A party of a conversation: it sends, or it waits until so many items have come. -/
inductive Proc (β ρ : Type) : Type where
  | ret (r : ρ)
  | send (items : List β) (next : Proc β ρ)
  | recv (count : Nat) (next : List β → Proc β ρ)

namespace Proc

variable {β ρ σ τ : Type}

def bind : Proc β ρ → (ρ → Proc β σ) → Proc β σ
  | .ret r, f => f r
  | .send items next, f => .send items (next.bind f)
  | .recv count next, f => .recv count fun items => (next items).bind f

instance : Monad (Proc β) where
  pure := .ret
  bind := Proc.bind

def put (items : List β) : Proc β Unit := .send items (.ret ())

def take (count : Nat) : Proc β (List β) := .recv count .ret

@[simp] theorem pure_bind (r : ρ) (f : ρ → Proc β σ) : (pure r : Proc β ρ) >>= f = f r := rfl

@[simp] theorem ret_bind (r : ρ) (f : ρ → Proc β σ) : (Proc.ret r : Proc β ρ) >>= f = f r := rfl

@[simp] theorem put_bind (items : List β) (f : Unit → Proc β σ) : put items >>= f = .send items (f ()) := rfl

@[simp] theorem take_bind (count : Nat) (f : List β → Proc β σ) : take count >>= f = .recv count f := rfl

@[simp] theorem send_bind (items : List β) (p : Proc β ρ) (f : ρ → Proc β σ) :
    Proc.send items p >>= f = .send items (p >>= f) := rfl

@[simp] theorem recv_bind (count : Nat) (k : List β → Proc β ρ) (f : ρ → Proc β σ) :
    Proc.recv count k >>= f = .recv count fun items => k items >>= f := rfl

theorem bind_assoc (p : Proc β ρ) (f : ρ → Proc β σ) (g : σ → Proc β τ) :
    p >>= f >>= g = p >>= fun r => f r >>= g := by
  induction p with
  | ret => rfl
  | send items next ih => rw [send_bind, send_bind, send_bind, ih]
  | recv count next ih =>
    rw [recv_bind, recv_bind, recv_bind]
    congr 1
    funext items
    exact ih items

/-- One item goes out or comes in; a party that returned goes on with `again`. -/
def step (again : ρ → Option (Proc β ρ)) :
    Proc β ρ → List β → List β → Option (Proc β ρ × List β × List β)
  | .ret r, inn, out => (again r).map fun p => (p, inn, out)
  | .send [] next, inn, out => some (next, inn, out)
  | .send (item :: items) next, inn, out => some (.send items next, inn, out ++ [item])
  | .recv 0 next, inn, out => some (next [], inn, out)
  | .recv (_ + 1) _, [], _ => none
  | .recv (count + 1) next, item :: inn, out => some (.recv count fun items => next (item :: items), inn, out)

variable {again : ρ → Option (Proc β ρ)}

/-- What comes later, or went out before, does not change a step. -/
theorem step_frame {p p' : Proc β ρ} {inn out inn' out' : List β} (h : p.step again inn out = some (p', inn', out'))
    (more : List β) : ∃ sent, out' = out ++ sent ∧
      ∀ out, p.step again (inn ++ more) out = some (p', inn' ++ more, out ++ sent) := by
  cases p with
  | ret r =>
    rw [step, Option.map_eq_some_iff] at h
    obtain ⟨q, hq, hpair⟩ := h
    cases hpair
    exact ⟨[], (List.append_nil out).symm, fun out => by rw [step, hq, List.append_nil]; rfl⟩
  | send items next =>
    cases items with
    | nil =>
      cases h
      exact ⟨[], (List.append_nil out).symm, fun out => by rw [step, List.append_nil]⟩
    | cons item items =>
      cases h
      exact ⟨[item], rfl, fun out => rfl⟩
  | recv count next =>
    cases count with
    | zero =>
      cases h
      exact ⟨[], (List.append_nil out).symm, fun out => by rw [step, List.append_nil]⟩
    | succ count =>
      cases inn with
      | nil => cases h
      | cons item inn =>
        cases h
        exact ⟨[], (List.append_nil out).symm, fun out => by rw [List.append_nil]; rfl⟩

/-- Any number of steps of one party. -/
def Moves (again : ρ → Option (Proc β ρ)) (p : Proc β ρ) (inn out : List β) (p' : Proc β ρ)
    (inn' out' : List β) : Prop :=
  Relation.ReflTransGen
    (fun a b : Proc β ρ × List β × List β => a.1.step again a.2.1 a.2.2 = some b) (p, inn, out) (p', inn', out')

theorem send_moves (items : List β) (next : Proc β ρ) (inn out : List β) :
    Moves again (.send items next) inn out next inn (out ++ items) := by
  induction items generalizing out with
  | nil =>
    rw [List.append_nil]
    exact .single rfl
  | cons item items ih =>
    rw [List.append_cons]
    exact .head rfl (ih _)

theorem recv_moves {items : List β} {count : Nat} (hcount : items.length = count) (next : List β → Proc β ρ)
    (inn out : List β) : Moves again (.recv count next) (items ++ inn) out (next items) inn out := by
  subst hcount
  induction items generalizing next with
  | nil => exact .single rfl
  | cons item items ih => exact .head rfl (ih fun items => next (item :: items))

theorem recv_all_moves {items : List β} {count : Nat} (hcount : items.length = count) (next : List β → Proc β ρ)
    (out : List β) : Moves again (.recv count next) items out (next items) [] out := by
  have h : Moves again (.recv count next) (items ++ []) out (next items) [] out := recv_moves hcount next [] out
  rwa [List.append_nil] at h

theorem recv_part_moves {items : List β} {count : Nat} {next : List β → Proc β ρ} {p : Proc β ρ}
    (hcount : count ≤ items.length) (hnext : next (items.take count) = p) (out : List β) :
    Moves again (.recv count next) items out p (items.drop count) out := by
  have h : Moves again (.recv count next) (items.take count ++ items.drop count) out (next (items.take count))
      (items.drop count) out := recv_moves (List.length_take_of_le hcount) next (items.drop count) out
  rwa [List.take_append_drop, hnext] at h

theorem recv_reply_moves {items : List β} {count : Nat} {next : List β → Proc β ρ} {p : Proc β ρ}
    (hcount : items.length = count) (hnext : next items = p) : Moves again (.recv count next) items [] p [] [] := by
  rw [← hnext]
  exact recv_all_moves hcount next []

/-- A party that has all it waits for and then answers. -/
theorem answer_moves {items reply : List β} {count : Nat} {next : List β → Proc β ρ} {r : ρ} {p : Proc β ρ}
    (hcount : items.length = count) (hnext : next items = .send reply (.ret r)) (hagain : again r = some p) :
    Moves again (.recv count next) items [] p [] reply := by
  have hsend : Moves again (.send reply (.ret r)) [] [] (.ret r) [] ([] ++ reply) := send_moves reply (.ret r) [] []
  have hend : Moves again (.ret r) [] ([] ++ reply) p [] ([] ++ reply) := by
    apply Relation.ReflTransGen.single
    rw [step, hagain]
    rfl
  have hrecv : Moves again (.recv count next) items [] (next items) [] [] := recv_all_moves hcount next []
  rw [hnext] at hrecv
  exact hrecv.trans (hsend.trans hend)

end Proc

/-- Two parties and what is under way between them; the server starts again when it is done. -/
structure Talk (β ρ σ : Type) where
  client : Proc β ρ
  server : Proc β σ
  up : List β
  down : List β

namespace Talk

variable {β ρ σ : Type} {again : σ → Option (Proc β σ)}

/-- One step of either party, in any order. -/
inductive Step (again : σ → Option (Proc β σ)) : Talk β ρ σ → Talk β ρ σ → Prop where
  | client {p p' : Proc β ρ} {q : Proc β σ} {up down up' down' : List β}
      (h : p.step (fun _ => none) down up = some (p', down', up')) : Step again ⟨p, q, up, down⟩ ⟨p', q, up', down'⟩
  | server {p : Proc β ρ} {q q' : Proc β σ} {up down up' down' : List β}
      (h : q.step again up down = some (q', up', down')) : Step again ⟨p, q, up, down⟩ ⟨p, q', up', down'⟩

theorem diamond : Diamond (Step again : Talk β ρ σ → Talk β ρ σ → Prop) := by
  intro a b c hb hc
  cases hb with
  | client hp =>
    cases hc with
    | client hp' =>
      rw [hp] at hp'
      cases hp'
      exact .inl rfl
    | server hq =>
      obtain ⟨sentUp, rfl, hclient⟩ := Proc.step_frame hp []
      obtain ⟨sentDown, rfl, -⟩ := Proc.step_frame hq []
      obtain ⟨_, hout, hserver⟩ := Proc.step_frame hq sentUp
      obtain rfl := List.append_cancel_left hout
      obtain ⟨_, hout, hclient⟩ := Proc.step_frame hp sentDown
      obtain rfl := List.append_cancel_left hout
      exact .inr ⟨_, .server (hserver _), .client (hclient _)⟩
  | server hq =>
    cases hc with
    | client hp =>
      obtain ⟨sentUp, rfl, hclient⟩ := Proc.step_frame hp []
      obtain ⟨sentDown, rfl, -⟩ := Proc.step_frame hq []
      obtain ⟨_, hout, hserver⟩ := Proc.step_frame hq sentUp
      obtain rfl := List.append_cancel_left hout
      obtain ⟨_, hout, hclient⟩ := Proc.step_frame hp sentDown
      obtain rfl := List.append_cancel_left hout
      exact .inr ⟨_, .client (hclient _), .server (hserver _)⟩
    | server hq' =>
      rw [hq] at hq'
      cases hq'
      exact .inl rfl

/-- One order of steps leads from one state to another. -/
abbrev Leads (again : σ → Option (Proc β σ)) : Talk β ρ σ → Talk β ρ σ → Prop := Relation.ReflTransGen (Step again)

variable {p p' : Proc β ρ} {q q' : Proc β σ} {up down up' down' : List β}

theorem client_moves (h : Proc.Moves (fun _ => none) p down up p' down' up') :
    Leads again ⟨p, q, up, down⟩ ⟨p', q, up', down'⟩ :=
  h.lift (fun a => (⟨a.1, q, a.2.2, a.2.1⟩ : Talk β ρ σ)) fun _ _ hstep => .client hstep

theorem server_moves (h : Proc.Moves again q up down q' up' down') :
    Leads again ⟨p, q, up, down⟩ ⟨p, q', up', down'⟩ :=
  h.lift (fun a => (⟨p, a.1, a.2.1, a.2.2⟩ : Talk β ρ σ)) fun _ _ hstep => .server hstep

/-- A request goes up, the server works on it, and its reply comes down. -/
theorem exchange {request reply rest : List β} {next : Proc β ρ}
    (hserver : Proc.Moves again q request [] q' [] reply)
    (hclient : Proc.Moves (fun _ => none) next reply [] p' rest []) :
    Leads again ⟨.send request next, q, [], []⟩ ⟨p', q', [], rest⟩ := by
  have hup : Leads again ⟨.send request next, q, [], []⟩ ⟨next, q, request, []⟩ :=
    client_moves (Proc.send_moves request next [] [])
  have hwork : Leads again ⟨next, q, request, []⟩ ⟨next, q', [], reply⟩ := server_moves hserver
  exact hup.trans (hwork.trans (client_moves hclient))

/-- Where one order of steps ends with the client done and the server waiting, every order does. -/
theorem every_order {r : ρ} {count : Nat} {next : List β → Proc β σ} {start : Talk β ρ σ}
    (h : Leads again start ⟨.ret r, .recv (count + 1) next, [], []⟩) :
    ∃ n, ∀ m c, Walk (Step again) m start c →
      ∃ k, m + k = n ∧ Walk (Step again) k c ⟨.ret r, .recv (count + 1) next, [], []⟩ := by
  obtain ⟨n, hwalk⟩ := exists_walk h
  refine ⟨n, fun m c hc => diamond.uniform (fun b hb => ?_) hwalk hc⟩
  cases hb with
  | client hp => cases hp
  | server hq => cases hq

end Talk

end Radare.Framework
