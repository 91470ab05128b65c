import Mathlib
import TermGraph.Proofs.Eval.Plain

/-!
# Reference evaluators

What an evaluator keeps is judged by an evaluator that keeps nothing itself.  It may be given
values of nodes and of constant bodies and elements of streams that it takes as they are: the
ones that were kept when the calls in question began.  Given nothing, it is the evaluator that
never memoizes anything.
-/

namespace TermGraph

variable {β : Type}

/-- What is kept when some calls begin. -/
structure Given (β : Type) where
  nodes : TermId → Option (Value β)
  constants : TermId → Option (Value β)
  elements : StreamId → Nat → Option (Value β)

namespace Given

/-- Nothing is kept. -/
def none : Given β :=
  ⟨fun _ => .none, fun _ => .none, fun _ _ => .none⟩

variable [BitLike β] [DecidableEq β]

/-- The value of the body of a constant: the given one, or else evaluated anew. -/
def body (g : Given β) (calls : Calls β) (body : TermId) : EvalM β (Value β) :=
  match g.constants body with
  | some v => return v
  | .none => calls.eval body []

/-- The value of a constant: what overrides it, or else its body. -/
def constant (g : Given β) (calls : Calls β) (ident : Ident) (body : Option TermId) :
    EvalM β (Value β) := do
  match (← getThe (Evaluator β)).overrides[ident]?, body with
  | some v, _ => return v
  | .none, some body => g.body calls body
  | .none, .none => evalGlobal calls ident

/-- The value of a term in an environment: the given one, or else evaluated anew. -/
def step (g : Given β) (s : Store) (calls : Calls β) (id : TermId) (env : Env β) :
    EvalM β (Value β) :=
  match g.nodes id with
  | some v => return v
  | .none =>
      match s.node id with
      | .constant ident _ body => g.constant calls ident body
      | _ => evalNode s calls id env

/-- The element of a stream: the given one, or else from its source. -/
def element (g : Given β) (calls : Calls β) (i : StreamId) (n : Nat) : EvalM β (Value β) :=
  match g.elements i n with
  | some v => return v
  | .none => sourceElement calls i n

/-- The calls of an evaluator that takes what is given and keeps nothing, with some fuel
left. -/
def calls (g : Given β) (s : Store) : Nat → Calls β
  | 0 => ⟨fun _ _ => throw .outOfFuel, fun _ _ => throw .outOfFuel, fun _ _ => throw .outOfFuel⟩
  | fuel + 1 =>
      let calls := g.calls s fuel
      ⟨g.step s calls, applyStep s calls, g.element calls⟩

theorem constant_eq_plainConstant {g : Given β} (h : ∀ body, g.constants body = .none)
    (calls : Calls β) (ident : Ident) (body : Option TermId) :
    g.constant calls ident body = plainConstant calls ident body := by
  have hbody (body : TermId) : g.body calls body = calls.eval body [] := by
    rw [Given.body, h]
  refine EvalM.ext fun ev => ?_
  rw [constant, plainConstant, EvalM.exec_bind_ok (EvalM.exec_get ev),
    EvalM.exec_bind_ok (EvalM.exec_get ev)]
  cases ev.overrides[ident]? with
  | some v => rfl
  | none =>
      cases body with
      | none => rfl
      | some body => exact congrArg (EvalM.exec · ev) (hbody body)

/-- Where no value is given, nodes are evaluated anew. -/
theorem step_eq_plainStep {g : Given β} {id : TermId} (hnode : g.nodes id = .none)
    (hconstants : ∀ body, g.constants body = .none) (s : Store) (calls : Calls β) (env : Env β) :
    g.step s calls id env = plainStep s calls id env := by
  unfold step plainStep
  rw [hnode]
  cases s.node id with
  | constant ident ty body => exact constant_eq_plainConstant hconstants calls ident body
  | _ => rfl

theorem element_eq_sourceElement {g : Given β} {i : StreamId} {n : Nat}
    (h : g.elements i n = .none) (calls : Calls β) :
    g.element calls i n = sourceElement calls i n := by
  rw [element, h]

end Given

/-- The side of an evaluator that keeps nothing: its states need no more than a setting. -/
def bareSide (c : Setting β) : Side c where
  view := .all
  Holds ev := ev.setting = c
  setting_eq h := h
  start_le _ := Nat.zero_le _
  adds h _ := h
  counts h := h

variable [BitLike β] [DecidableEq β]

/-- An evaluator that takes what is given as it is and keeps nothing itself, with the states
that it may be in. -/
structure Reference (s : Store) (c : Setting β) where
  given : Given β
  side : Side c
  calls : Nat → Calls β
  zero : calls 0 =
    ⟨fun _ _ => throw .outOfFuel, fun _ _ => throw .outOfFuel, fun _ _ => throw .outOfFuel⟩
  eval_succ : ∀ n id env, (calls (n + 1)).eval id env = given.step s (calls n) id env
  apply_succ : ∀ n fn arg, (calls (n + 1)).apply fn arg = applyStep s (calls n) fn arg
  element_succ : ∀ n i k, (calls (n + 1)).element i k = given.element (calls n) i k
  /-- What may be kept makes no difference to the states. -/
  holds_of : ∀ {ev ev'}, side.Holds ev → ev'.setting = ev.setting →
    ev'.heap.cells.size = ev.heap.cells.size → (∀ i, ev'.heap.source? i = ev.heap.source? i) →
    side.Holds ev'
  /-- Elements are given of streams that are kept from before. -/
  kept : ∀ {i n ev}, side.Holds ev → given.elements i n ≠ none → (side.sources ev).kept i

/-- The evaluator that never keeps anything. -/
def bareReference (s : Store) (c : Setting β) : Reference s c where
  given := .none
  side := bareSide c
  calls := bareCalls s
  zero := rfl
  eval_succ n _ env :=
    (Given.step_eq_plainStep (g := .none) rfl (fun _ => rfl) s (bareCalls s n) env).symm
  apply_succ _ _ _ := rfl
  element_succ _ _ _ := rfl
  holds_of h hset _ _ := hset.trans h
  kept _ h := absurd rfl h

/-- Whether an evaluator looks up what is given. -/
structure Keeps.Covers (p : Keeps) (g : Given β) : Prop where
  nodes : p.nodes = true ∨ (∀ id, g.nodes id = none) ∧ ∀ body, g.constants body = none
  elements : p.elements = true ∨ ∀ i n, g.elements i n = none

omit [BitLike β] [DecidableEq β] in
theorem Keeps.covers_none (p : Keeps) : p.Covers (Given.none : Given β) :=
  ⟨.inr ⟨fun _ => rfl, fun _ => rfl⟩, .inr fun _ _ => rfl⟩

end TermGraph
