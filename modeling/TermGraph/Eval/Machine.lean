import Std.Data.HashMap
import Std.Data.HashSet
import TermGraph.Eval.Builtin
import TermGraph.Value.Mux

/-!
# The state of an evaluator

What an evaluator keeps between evaluations: the primitives and the values that
replace globals, the values of free variables, and what it has computed so far.
Values of shared nodes are kept for one evaluation, values of constant bodies
until a free variable gets a new value, and stream elements for good.  An
evaluation that fails keeps what it has computed until then.

Evaluation may run forever, so it is given fuel; running out of fuel is kept
apart from the errors of the term.
-/

namespace TermGraph

/-- The implementation of a primitive. -/
inductive Implementation (β : Type) where
  | builtin (op : Builtin)
  /-- A function supplied from outside. -/
  | host (fn : List (Value β) → Except EvalError (Value β))

/-- A primitive: the number of arguments it waits for, and what it does then. -/
structure Primitive (β : Type) where
  arity : Nat
  implementation : Implementation β

/-- Why an evaluation stops without a value. -/
inductive Stop where
  | fault (error : EvalError)
  | outOfFuel
  deriving DecidableEq, Repr

/-- The state of an evaluator. -/
structure Evaluator (β : Type) where
  primitives : Std.HashMap Ident (Primitive β)
  /-- Values that replace globals and constants by name. -/
  overrides : Std.HashMap Ident (Value β)
  /-- Values of free variables. -/
  freeValues : Std.HashMap TermId (Value β)
  /-- The nodes whose values the current evaluation keeps. -/
  shared : Std.HashSet TermId
  /-- The values of shared nodes. -/
  memo : Std.HashMap TermId (Value β)
  /-- The values of constant bodies. -/
  constants : Std.HashMap TermId (Value β)
  heap : Heap β
  /-- How often primitives supplied from outside were called. -/
  hostCalls : Nat

namespace Evaluator

variable {β : Type}

/-- The primitives of the Prelude. -/
def defaultPrimitives : Std.HashMap Ident (Primitive β) :=
  Builtin.table.foldl
    (fun m row => m.insert (.prelude row.1) ⟨row.2.1, .builtin row.2.2⟩) ∅

/-- An evaluator with the primitives of the Prelude that has computed nothing. -/
def new : Evaluator β where
  primitives := defaultPrimitives
  overrides := ∅
  freeValues := ∅
  shared := ∅
  memo := ∅
  constants := ∅
  heap := .empty
  hostCalls := 0

instance : Inhabited (Evaluator β) :=
  ⟨new⟩

/-- Replaces a global or constant by a value. -/
def addOverride (ident : Ident) (v : Value β) (ev : Evaluator β) : Evaluator β :=
  { ev with overrides := ev.overrides.insert ident v }

/-- Sets the implementation of a primitive. -/
def registerPrimitive (ident : Ident) (p : Primitive β) (ev : Evaluator β) : Evaluator β :=
  { ev with primitives := ev.primitives.insert ident p }

/-- Gives a free variable a value; the values of constant bodies may depend on
it and are forgotten. -/
def bindVariable (id : TermId) (v : Value β) (ev : Evaluator β) : Evaluator β :=
  { ev with freeValues := ev.freeValues.insert id v, constants := ∅ }

/-- Starts an evaluation that keeps the values of the given nodes. -/
def startPass (shared : List TermId) (ev : Evaluator β) : Evaluator β :=
  { ev with memo := ∅, shared := Std.HashSet.ofList shared }

end Evaluator

/-- A computation with an evaluator.  Its state survives a failure. -/
abbrev EvalM (β : Type) : Type → Type :=
  ExceptT Stop (StateM (Evaluator β))

namespace EvalM

variable {β α : Type}

/-- Fails with an error of the term. -/
def fail (e : EvalError) : EvalM β α :=
  throw (.fault e)

/-- A computation that needs no evaluator. -/
def ofExcept : Except EvalError α → EvalM β α
  | .ok a => pure a
  | .error e => fail e

/-- A computation that may add streams. -/
def ofMerge (m : Merge β α) : EvalM β α := do
  let ev ← getThe (Evaluator β)
  match m.run ev.heap with
  | .ok (a, heap) =>
      set { ev with heap := heap }
      return a
  | .error e => fail e

end EvalM

end TermGraph
