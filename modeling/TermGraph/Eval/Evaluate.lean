import TermGraph.Eval.Primitive
import TermGraph.Term.Inspect
import TermGraph.Term.Occurrences

/-!
# Evaluation of terms

Evaluation is strict.  The value of a bound variable is looked up in an
environment, and types have no value of interest.  Two things are computed only
once: a shared closed node within one evaluation, and the body of a constant
until a free variable is bound anew.

A conditional with all of its arguments is the exception to strictness: when its
condition comes out as a known bit, only the branch that it picks is evaluated.

Evaluation calls itself in three ways, for terms, for function values and for
stream elements.  `evalStep`, `applyStep` and `elementStep` say what one call
does in terms of the calls that it makes; `Evaluator.eval`, `Evaluator.apply`
and `Evaluator.element` tie the knot, and each call takes one unit of fuel.
-/

namespace TermGraph

section Steps

open EvalM (fail)

variable {β : Type} [BitLike β] [DecidableEq β]

/-- Calls a primitive once it has all of its arguments. -/
def callPrimitive (calls : Calls β) (prim : Ident) (args : List (Value β)) :
    EvalM β (Value β) := do
  match (← getThe (Evaluator β)).primitives[prim]? with
  | none => fail (.unknownPrimitive prim)
  | some p =>
      if args.length < p.arity then return .partialApp prim args
      else
        match p.implementation with
        | .builtin op => Primitive.run calls op args
        | .host fn =>
            modifyThe (Evaluator β) fun ev => { ev with hostCalls := ev.hostCalls + 1 }
            EvalM.ofExcept (fn args)

/-- The value of a name that is overridden or a primitive. -/
def evalGlobal (calls : Calls β) (ident : Ident) : EvalM β (Value β) := do
  match (← getThe (Evaluator β)).overrides[ident]? with
  | some v => return v
  | none => callPrimitive calls ident []

/-- The value of a constant: what overrides it, or else its body. -/
def evalConstant (calls : Calls β) (ident : Ident) (body : Option TermId) :
    EvalM β (Value β) := do
  let ev ← getThe (Evaluator β)
  match ev.overrides[ident]?, body with
  | some v, _ => return v
  | none, some body =>
      match ev.constants[body]? with
      | some v => return v
      | none =>
          let v ← calls.eval body []
          modifyThe (Evaluator β) fun ev =>
            { ev with constants := ev.constants.insert body v }
          return v
  | none, none => evalGlobal calls ident

/-- Applies a function value to arguments, one after the other. -/
def applyArgs (calls : Calls β) (fn : Value β) (args : List (Value β)) : EvalM β (Value β) :=
  args.foldlM calls.apply fn

/-- The arguments of a conditional that has all of them. -/
def conditionalArgs? (s : Store) (id : TermId) :
    Option (TermId × TermId × TermId × TermId) :=
  match s.spine id with
  | (head, [ty, c, t, e]) =>
      if s.asGlobal? head = some (.prelude "ite") then some (ty, c, t, e) else none
  | _ => none

/-- A conditional whose name is not overridden. -/
def evalConditional (calls : Calls β) (env : Env β) (ty c t e : TermId) :
    EvalM β (Value β) := do
  let cond ← calls.eval c env
  match cond.asBit?.bind BitLike.asLit? with
  | some b => calls.eval (if b then t else e) env
  | none =>
      let ite ← evalGlobal calls (.prelude "ite")
      let ty ← calls.eval ty env
      let t ← calls.eval t env
      let e ← calls.eval e env
      applyArgs calls ite [ty, cond, t, e]

/-- An application. -/
def evalApp (s : Store) (calls : Calls β) (id fn arg : TermId) (env : Env β) :
    EvalM β (Value β) := do
  let strict := do
    let fn ← calls.eval fn env
    let arg ← calls.eval arg env
    calls.apply fn arg
  match conditionalArgs? s id with
  | none => strict
  | some (ty, c, t, e) =>
      if (← getThe (Evaluator β)).overrides.contains (.prelude "ite") then strict
      else evalConditional calls env ty c t e

/-- A part of a pair. -/
def evalProjection (op : String) (part : Value β × Value β → Value β) (v : Value β) :
    Except EvalError (Value β) :=
  match v with
  | .pair a b => .ok (part (a, b))
  | v => .error (.wrongKind op .pair v.kind)

/-- A field of a record. -/
def evalField (field : String) (v : Value β) : Except EvalError (Value β) :=
  match v with
  | .record fields =>
      match fields.find? fun p => p.1 = field with
      | some p => .ok p.2
      | none => .error (.missingField field)
  | v => .error (.wrongKind (EvalError.projectionName field) .record v.kind)

/-- The vector of an array literal: the empty one is a word if its elements are
booleans. -/
def arrayValue (s : Store) (elemType : TermId) (elems : List (Value β)) : Value β :=
  if elems.isEmpty && s.asGlobal? elemType = some (.prelude "Bool") then .word []
  else .ofElems elems

/-- The value of a node in an environment. -/
def evalNode (s : Store) (calls : Calls β) (id : TermId) (env : Env β) : EvalM β (Value β) :=
  match s.node id with
  | .global ident => evalGlobal calls ident
  | .constant ident _ body => evalConstant calls ident body
  | .free name _ => do
      match (← getThe (Evaluator β)).freeValues[id]? with
      | some v => return v
      | none => fail (.unboundVariable name)
  | .bound i =>
      match env[i]? with
      | some v => return v
      | none => fail (.unboundIndex i)
  | .sort _ _ | .unitType | .pairType _ _ | .recordType _ | .data _ _ _ | .pi _ _ _ =>
      return .type
  | .nat n => return .nat n
  | .string t => return .string t
  | .bool b => return .bool (BitLike.lit b)
  | .unit => return .unit
  | .app fn arg => evalApp s calls id fn arg env
  | .pair a b => do
      let a ← calls.eval a env
      return .pair a (← calls.eval b env)
  | .pairLeft p => do
      EvalM.ofExcept (evalProjection "left projection" (·.1) (← calls.eval p env))
  | .pairRight p => do
      EvalM.ofExcept (evalProjection "right projection" (·.2) (← calls.eval p env))
  | .record fields => do
      return .ofFields (← fields.mapM fun p => do return (p.1, ← calls.eval p.2 env))
  | .proj r field => do EvalM.ofExcept (evalField field (← calls.eval r env))
  | .array elemType elems => do
      return arrayValue s elemType (← elems.mapM fun e => calls.eval e env)
  | .ctor ident _ args => do return .ctor ident (← args.mapM fun a => calls.eval a env)
  | .lam _ _ _ => return .closure id env
  | .letIn _ _ v body => do
      let v ← calls.eval v env
      calls.eval body (v :: env)
  | .recursor datatype _ _ _ _ => fail (.unsupported (.recursor datatype))
  | .fix name _ _ => fail (.unsupported (.fixpoint name))

/-- The value of a term in an environment; that of a shared node is looked up
first and kept afterwards. -/
def evalStep (s : Store) (calls : Calls β) (id : TermId) (env : Env β) : EvalM β (Value β) := do
  let ev ← getThe (Evaluator β)
  if ev.shared.contains id then
    match ev.memo[id]? with
    | some v => return v
    | none =>
        let v ← evalNode s calls id env
        modifyThe (Evaluator β) fun ev => { ev with memo := ev.memo.insert id v }
        return v
  else evalNode s calls id env

/-- The result of a function value on an argument. -/
def applyStep (s : Store) (calls : Calls β) (fn arg : Value β) : EvalM β (Value β) :=
  match fn with
  | .closure lambda env =>
      match s.node lambda with
      | .lam _ _ body => calls.eval body (arg :: env)
      | _ => fail .brokenClosure
  | .partialApp prim args => callPrimitive calls prim (args ++ [arg])
  | .funMux c t e => do
      let t ← calls.apply t arg
      let e ← calls.apply e arg
      EvalM.ofMerge (Value.mux c t e)
  | .type => return .type
  | v => fail (.notAFunction v.kind)

/-- The element of a stream at an index: the remembered one, or else the one
from its source, which is then remembered. -/
def elementStep (calls : Calls β) (id : StreamId) (n : Nat) : EvalM β (Value β) := do
  let heap := (← getThe (Evaluator β)).heap
  match heap.element? id n with
  | some v => return v
  | none =>
      let v ←
        match heap.source? id with
        | some (.generator fn) => calls.apply fn (.nat n)
        | some (.mux c t e) => do
            let t ← calls.element t n
            let e ← calls.element e n
            EvalM.ofMerge (Value.mux c t e)
        | none => fail (.notAFunction .stream)
      modifyThe (Evaluator β) fun ev => { ev with heap := ev.heap.remember id n v }
      return v

end Steps

namespace Evaluator

variable {β : Type} [BitLike β] [DecidableEq β]

mutual

/-- The value of a term in an environment. -/
def eval (s : Store) : Nat → TermId → Env β → EvalM β (Value β)
  | 0, _, _ => throw .outOfFuel
  | fuel + 1, id, env => evalStep s ⟨eval s fuel, apply s fuel, element s fuel⟩ id env

/-- The result of a function value on an argument. -/
def apply (s : Store) : Nat → Value β → Value β → EvalM β (Value β)
  | 0, _, _ => throw .outOfFuel
  | fuel + 1, fn, arg => applyStep s ⟨eval s fuel, apply s fuel, element s fuel⟩ fn arg

/-- The element of a stream at an index. -/
def element (s : Store) : Nat → StreamId → Nat → EvalM β (Value β)
  | 0, _, _ => throw .outOfFuel
  | fuel + 1, id, n => elementStep ⟨eval s fuel, apply s fuel, element s fuel⟩ id n

end

/-- The calls that evaluation makes with some fuel left. -/
def calls (s : Store) (fuel : Nat) : Calls β :=
  ⟨eval s fuel, apply s fuel, element s fuel⟩

/-- The value of a closed term.  What an earlier evaluation kept of shared nodes
is forgotten. -/
def evaluate (s : Store) (fuel : Nat) (root : TermId) : EvalM β (Value β) := do
  modifyThe (Evaluator β) (startPass (s.sharedTerms root s.isMemoizable))
  eval s fuel root []

/-- Applies a function value to arguments, one after the other. -/
def applyAll (s : Store) (fuel : Nat) (fn : Value β) (args : List (Value β)) :
    EvalM β (Value β) :=
  applyArgs (calls s fuel) fn args

/-- Calls a built-in directly, whatever number of arguments it waits for. -/
def runBuiltin (s : Store) (fuel : Nat) (op : Builtin) (args : List (Value β)) :
    EvalM β (Value β) :=
  Primitive.run (calls s fuel) op args

end Evaluator

end TermGraph
