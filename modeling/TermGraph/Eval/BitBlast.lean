import TermGraph.Bits.Anf
import TermGraph.Eval.Evaluate

/-!
# Bit-blasting

A first-order term becomes formulas over input variables: every argument of its
type and every free variable is given a value made of fresh inputs, and the term
is evaluated on them.  The shape of a type says how many inputs a value takes
and how they are arranged; inputs are numbered in the order in which they stand
in the flattened values.
-/

namespace TermGraph

/-- A first-order type that input bits can fill. -/
inductive Shape where
  | bool
  | word (width : Nat)
  | vector (length : Nat) (elem : Shape)
  | pair (left right : Shape)
  /-- A record, its fields in ascending order of their names. -/
  | record (fields : List (String × Shape))
  | unit
  deriving Repr, Inhabited

namespace Shape

mutual

/-- The number of input bits that a value takes. -/
def width : Shape → Nat
  | bool => 1
  | word n => n
  | vector n elem => n * width elem
  | pair a b => width a + width b
  | record fields => widthFields fields
  | unit => 0

/-- The number of input bits that the fields of a record take. -/
def widthFields : List (String × Shape) → Nat
  | [] => 0
  | (_, shape) :: rest => width shape + widthFields rest

end

/-- A length that fits a machine word. -/
def length? (s : Store) (id : TermId) : Option Nat := do
  let n ← s.asNat? id
  if n < Primitive.lengthLimit then some n else none

/-- The shape of a type. -/
def ofType (s : Store) (type : TermId) : Except EvalError Shape :=
  let refused := EvalError.unsupported (.argumentType type)
  -- A part is always older than its node.
  let part (c : TermId) : Except EvalError Shape :=
    if _ : c < type then ofType s c else throw refused
  match s.node type with
  | .unitType => return unit
  | .pairType a b => do
      let a ← part a
      return pair a (← part b)
  | .recordType fields => do
      return record (← (Value.sortFields fields).mapM fun p => do return (p.1, ← part p.2))
  | .global i => if i = .prelude "Bool" then return bool else throw refused
  | .app _ elem =>
      match s.spine type with
      | (head, [length, _]) =>
          if s.asGlobal? head = some (.prelude "Vec") then
            match length? s length with
            | none => throw refused
            | some n => do
                match ← part elem with
                | bool => return word n
                | shape => return vector n shape
          else throw refused
      | _ => throw refused
  | _ => throw refused
termination_by type

end Shape

/-- A computation that hands out input variables in order. -/
abbrev Fresh : Type → Type :=
  StateT Nat (Except EvalError)

namespace Fresh

variable {β : Type} [BitLike β]

/-- The next input variable. -/
def bit : Fresh β := do
  let i ← get
  let b ← (BitLike.var i : Except EvalError β)
  set (i + 1)
  return b

/-- The results of a computation run a number of times. -/
def times {α : Type} (m : Fresh α) : Nat → Fresh (List α)
  | 0 => return []
  | n + 1 => do
      let a ← m
      return a :: (← times m n)

mutual

/-- A value of a shape made of the next input variables. -/
def value : Shape → Fresh (Value β)
  | .bool => do return .bool (← bit)
  | .word n => do return .word (← times bit n)
  | .vector n elem => do return .vector (← times (value elem) n)
  | .pair a b => do
      let a ← value a
      return .pair a (← value b)
  | .record fields => do return .record (← valueFields fields)
  | .unit => return .unit

/-- `value` field by field. -/
def valueFields : List (String × Shape) → Fresh (List (String × Value β))
  | [] => return []
  | (x, shape) :: rest => do
      let v ← value shape
      return (x, v) :: (← valueFields rest)

end

end Fresh

/-- The result of bit-blasting. -/
structure BitBlast (β : Type) where
  /-- The arguments and then the free variables, by name, with the values that
  stand for them. -/
  inputs : List (String × Value β)
  output : Value β

namespace Value

variable {β : Type}

mutual

/-- The bits of a first-order value, in order. -/
def flatten : Value β → Except EvalError (List β)
  | bool b => .ok [b]
  | word bits | toNat bits => .ok bits
  | vector elems => flattenList elems
  | pair a b => do
      let a ← flatten a
      return a ++ (← flatten b)
  | record fields => flattenFields fields
  | unit => .ok []
  | int _ => .error (.unsupported (.outputKind .integer))
  | nat _ => .error (.unsupported (.outputKind .natural))
  | ctor _ _ => .error (.unsupported (.outputKind .constructor))
  | closure _ _ | partialApp _ _ | funMux _ _ _ =>
      .error (.unsupported (.outputKind .function))
  | type => .error (.unsupported (.outputKind .type))
  | string _ => .error (.unsupported (.outputKind .string))
  | stream _ => .error (.unsupported (.outputKind .stream))

/-- `flatten` element by element. -/
def flattenList : List (Value β) → Except EvalError (List β)
  | [] => .ok []
  | a :: as => do
      let a ← flatten a
      return a ++ (← flattenList as)

/-- `flatten` field by field. -/
def flattenFields : List (String × Value β) → Except EvalError (List β)
  | [] => .ok []
  | (_, a) :: as => do
      let a ← flatten a
      return a ++ (← flattenFields as)

end

end Value

namespace BitBlast

variable {β : Type}

/-- The bits of the output, in order. -/
def outputBits (r : BitBlast β) : Except EvalError (List β) :=
  r.output.flatten

/-- The name of an input for an argument; an anonymous one is numbered. -/
def argumentName (i : Nat) (x : String) : String :=
  if x = "_" then "arg" ++ toString i else x

variable [BitLike β]

/-- The inputs for the arguments of a function type. -/
def argumentInputs (s : Store) (params : List (String × TermId)) :
    Fresh (List (String × Value β)) :=
  params.zipIdx.mapM fun ((x, type), i) => do
    if s.isClosed type then
      let v ← Fresh.value (← Shape.ofType s type)
      return (argumentName i x, v)
    else throw (.unsupported (.dependentArgumentType type))

/-- The inputs for free variables, each with its identity. -/
def variableInput (s : Store) (id : TermId) : Fresh (String × Value β) := do
  match s.node id with
  | .free x type => return (x, ← Fresh.value (← Shape.ofType s type))
  | _ => throw (.unsupported (.argumentType id))

end BitBlast

namespace Evaluator

variable {β : Type} [BitLike β] [DecidableEq β]

/-- Hands out input variables within an evaluation, from `next` on. -/
def fresh {α : Type} (m : Fresh α) (next : Nat) : EvalM β (α × Nat) :=
  EvalM.ofExcept (m.run next)

/-- Gives each free variable a value made of input variables. -/
def bindInputs (s : Store) : List TermId → Nat → EvalM β (List (String × Value β))
  | [], _ => return []
  | id :: rest, next => do
      let ((x, v), next) ← fresh (BitBlast.variableInput s id) next
      modifyThe (Evaluator β) (bindVariable id v)
      return (x, v) :: (← bindInputs s rest next)

/-- Evaluates a term of a type on fresh input variables. -/
def bitBlast (s : Store) (fuel : Nat) (term type : TermId) : EvalM β (BitBlast β) := do
  let (args, next) ← fresh (BitBlast.argumentInputs s (s.piChain type).1) 0
  let free ← bindInputs s (s.freeVariables term) next
  let fn ← evaluate s fuel term
  let output ← applyAll s fuel fn (args.map (·.2))
  return ⟨args ++ free, output⟩

end Evaluator

end TermGraph
