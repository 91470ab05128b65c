import TermGraph.Name.Ident

/-!
# Expressions of the target language

The trees that the translator produces.  `Expr.mkApp` and `Expr.mkLet` build an
application and a sequence of bindings without an empty or a nested argument
list.
-/

namespace TermGraph

namespace Target

/-- A named binder of a function or a definition. -/
structure Binder (τ : Type) where
  name : String
  type : τ
  implicit : Bool
  deriving DecidableEq, Repr

/-- A binder of a function type; one without a name stands before an arrow. -/
structure PiBinder (τ : Type) where
  name : Option String
  type : τ
  implicit : Bool
  deriving DecidableEq, Repr

/-- A binding of a name to a value. -/
structure Binding (τ : Type) where
  name : String
  type : Option τ
  value : τ
  deriving DecidableEq, Repr

/-- An expression. -/
inductive Expr where
  /-- An identifier, possibly dotted. -/
  | var (name : String)
  /-- An identifier whose implicit arguments are all given. -/
  | explicitVar (name : String)
  | app (fn : Expr) (args : List Expr)
  | lam (binders : List (Binder Expr)) (body : Expr)
  | pi (binders : List (PiBinder Expr)) (body : Expr)
  /-- Bindings, outermost first, each in the scope of the earlier ones. -/
  | letIn (bindings : List (Binding Expr)) (body : Expr)
  | ite (cond onTrue onFalse : Expr)
  | sort (level : Nat)
  | nat (value : Nat)
  | string (value : String)
  | list (elems : List Expr)
  /-- An expression with its type. -/
  | ascription (expr type : Expr)
  deriving Repr

instance : Inhabited Expr :=
  ⟨.sort 0⟩

/-- The part of a dotted name before the first dot. -/
def rootOf (name : String) : String :=
  String.ofList (name.toList.takeWhile (· ≠ '.'))

namespace Expr

/-- Applies an expression to arguments; the arguments of an application are
extended, and without arguments nothing is applied. -/
def mkApp (fn : Expr) (args : List Expr) : Expr :=
  if args.isEmpty then fn
  else
    match fn with
    | app fn front => app fn (front ++ args)
    | fn => app fn args

/-- Puts bindings around an expression, unless there are none. -/
def mkLet (bindings : List (Binding Expr)) (body : Expr) : Expr :=
  if bindings.isEmpty then body else letIn bindings body

/-- The expression that raises an error with a message. -/
def error (message : String) : Expr :=
  mkApp (var "error") [string message]

/-- Whether an expression needs no parentheses as an argument. -/
def isAtomic : Expr → Bool
  | var _ | explicitVar _ | nat _ | string _ | list _ | ascription _ _ => true
  | sort level => level = 0
  | _ => false

/-- The arguments of an application. -/
def args : Expr → List Expr
  | app _ args => args
  | _ => []

mutual

/-- The part before the first dot of every name that is referred to, in the
order of the references. -/
def roots : Expr → List String
  | var x | explicitVar x => [rootOf x]
  | app fn args => roots fn ++ rootsList args
  | lam binders body => rootsBinders binders ++ roots body
  | pi binders body => rootsPiBinders binders ++ roots body
  | letIn bindings body => rootsBindings bindings ++ roots body
  | ite c t e => roots c ++ roots t ++ roots e
  | list elems => rootsList elems
  | ascription e ty => roots e ++ roots ty
  | sort _ | nat _ | string _ => []

/-- `roots` of several expressions. -/
def rootsList : List Expr → List String
  | [] => []
  | e :: rest => roots e ++ rootsList rest

/-- `roots` of the types of binders. -/
def rootsBinders : List (Binder Expr) → List String
  | [] => []
  | ⟨_, ty, _⟩ :: rest => roots ty ++ rootsBinders rest

/-- `roots` of the types of binders of a function type. -/
def rootsPiBinders : List (PiBinder Expr) → List String
  | [] => []
  | ⟨_, ty, _⟩ :: rest => roots ty ++ rootsPiBinders rest

/-- `roots` of the types and values of bindings. -/
def rootsBindings : List (Binding Expr) → List String
  | [] => []
  | ⟨_, none, v⟩ :: rest => roots v ++ rootsBindings rest
  | ⟨_, some ty, v⟩ :: rest => roots ty ++ roots v ++ rootsBindings rest

end

end Expr

/-- A declaration. -/
inductive Decl where
  | definition (name : String) (params : List (Binder Expr)) (type : Option Expr)
      (body : Expr)
  /-- A name with a type and no body. -/
  | postulate (name : String) (type : Expr)
  /-- Text that is kept as it is. -/
  | snippet (text : String)
  | comment (text : String)
  deriving Repr

namespace Decl

/-- The name that a declaration introduces. -/
def name? : Decl → Option String
  | definition name _ _ _ | postulate name _ => some name
  | snippet _ | comment _ => none

end Decl

end Target

end TermGraph
