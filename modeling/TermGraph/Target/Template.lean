import TermGraph.Target.Expr

/-!
# Templates

A template is an expression with holes, numbered from zero, and an instance of
it has an argument in every hole.  Applications and bindings that are marked as
merging are built anew for each instance, so an argument that is an application
itself is extended by the arguments around it.
-/

namespace TermGraph

namespace Target

/-- An expression with holes. -/
inductive Template where
  /-- The argument of a number. -/
  | hole (index : Nat)
  | var (name : String)
  | explicitVar (name : String)
  | app (fn : Template) (args : List Template)
  /-- An application that merges with one in its head. -/
  | mergedApp (fn : Template) (args : List Template)
  | lam (binders : List (Binder Template)) (body : Template)
  | pi (binders : List (PiBinder Template)) (body : Template)
  | letIn (bindings : List (Binding Template)) (body : Template)
  /-- Bindings that vanish when there are none. -/
  | mergedLet (bindings : List (Binding Template)) (body : Template)
  | ite (cond onTrue onFalse : Template)
  | sort (level : Nat)
  | nat (value : Nat)
  | string (value : String)
  | list (elems : List Template)
  | ascription (expr type : Template)
  deriving Repr

instance : Inhabited Template :=
  ⟨.sort 0⟩

/-- What stands in a hole that has no argument of its own. -/
def blankName : String :=
  "_"

namespace Template

mutual

/-- The instance of a template with the given arguments. -/
def instantiate (args : List Expr) : Template → Expr
  | hole i => args.getD i (.var blankName)
  | var x => .var x
  | explicitVar x => .explicitVar x
  | app fn ts => .app (instantiate args fn) (instantiateList args ts)
  | mergedApp fn ts => .mkApp (instantiate args fn) (instantiateList args ts)
  | lam binders body => .lam (instantiateBinders args binders) (instantiate args body)
  | pi binders body => .pi (instantiatePiBinders args binders) (instantiate args body)
  | letIn bindings body => .letIn (instantiateBindings args bindings) (instantiate args body)
  | mergedLet bindings body =>
      .mkLet (instantiateBindings args bindings) (instantiate args body)
  | ite c t e => .ite (instantiate args c) (instantiate args t) (instantiate args e)
  | sort level => .sort level
  | nat n => .nat n
  | string s => .string s
  | list ts => .list (instantiateList args ts)
  | ascription e ty => .ascription (instantiate args e) (instantiate args ty)

/-- `instantiate` of several templates. -/
def instantiateList (args : List Expr) : List Template → List Expr
  | [] => []
  | t :: rest => instantiate args t :: instantiateList args rest

/-- `instantiate` of the types of binders. -/
def instantiateBinders (args : List Expr) : List (Binder Template) → List (Binder Expr)
  | [] => []
  | ⟨x, ty, implicit⟩ :: rest =>
      ⟨x, instantiate args ty, implicit⟩ :: instantiateBinders args rest

/-- `instantiate` of the types of binders of a function type. -/
def instantiatePiBinders (args : List Expr) :
    List (PiBinder Template) → List (PiBinder Expr)
  | [] => []
  | ⟨x, ty, implicit⟩ :: rest =>
      ⟨x, instantiate args ty, implicit⟩ :: instantiatePiBinders args rest

/-- `instantiate` of the types and values of bindings. -/
def instantiateBindings (args : List Expr) : List (Binding Template) → List (Binding Expr)
  | [] => []
  | ⟨x, none, v⟩ :: rest => ⟨x, none, instantiate args v⟩ :: instantiateBindings args rest
  | ⟨x, some ty, v⟩ :: rest =>
      ⟨x, some (instantiate args ty), instantiate args v⟩ :: instantiateBindings args rest

end

/-- The roots of the names that a template puts around `arity` arguments. -/
def roots (t : Template) (arity : Nat) : List String :=
  (t.instantiate (List.replicate arity (.var blankName))).roots.filter (· ≠ blankName)

end Template

end Target

end TermGraph
