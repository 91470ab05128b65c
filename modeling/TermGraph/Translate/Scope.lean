import Std.Data.HashMap
import Std.Data.HashSet
import TermGraph.Name.Sanitize
import TermGraph.Name.Variant
import TermGraph.Order.Unique
import TermGraph.Target.Reserved
import TermGraph.Term.Inspect
import TermGraph.Translate.Error
import TermGraph.Translate.Options
import TermGraph.Translate.Treatment

/-!
# What the translator knows

The configuration is fixed.  An `Emission` holds what a module pass has produced
so far and is only ever added to.  A `Scope` belongs to one place of a term: the
names of the bound variables there, the names that a new binder has to avoid,
and the names of shared subterms.

A unit is a term or a definition that is translated on its own.  Its scope
starts with every name that its target tree can refer to without binding it, so
no binder ever takes such a name.
-/

namespace TermGraph

open Target

/-- The fixed inputs of the translator. -/
structure Config where
  /-- The names of this module are written without their module. -/
  currentModule : ModuleName
  table : TreatmentTable
  options : Options

/-- What a module pass has produced. -/
structure Emission where
  /-- The declarations, in order. -/
  declarations : Array Decl
  /-- The identifiers whose definitions have been dealt with. -/
  handled : Std.HashSet Ident
  /-- The names of the declarations. -/
  names : Std.HashSet String

namespace Emission

/-- The start of a module pass in which some definitions exist already. -/
def startingWith (handled : List Ident) : Emission :=
  ⟨#[], .ofList handled, ∅⟩

/-- The start of a module pass. -/
def empty : Emission :=
  startingWith []

instance : Inhabited Emission :=
  ⟨empty⟩

/-- Whether the definition of an identifier has been dealt with. -/
def isHandled (e : Emission) (ident : Ident) : Bool :=
  e.handled.contains ident

/-- Notes that the definition of an identifier has been dealt with. -/
def handle (ident : Ident) (e : Emission) : Emission :=
  { e with handled := e.handled.insert ident }

/-- Adds a declaration. -/
def push (d : Decl) (e : Emission) : Emission :=
  let names := match d.name? with
    | some x => e.names.insert x
    | none => e.names
  { e with declarations := e.declarations.push d, names := names }

end Emission

/-- A point that a module pass can go back to. -/
structure Checkpoint where
  /-- The number of declarations. -/
  count : Nat
  handled : Std.HashSet Ident
  names : Std.HashSet String

namespace Emission

/-- The point that a module pass has come to. -/
def checkpoint (e : Emission) : Checkpoint :=
  ⟨e.declarations.size, e.handled, e.names⟩

/-- Goes back to a point, which leaves the declarations that there were then. -/
def rollback (c : Checkpoint) (e : Emission) : Emission :=
  ⟨e.declarations.take c.count, c.handled, c.names⟩

end Emission

namespace Config

/-- The target spelling of an identifier that keeps its name. -/
def qualifiedName (cfg : Config) (ident : Ident) : String :=
  if ident.module = cfg.currentModule then escape ident.name else ident.text

/-- The root of the target spelling of an identifier that keeps its name; an
identifier of the current module is not cut at dots. -/
def rootsOfIdent (cfg : Config) (ident : Ident) : List String :=
  if ident.module = cfg.currentModule then [escape ident.name]
  else ident.module.components.head?.toList

/-- The names that a node refers to without binding them. -/
def rootsOfNode (cfg : Config) : Node TermId → List String
  | .free x _ => [sanitize x]
  | .global i | .constant i _ _ | .data i _ _ | .ctor i _ _ | .recursor i _ _ _ _ =>
      cfg.rootsOfIdent i
  | _ => []

/-- The names that the target trees of some terms refer to without binding
them. -/
def namesInUse (cfg : Config) (s : Store) (roots : List TermId) : List String :=
  (s.preorder roots).flatMap fun id => cfg.rootsOfNode (s.node id)

/-- The names that no binder may have, whatever is translated. -/
def reserved (cfg : Config) : List String :=
  reservedWords ++ emittedHeads ++ cfg.options.extraReserved ++ cfg.table.targetRoots ++
    [rootOf cfg.options.bvLiteralCtor, rootOf cfg.options.vectorCtor]

end Config

/-- What is known at one place of a term. -/
structure Scope where
  /-- The names of bound variables, innermost first. -/
  env : List String
  /-- The names that a new binder has to avoid. -/
  unavailable : Std.HashSet String
  /-- The names of shared subterms. -/
  shared : Std.HashMap TermId String

namespace Scope

/-- The scope at the start of a unit. -/
def ofUnit (cfg : Config) (e : Emission) (s : Store) (roots : List TermId) : Scope where
  env := []
  unavailable := e.names.insertMany (cfg.reserved ++ cfg.namesInUse s roots)
  shared := ∅

/-- The number of binders around this place. -/
def depth (scope : Scope) : Nat :=
  scope.env.length

/-- The name of a bound variable. -/
def local? (scope : Scope) (index : Nat) : Option String :=
  scope.env[index]?

/-- Whether a subterm has a name. -/
def isShared (scope : Scope) (id : TermId) : Bool :=
  scope.shared.contains id

/-- Picks a name for a binder, as close to a given text as possible, that no
later binder of this scope will have. -/
def fresh (scope : Scope) (base : String) : String × Scope :=
  let name := freshVariant scope.unavailable (sanitize base)
  (name, { scope with unavailable := scope.unavailable.insert name })

/-- Picks a name for each of several binders of one text. -/
def freshMany (scope : Scope) (base : String) : Nat → List String × Scope
  | 0 => ([], scope)
  | n + 1 =>
      let (name, scope) := scope.fresh base
      let (names, scope) := freshMany scope base n
      (name :: names, scope)

/-- Enters a binder of a name. -/
def bind (scope : Scope) (name : String) : Scope :=
  { scope with env := name :: scope.env }

/-- Gives names to subterms. -/
def share (scope : Scope) (named : List (TermId × String)) : Scope :=
  { scope with shared := scope.shared.insertMany named }

end Scope

end TermGraph
