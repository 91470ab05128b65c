import TermGraph.Translate.Node
import TermGraph.Translate.TreatmentConfig

/-!
# Translating a module

A module is translated term by term.  A constant that several terms refer to is
declared once, by the first of them.  When a term cannot be translated, what has
been emitted for it by then is taken back.
-/

namespace TermGraph

open Target

namespace Config

/-- The configuration with the default treatments and those of the file that the
options name. -/
def ofOptions (files : Files) (currentModule : ModuleName) (options : Options) :
    Except ConfigError Config := do
  let table ← match options.treatmentsFile with
    | some file => TreatmentTable.default.changed (TreatmentTable.addFile files file)
    | none => pure .default
  return ⟨currentModule, table, options⟩

end Config

/-- A translated term, and the declarations emitted for it, in order. -/
structure TranslatedTerm where
  declarations : List Decl
  term : Expr

namespace Emission

/-- Runs a computation; if it fails, goes back to the point before it. -/
def attempt {α : Type} (e : Emission) (m : Emit α) : Except TranslateError α × Emission :=
  let start := e.checkpoint
  match m.exec e with
  | (.ok a, e) => (.ok a, e)
  | (.error err, e) => (.error err, e.rollback start)

/-- The declarations emitted after the first `count` ones. -/
def declarationsFrom (e : Emission) (count : Nat) : List Decl :=
  e.declarations.toList.drop count

end Emission

namespace Config

/-- Translates a closed term in a unit of its own. -/
def translateRoot (cfg : Config) (s : Store) (root : TermId) : Emit Expr := do
  let scope := Scope.ofUnit cfg (← get) s [root]
  translateLifted cfg s (cfg.translateNode s) scope root

/-- Translates a closed term, with the declarations that it needs. -/
def termWithDeclarations (cfg : Config) (s : Store) (root : TermId) : Emit TranslatedTerm := do
  let count := (← get).declarations.size
  let term ← cfg.translateRoot s root
  return ⟨(← get).declarationsFrom count, term⟩

/-- Translates a definition of a name in a unit of its own, and emits it. -/
def emitDefinition (cfg : Config) (s : Store) (name : String) (ty body : TermId) :
    Emit Decl := do
  let scope := Scope.ofUnit cfg (← get) s [ty, body]
  let d ← translateDefinition cfg s (cfg.translateNode s) scope (escape name) ty body
  modify (Emission.push d)
  return d

/-- Translates one more term of a module. -/
def translate (cfg : Config) (s : Store) (root : TermId) (e : Emission) :
    Except TranslateError TranslatedTerm × Emission :=
  e.attempt (cfg.termWithDeclarations s root)

/-- Translates one more definition of a module. -/
def define (cfg : Config) (s : Store) (name : String) (ty body : TermId) (e : Emission) :
    Except TranslateError Decl × Emission :=
  e.attempt (cfg.emitDefinition s name ty body)

/-- Translates a term on its own. -/
def translateOnce (cfg : Config) (s : Store) (root : TermId) :
    Except TranslateError TranslatedTerm :=
  (cfg.translate s root .empty).1

/-- Translates a definition on its own; the declarations that it needs come
first. -/
def defineOnce (cfg : Config) (s : Store) (name : String) (ty body : TermId) :
    Except TranslateError (List Decl) := do
  let (result, e) := cfg.define s name ty body .empty
  let _ ← result
  return e.declarations.toList

end Config

end TermGraph
