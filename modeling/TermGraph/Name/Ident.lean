/-!
# Identifiers

A module name is a dotted path and an identifier is a name inside a module.
Both are written as text with dots between their parts, and both are read back
from that text: reading asks for at least one part (two for an identifier) and
refuses an empty one.

Constructing a `ModuleName` or an `Ident` directly checks nothing, so parts may
be empty or contain dots; `ModuleName.parse` and `Ident.parse` are the checked
ways in.
-/

namespace TermGraph

/-- Why a text is not a module name or an identifier. -/
inductive NameError where
  /-- An empty part, or no part at all, in a module name. -/
  | invalidModule (text : String)
  /-- An identifier without a module part or without a name part. -/
  | unqualified (text : String)
  deriving DecidableEq, Repr

namespace NameError

/-- The wording shown to the user. -/
def message : NameError → String
  | invalidModule text => "invalid module name `" ++ text ++ "`"
  | unqualified text => "identifier `" ++ text ++ "` is not module-qualified"

end NameError

/-- Cuts a text at every dot; the parts may be empty and there is always one. -/
def splitDots : List Char → List (List Char)
  | [] => [[]]
  | c :: rest =>
      match splitDots rest with
      | [] => [[c]]
      | part :: parts => if c = '.' then [] :: part :: parts else (c :: part) :: parts

/-- Joins parts with a dot between neighbours. -/
def joinDots (parts : List String) : String :=
  ".".intercalate parts

/-- A dotted module path, outermost component first. -/
structure ModuleName where
  components : List String
  deriving DecidableEq, Repr, Inhabited, Hashable, Ord

namespace ModuleName

/-- The module that holds the built-in primitives. -/
def prelude : ModuleName :=
  ⟨["Prelude"]⟩

/-- The dotted text of a module name. -/
def text (m : ModuleName) : String :=
  joinDots m.components

/-- Reads a dotted path whose components are all non-empty. -/
def parse (s : String) : Except NameError ModuleName :=
  let parts := splitDots s.toList
  if parts.any List.isEmpty then
    .error (.invalidModule s)
  else
    .ok ⟨parts.map String.ofList⟩

end ModuleName

/-- A name qualified by the module that defines it. -/
structure Ident where
  module : ModuleName
  name : String
  deriving DecidableEq, Repr, Inhabited, Hashable, Ord

namespace Ident

/-- The identifier of a built-in primitive. -/
def prelude (name : String) : Ident :=
  ⟨.prelude, name⟩

/-- Whether this is the built-in primitive of the given name. -/
def isPrelude (i : Ident) (name : String) : Bool :=
  i == prelude name

/-- The dotted text: the module, a dot, the name. -/
def text (i : Ident) : String :=
  i.module.text ++ "." ++ i.name

/-- Reads an identifier: what stands after the last dot is the name, and what
stands before it is the module. -/
def parse (s : String) : Except NameError Ident := do
  match (splitDots s.toList).reverse with
  | name :: part :: parts =>
      if name.isEmpty then
        throw (.unqualified s)
      else
        let path := joinDots ((part :: parts).reverse.map String.ofList)
        return ⟨← ModuleName.parse path, String.ofList name⟩
  | _ => throw (.unqualified s)

/-- Identifiers in ascending order: by module components, then by name, texts
by code point. -/
def sort (idents : List Ident) : List Ident :=
  idents.mergeSort fun a b => (compare a b).isLE

end Ident

end TermGraph
