import Std.Data.HashMap
import TermGraph.Target.Template
import TermGraph.Text.Quoted

/-!
# Special treatments

An identifier may be treated specially where it is used, where it is defined, or
both.  A use keeps its name, gets another one, or is built from a template and
the first few arguments; a definition is emitted under its own or another name,
replaced by a text, or skipped because the target has it already.

A table holds at most one treatment for each identifier.
-/

namespace TermGraph

open Target

/-- How references to an identifier are translated. -/
inductive UseSite where
  | preserve
  /-- Another target name, in a module or not; `explicit` asks for all implicit
  arguments. -/
  | rename (module : Option String) (name : String) (explicit : Bool)
  /-- An instance of a template on the first `arity` arguments. -/
  | expand (arity : Nat) (template : Template)
  deriving Repr

/-- What becomes of the definition of an identifier. -/
inductive DefSite where
  /-- It is emitted under its own name. -/
  | preserve
  | rename (name : String)
  /-- A given text is emitted in its place. -/
  | replace (text : String)
  /-- The target has it already. -/
  | skip
  deriving DecidableEq, Repr

/-- The treatment of an identifier.  Without a treatment of its definition it
cannot be defined. -/
structure Treatment where
  defSite : Option DefSite
  useSite : UseSite
  deriving Repr

namespace UseSite

/-- A target name inside a module, if one is given. -/
def renamed (module : Option String) (name : String) : String :=
  match module with
  | some m => m ++ "." ++ name
  | none => name

/-- An optional text, as part of a description. -/
def optionText : Option String → String
  | some s => "Some(" ++ quoted s ++ ")"
  | none => "None"

/-- A description in one line. -/
def describe : UseSite → String
  | preserve => "Preserve"
  | rename module name explicit =>
      "Rename \x7b module: " ++ optionText module ++ ", name: " ++ quoted name ++
        ", explicit: " ++ toString explicit ++ " \x7d"
  | expand arity _ => "Macro(" ++ toString arity ++ ")"

/-- Asks for all implicit arguments of a renamed identifier. -/
def makeExplicit : UseSite → UseSite
  | rename module name _ => rename module name true
  | site => site

/-- The roots of the names that references to an identifier of a module can be
translated to. -/
def roots (module : ModuleName) : UseSite → List String
  | preserve => module.components.head?.toList
  | rename target name _ => [rootOf (target.getD name)]
  | expand arity template => template.roots arity

end UseSite

namespace Treatment

/-- Translated and emitted normally. -/
def preserve : Treatment :=
  ⟨some .preserve, .preserve⟩

/-- Present in the target under the same qualified name. -/
def skip : Treatment :=
  ⟨some .skip, .preserve⟩

/-- Present in the target as a name of a module. -/
def mapsTo (module name : String) : Treatment :=
  ⟨some .skip, .rename (some module) name false⟩

/-- Present in the target as an unqualified name. -/
def mapsToUnqualified (name : String) : Treatment :=
  ⟨some .skip, .rename none name false⟩

/-- Emitted and referred to under a new name. -/
def rename (name : String) : Treatment :=
  ⟨some (.rename name), .rename none name false⟩

/-- Defined by a given text. -/
def replace (text : String) : Treatment :=
  ⟨some (.replace text), .preserve⟩

/-- References are built from a template, and nothing is defined. -/
def expand (arity : Nat) (template : Template) : Treatment :=
  ⟨some .skip, .expand arity template⟩

/-- References are built from a template; what becomes of the definition is
left open. -/
def expandUse (arity : Nat) (template : Template) : Treatment :=
  ⟨none, .expand arity template⟩

/-- Asks for all implicit arguments of a renamed identifier. -/
def explicit (t : Treatment) : Treatment :=
  { t with useSite := t.useSite.makeExplicit }

end Treatment

/-- The treatments of identifiers. -/
structure TreatmentTable where
  entries : Std.HashMap Ident Treatment

namespace TreatmentTable

/-- The table without treatments. -/
def empty : TreatmentTable :=
  ⟨∅⟩

instance : Inhabited TreatmentTable :=
  ⟨empty⟩

/-- Sets the treatment of an identifier. -/
def insert (t : TreatmentTable) (ident : Ident) (treatment : Treatment) : TreatmentTable :=
  ⟨t.entries.insert ident treatment⟩

/-- The treatment of an identifier. -/
def find? (t : TreatmentTable) (ident : Ident) : Option Treatment :=
  t.entries[ident]?

/-- The treatment of references to an identifier; without an entry they are
preserved. -/
def useSite (t : TreatmentTable) (ident : Ident) : UseSite :=
  match t.find? ident with
  | some treatment => treatment.useSite
  | none => .preserve

/-- The number of identifiers with a treatment. -/
def size (t : TreatmentTable) : Nat :=
  t.entries.size

/-- The table of some entries, where a later entry for an identifier replaces an
earlier one. -/
def ofList (entries : List (Ident × Treatment)) : TreatmentTable :=
  entries.foldl (fun t p => t.insert p.1 p.2) empty

/-- The roots of the names that references can be translated to through the
table: the modules of identifiers that are preserved, the new names of renamed
ones, and the names inside templates. -/
def targetRoots (t : TreatmentTable) : List String :=
  t.entries.toList.flatMap fun p => p.2.useSite.roots p.1.module

end TreatmentTable

end TermGraph
