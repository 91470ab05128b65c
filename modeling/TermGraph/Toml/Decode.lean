import TermGraph.Toml.Value

/-!
# Reading settings from TOML values

Each function gives the setting that a value stands for, or nothing if the value
is of another type.
-/

namespace TermGraph

namespace Toml

namespace Value

/-- A text. -/
def asString? : Value → Option String
  | string s => some s
  | _ => none

/-- A truth value. -/
def asBool? : Value → Option Bool
  | boolean b => some b
  | _ => none

/-- A list of texts. -/
def asStrings? : Value → Option (List String)
  | array elems => elems.mapM asString?
  | _ => none

/-- The keys and values of a table. -/
def asTable? : Value → Option Table
  | table entries => some entries
  | _ => none

/-- The name of an alternative without settings of its own: a text, or a table
with the name as its only key and an empty table below it. -/
def asAlternative? : Value → Option String
  | string s => some s
  | table [(name, table [])] => some name
  | _ => none

end Value

namespace Table

/-- Whether all keys are among the given ones. -/
def hasOnly (t : Table) (keys : List String) : Bool :=
  t.all fun p => keys.contains p.1

/-- The setting of a key, or a default where the key is missing; nothing if the
value of the key is of another type. -/
def getD {α : Type} (t : Table) (key : String) (read : Value → Option α) (default : α) :
    Option α :=
  match t.find? key with
  | some v => read v
  | none => some default

/-- The setting of a key that may be missing; nothing if its value is of another
type. -/
def get? {α : Type} (t : Table) (key : String) (read : Value → Option α) :
    Option (Option α) :=
  t.getD key (fun v => (read v).map some) none

end Table

end Toml

end TermGraph
