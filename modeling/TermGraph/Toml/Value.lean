/-!
# TOML values

The values of a TOML document.  Tables keep the order in which their keys first
appear.  Numbers with a fraction and points in time are kept as they are
written: no setting is of such a type.
-/

namespace TermGraph

namespace Toml

/-- A value of a document. -/
inductive Value where
  | string (value : String)
  | integer (value : Int)
  | float (text : String)
  | boolean (value : Bool)
  | datetime (text : String)
  | array (elems : List Value)
  | table (entries : List (String × Value))
  deriving Repr, Inhabited

/-- The keys of a table and their values, in order. -/
abbrev Table : Type :=
  List (String × Value)

/-- The value of a key. -/
def Table.find? (t : Table) (key : String) : Option Value :=
  (List.find? (fun p => p.1 = key) t).map (·.2)

end Toml

end TermGraph
