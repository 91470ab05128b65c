import TermGraph.Toml.Value

/-!
# Inline tables

An inline table is written out as a list of entries.  A dotted key reaches into
the tables below it, whether they were written out or made by another dotted
key, and makes those that are missing.  No key gets a second value.
-/

namespace TermGraph

namespace Toml

namespace Table

/-- Replaces the value of a key. -/
def replace (t : Table) (key : String) (v : Value) : Table :=
  t.map fun p => if p.1 = key then (key, v) else p

/-- Gives a value to a key, which may be dotted. -/
def insert? (v : Value) : List String → Table → Option Table
  | [], _ => none
  | [key], t => if (t.find? key).isSome then none else some (t ++ [(key, v)])
  | key :: path, t =>
      match t.find? key with
      | none => do return t ++ [(key, .table (← insert? v path []))]
      | some (.table sub) => do return t.replace key (.table (← insert? v path sub))
      | some _ => none

/-- The table of some entries, unless they contradict each other. -/
def ofEntries? (entries : List (List String × Value)) : Option Table :=
  entries.foldlM (fun t p => t.insert? p.2 p.1) []

end Table

end Toml

end TermGraph
