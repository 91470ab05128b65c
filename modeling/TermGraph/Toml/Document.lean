import TermGraph.Toml.Value

/-!
# The tables of a document

A document is a list of statements: keys with values, and headers that open the
table for the following keys.  A table can come into being in three ways, as the
table of a header, on the path to another table, or through a dotted key, and
the ways limit each other: no table gets two headers, and neither dotted keys
nor headers reopen a table that was made in another way.
-/

namespace TermGraph

namespace Toml

/-- One statement of a document. -/
inductive Statement where
  /-- A dotted key with a value. -/
  | entry (key : List String) (value : Value)
  /-- The header of a table. -/
  | header (key : List String)
  /-- The header of one more table of an array of tables. -/
  | arrayHeader (key : List String)
  deriving Repr

/-- How a table came into being. -/
inductive Origin where
  | header
  /-- On the path to the table of a header. -/
  | path
  | dottedKey
  deriving DecidableEq, Repr

/-- What a key of a table under construction holds. -/
inductive Item where
  | value (v : Value)
  | table (origin : Origin) (entries : List (String × Item))
  | tables (elems : List (List (String × Item)))
  deriving Repr, Inhabited

/-- The keys of a table under construction. -/
abbrev Entries : Type :=
  List (String × Item)

namespace Entries

/-- What a key holds. -/
def find? (es : Entries) (key : String) : Option Item :=
  (List.find? (fun p => p.1 = key) es).map (·.2)

/-- Replaces what a key holds. -/
def replace (es : Entries) (key : String) (item : Item) : Entries :=
  es.map fun p => if p.1 = key then (key, item) else p

/-- Removes a key. -/
def erase (es : Entries) (key : String) : Entries :=
  es.filter fun p => p.1 ≠ key

/-- Changes the table at the end of a path.  Missing tables on the path are made
with the given origin; an array of tables stands for its last table. -/
def modifyAt {ρ : Type} (made : Origin) (change : Origin → Entries → Option (Entries × ρ)) :
    List String → Origin → Entries → Option (Entries × ρ)
  | [], origin, es => change origin es
  | key :: path, _, es =>
      match find? es key with
      | none => do
          let (sub, r) ← modifyAt made change path made []
          some (es ++ [(key, .table made sub)], r)
      | some (.value _) => none
      | some (.table origin sub) =>
          -- A dotted key does not reopen the table of a header.
          if made = .dottedKey ∧ origin = .header then none
          else do
            let (sub, r) ← modifyAt made change path origin sub
            some (replace es key (.table origin sub), r)
      | some (.tables elems) =>
          match elems.getLast? with
          | none => none
          | some last => do
              let (last, r) ← modifyAt made change path .header last
              some (replace es key (.tables (elems.dropLast ++ [last])), r)

/-- Adds a key with a value, where the key may be dotted. -/
def addEntry (es : Entries) (path : List String) (key : String) (v : Value) :
    Option Entries := do
  let add (origin : Origin) (es : Entries) : Option (Entries × Unit) :=
    -- Only a table made by dotted keys is extended by them.
    if (origin == .dottedKey) == path.isEmpty then none
    else
      match find? es key with
      | some _ => none
      | none => some (es ++ [(key, .value v)], ())
  let (es, ()) ← modifyAt .dottedKey add path .header es
  some es

/-- Takes out the table that a header opens, which is new or was on the path to
another table. -/
def openTable (es : Entries) (path : List String) (key : String) :
    Option (Entries × Entries) :=
  let take (_ : Origin) (es : Entries) : Option (Entries × Entries) :=
    match find? es key with
    | none => some (es, [])
    | some (.table .path sub) => some (erase es key, sub)
    | some _ => none
  modifyAt .path take path .header es

/-- Puts in the finished table of a header. -/
def closeTable (es : Entries) (path : List String) (key : String) (table : Entries) :
    Option Entries := do
  let put (_ : Origin) (es : Entries) : Option (Entries × Unit) :=
    some (es ++ [(key, .table .header table)], ())
  let (es, ()) ← modifyAt .path put path .header es
  some es

/-- Makes sure that a key holds an array of tables. -/
def openArray (es : Entries) (path : List String) (key : String) : Option Entries := do
  let make (_ : Origin) (es : Entries) : Option (Entries × Unit) :=
    match find? es key with
    | none => some (es ++ [(key, .tables [])], ())
    | some (.tables _) => some (es, ())
    | some _ => none
  let (es, ()) ← modifyAt .path make path .header es
  some es

/-- Puts one more finished table into an array of tables. -/
def closeArray (es : Entries) (path : List String) (key : String) (table : Entries) :
    Option Entries := do
  let put (_ : Origin) (es : Entries) : Option (Entries × Unit) :=
    match find? es key with
    | some (.tables elems) => some (replace es key (.tables (elems ++ [table])), ())
    | _ => none
  let (es, ()) ← modifyAt .path put path .header es
  some es

end Entries

/-- Where the table of the last header belongs. -/
inductive Place where
  /-- The document itself: no header has been read. -/
  | root
  | table (path : List String) (key : String)
  | element (path : List String) (key : String)
  deriving Repr

/-- A document under construction: the finished tables, and the table of the
last header with its place. -/
structure Draft where
  root : Entries
  current : Entries
  place : Place

namespace Draft

/-- The empty document. -/
def empty : Draft :=
  ⟨[], [], .root⟩

/-- Puts the current table in its place. -/
def close (d : Draft) : Option Entries :=
  match d.place with
  | .root => some d.current
  | .table path key => d.root.closeTable path key d.current
  | .element path key => d.root.closeArray path key d.current

/-- Adds a statement. -/
def add (d : Draft) : Statement → Option Draft
  | .entry key v => do
      let last ← key.getLast?
      let current ← d.current.addEntry key.dropLast last v
      some { d with current := current }
  | .header key => do
      let last ← key.getLast?
      let root ← d.close
      let (root, table) ← root.openTable key.dropLast last
      some ⟨root, table, .table key.dropLast last⟩
  | .arrayHeader key => do
      let last ← key.getLast?
      let root ← d.close
      let root ← root.openArray key.dropLast last
      some ⟨root, [], .element key.dropLast last⟩

end Draft

namespace Item

mutual

/-- The value of a finished item. -/
def toValue : Item → Value
  | value v => v
  | table _ entries => .table (toTable entries)
  | tables elems => .array (toTables elems)

/-- The finished table of some keys. -/
def toTable : List (String × Item) → Table
  | [] => []
  | (key, item) :: rest => (key, toValue item) :: toTable rest

/-- The finished tables of an array of tables. -/
def toTables : List (List (String × Item)) → List Value
  | [] => []
  | es :: rest => .table (toTable es) :: toTables rest

end

end Item

/-- The table of a document, unless its statements contradict each other. -/
def Table.ofStatements? (statements : List Statement) : Option Table := do
  let d ← statements.foldlM Draft.add .empty
  some (Item.toTable (← d.close))

end Toml

end TermGraph
