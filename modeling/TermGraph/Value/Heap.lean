import TermGraph.Value.Basic

/-!
# Streams

A stream has an element for every natural number.  Its cell says where elements
come from and remembers those that have been computed.
-/

namespace TermGraph

/-- Where the elements of a stream come from. -/
inductive StreamSource (β : Type) where
  /-- A function from the index to the element. -/
  | generator (fn : Value β)
  /-- The merge of the elements of two streams. -/
  | mux (cond : β) (onTrue onFalse : StreamId)

/-- A stream: its source, and the elements computed so far. -/
structure StreamCell (β : Type) where
  source : StreamSource β
  memo : IndexTrie (Value β)

/-- All streams; the position of a cell is its name. -/
structure Heap (β : Type) where
  cells : Array (StreamCell β)

namespace Heap

variable {β : Type}

/-- The heap without streams. -/
def empty : Heap β :=
  ⟨#[]⟩

instance : Inhabited (Heap β) :=
  ⟨empty⟩

/-- Adds a stream of which no element has been computed. -/
def alloc (h : Heap β) (source : StreamSource β) : StreamId × Heap β :=
  (h.cells.size, ⟨h.cells.push ⟨source, .empty⟩⟩)

/-- The element remembered for an index. -/
def element? (h : Heap β) (id : StreamId) (n : Nat) : Option (Value β) := do
  (← h.cells[id]?).memo.get? n

/-- The source of a stream. -/
def source? (h : Heap β) (id : StreamId) : Option (StreamSource β) :=
  h.cells[id]?.map (·.source)

/-- Remembers the element at an index. -/
def remember (h : Heap β) (id : StreamId) (n : Nat) (v : Value β) : Heap β :=
  ⟨h.cells.modify id fun cell => { cell with memo := cell.memo.insert n v }⟩

/-- How many elements of a stream have been computed. -/
def memoized (h : Heap β) (id : StreamId) : Nat :=
  match h.cells[id]? with
  | some cell => cell.memo.size
  | none => 0

end Heap

end TermGraph
