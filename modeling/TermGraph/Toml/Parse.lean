import TermGraph.Toml.Document
import TermGraph.Toml.Inline
import TermGraph.Toml.Lexical
import TermGraph.Toml.Scalar

/-!
# Reading TOML

Arrays and inline tables nest down to `maxDepth` levels and no further.  Besides
the levels that are left, reading takes a bound on the number of steps to an
innermost value, which are levels or elements of one level; the number of
characters is always enough.
-/

namespace TermGraph

namespace Toml

mutual

/-- Reads a value that may hold `levels` levels of arrays and inline tables. -/
def readValue : (bound levels : Nat) → List Char → Option (Value × List Char)
  | 0, _, _ => none
  | bound + 1, levels, cs =>
      match cs, levels with
      | '"' :: _, _ => (readString cs).map fun (s, rest) => (.string s, rest)
      | '\'' :: _, _ => (readString cs).map fun (s, rest) => (.string s, rest)
      | '[' :: _, 0 => none
      | '[' :: rest, levels + 1 =>
          (readElems bound levels rest).map fun (vs, rest) => (.array vs, rest)
      | '\x7b' :: _, 0 => none
      | '\x7b' :: rest, levels + 1 => do
          match skipSpaces rest with
          | '\x7d' :: rest => some (.table [], rest)
          | rest =>
              let (entries, rest) ← readEntries bound levels rest
              some (.table (← Table.ofEntries? entries), rest)
      | cs, _ => Scalar.read cs

/-- Reads the elements of an array, after its opening bracket or a comma. -/
def readElems : (bound levels : Nat) → List Char → Option (List Value × List Char)
  | 0, _, _ => none
  | bound + 1, levels, cs =>
      match skipFiller false cs with
      | ']' :: rest => some ([], rest)
      | cs => do
          let (v, rest) ← readValue bound levels cs
          match skipFiller false rest with
          | ',' :: rest => do
              let (vs, rest) ← readElems bound levels rest
              some (v :: vs, rest)
          | ']' :: rest => some ([v], rest)
          | _ => none

/-- Reads the entries of an inline table, after its opening brace or a comma. -/
def readEntries :
    (bound levels : Nat) → List Char → Option (List (List String × Value) × List Char)
  | 0, _, _ => none
  | bound + 1, levels, cs => do
      let (key, rest) ← readKey cs
      match rest with
      | '=' :: rest => do
          let (v, rest) ← readValue bound levels (skipSpaces rest)
          match skipSpaces rest with
          | ',' :: rest => do
              let (entries, rest) ← readEntries bound levels rest
              some ((key, v) :: entries, rest)
          | '\x7d' :: rest => some ([(key, v)], rest)
          | _ => none
      | _ => none

end

/-- Reads a key with a value. -/
def readEntry (cs : List Char) : Option (Statement × List Char) := do
  let (key, rest) ← readKey cs
  match rest with
  | '=' :: rest => do
      let (v, rest) ← readValue (rest.length + 1) maxDepth (skipSpaces rest)
      some (.entry key v, rest)
  | _ => none

/-- Reads a statement. -/
def readStatement (cs : List Char) : Option (Statement × List Char) :=
  match cs with
  | '[' :: '[' :: rest => do
      match ← readKey rest with
      | (key, ']' :: ']' :: rest) => some (.arrayHeader key, rest)
      | _ => none
  | '[' :: rest => do
      match ← readKey rest with
      | (key, ']' :: rest) => some (.header key, rest)
      | _ => none
  | cs => readEntry cs

/-- Reads at most `bound` statements, each on a line of its own. -/
def readStatements : Nat → List Char → Option (List Statement)
  | 0, _ => none
  | bound + 1, cs =>
      match skipFiller false cs with
      | [] => some []
      | cs => do
          let (statement, rest) ← readStatement cs
          let ((), rest) ← readLineEnd rest
          let statements ← readStatements bound rest
          some (statement :: statements)

/-- The characters of a text without a byte order mark in front. -/
def dropMark (cs : List Char) : List Char :=
  match cs with
  | '\ufeff' :: rest => rest
  | cs => cs

/-- Reads a document. -/
def parse? (text : String) : Option Table := do
  let cs := dropMark text.toList
  Table.ofStatements? (← readStatements (cs.length + 1) cs)

end Toml

end TermGraph
