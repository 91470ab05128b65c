/-!
# The indenting writer

Text is written character by character.  The first character of a line is
preceded by two spaces for each level of indentation in force at that moment; a
line without characters stays empty.
-/

namespace TermGraph

namespace Target

/-- Text written so far, the level of indentation, and whether the next
character starts a line. -/
structure Writer where
  text : String
  level : Nat
  lineStart : Bool
  deriving DecidableEq, Repr

namespace Writer

/-- A writer that has written nothing. -/
def empty : Writer :=
  ⟨"", 0, true⟩

instance : Inhabited Writer :=
  ⟨empty⟩

/-- Two spaces for each level. -/
def margin (level : Nat) : String :=
  String.ofList (List.replicate (2 * level) ' ')

/-- Writes one character. -/
def put (w : Writer) (c : Char) : Writer :=
  if c = '\n' then { w with text := w.text.push c, lineStart := true }
  else
    let text := if w.lineStart then w.text ++ margin w.level else w.text
    { w with text := text.push c, lineStart := false }

/-- Writes a text. -/
def write (s : String) (w : Writer) : Writer :=
  s.toList.foldl put w

/-- Ends the line. -/
def newline (w : Writer) : Writer :=
  w.put '\n'

/-- Indents the following lines by one more level, on a new line if asked. -/
def indent (onNewline : Bool) (w : Writer) : Writer :=
  let w := if onNewline then w.newline else w
  { w with level := w.level + 1 }

/-- Indents the following lines by one level less, and ends the line if asked. -/
def dedent (onNewline : Bool) (w : Writer) : Writer :=
  let w := { w with level := w.level - 1 }
  if onNewline then w.newline else w

/-- Writes items with a separator between neighbours. -/
def writeSep {α : Type} (separator : String) (item : α → Writer → Writer) :
    List α → Writer → Writer
  | [], w => w
  | [a], w => item a w
  | a :: b :: rest, w =>
      writeSep separator item (b :: rest) ((item a w).write separator)

end Writer

end Target

end TermGraph
