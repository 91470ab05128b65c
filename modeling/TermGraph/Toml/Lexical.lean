/-!
# The words of a TOML document

Blanks, comments, strings and keys.  A reader takes the characters that are
left, and gives what it has read and the characters after it, or nothing if the
text does not fit.
-/

namespace TermGraph

namespace Toml

/-- A result and the characters after it. -/
abbrev Read (α : Type) : Type :=
  Option (α × List Char)

/-- A blank within a line. -/
def isSpace (c : Char) : Bool :=
  c = ' ' || c = '\t'

/-- A character that may stand in a comment, or in a string as it is; the quotes
and backslashes of a string are looked at before. -/
def isTextChar (c : Char) : Bool :=
  c = '\t' || (0x20 ≤ c.toNat && c.toNat ≠ 0x7f)

/-- Skips the blanks within a line. -/
def skipSpaces (cs : List Char) : List Char :=
  cs.dropWhile isSpace

/-- Skips blanks, line breaks and comments; the flag says whether a comment has
been entered. -/
def skipFiller : Bool → List Char → List Char
  | _, [] => []
  | false, '#' :: rest => skipFiller true rest
  | _, '\n' :: rest => skipFiller false rest
  | _, '\r' :: '\n' :: rest => skipFiller false rest
  | comment, c :: rest =>
      if (if comment then isTextChar c else isSpace c) then skipFiller comment rest
      else c :: rest

/-- Whether a line break comes next. -/
def atLineBreak : List Char → Bool
  | '\n' :: _ => true
  | '\r' :: '\n' :: _ => true
  | _ => false

/-- Reads the end of a statement: blanks, perhaps a comment, and a line break or
the end of the text. -/
def readLineEnd (cs : List Char) : Read Unit :=
  let cs := skipSpaces cs
  let cs := match cs with
    | '#' :: rest => rest.dropWhile isTextChar
    | cs => cs
  match cs with
  | [] => some ((), [])
  | '\n' :: rest => some ((), rest)
  | '\r' :: '\n' :: rest => some ((), rest)
  | _ => none

/-- The value of a digit in base sixteen. -/
def hexValue? (c : Char) : Option Nat :=
  if c.isDigit then some (c.toNat - 48)
  else if 'a' ≤ c && c ≤ 'f' then some (c.toNat - 87)
  else if 'A' ≤ c && c ≤ 'F' then some (c.toNat - 55)
  else none

/-- The character whose number is given in base sixteen. -/
def charOfHex? (digits : List Char) : Option Char := do
  let n ← digits.foldlM (fun n c => (hexValue? c).map fun d => 16 * n + d) 0
  if n.isValidChar then some (Char.ofNat n) else none

/-- The character that a short escape stands for. -/
def shortEscape? (c : Char) : Option Char :=
  match c with
  | 'b' => some '\x08'
  | 't' => some '\t'
  | 'n' => some '\n'
  | 'f' => some '\x0c'
  | 'r' => some '\r'
  | '"' => some '"'
  | '\\' => some '\\'
  | _ => none

/-- Puts a character, if there is one, in front of a string that has been read. -/
def consRead (c : Option Char) (r : Read (List Char)) : Read (List Char) :=
  match c, r with
  | some c, some (text, rest) => some (c :: text, rest)
  | _, _ => none

/-- Reads a basic string on one line, after its opening quote. -/
def readBasic : List Char → Read (List Char)
  | '"' :: rest => some ([], rest)
  | '\\' :: 'u' :: a :: b :: c :: d :: rest =>
      consRead (charOfHex? [a, b, c, d]) (readBasic rest)
  | '\\' :: 'U' :: a :: b :: c :: d :: e :: f :: g :: h :: rest =>
      consRead (charOfHex? [a, b, c, d, e, f, g, h]) (readBasic rest)
  | '\\' :: c :: rest => consRead (shortEscape? c) (readBasic rest)
  | c :: rest => if c ≠ '\\' && isTextChar c then consRead (some c) (readBasic rest) else none
  | [] => none

/-- Reads a literal string on one line, after its opening quote. -/
def readLiteral : List Char → Read (List Char)
  | '\'' :: rest => some ([], rest)
  | c :: rest => if isTextChar c then consRead (some c) (readLiteral rest) else none
  | [] => none

/-- Reads a basic string over several lines, after its opening quotes.  The flag
says that a backslash at the end of a line has been read, after which all blanks
and line breaks are skipped. -/
def readLongBasic : Bool → List Char → Read (List Char)
  | true, ' ' :: rest => readLongBasic true rest
  | true, '\t' :: rest => readLongBasic true rest
  | true, '\n' :: rest => readLongBasic true rest
  | true, '\r' :: '\n' :: rest => readLongBasic true rest
  | _, '"' :: '"' :: '"' :: '"' :: '"' :: rest => some (['"', '"'], rest)
  | _, '"' :: '"' :: '"' :: '"' :: rest => some (['"'], rest)
  | _, '"' :: '"' :: '"' :: rest => some ([], rest)
  | _, '\\' :: 'u' :: a :: b :: c :: d :: rest =>
      consRead (charOfHex? [a, b, c, d]) (readLongBasic false rest)
  | _, '\\' :: 'U' :: a :: b :: c :: d :: e :: f :: g :: h :: rest =>
      consRead (charOfHex? [a, b, c, d, e, f, g, h]) (readLongBasic false rest)
  | _, '\\' :: c :: rest =>
      if atLineBreak (skipSpaces (c :: rest)) then readLongBasic true (c :: rest)
      else consRead (shortEscape? c) (readLongBasic false rest)
  | _, '\n' :: rest => consRead (some '\n') (readLongBasic false rest)
  | _, '\r' :: '\n' :: rest => consRead (some '\n') (readLongBasic false rest)
  | _, c :: rest =>
      if c ≠ '\\' && isTextChar c then consRead (some c) (readLongBasic false rest) else none
  | _, [] => none

/-- Reads a literal string over several lines, after its opening quotes. -/
def readLongLiteral : List Char → Read (List Char)
  | '\'' :: '\'' :: '\'' :: '\'' :: '\'' :: rest => some (['\'', '\''], rest)
  | '\'' :: '\'' :: '\'' :: '\'' :: rest => some (['\''], rest)
  | '\'' :: '\'' :: '\'' :: rest => some ([], rest)
  | '\n' :: rest => consRead (some '\n') (readLongLiteral rest)
  | '\r' :: '\n' :: rest => consRead (some '\n') (readLongLiteral rest)
  | c :: rest => if isTextChar c then consRead (some c) (readLongLiteral rest) else none
  | [] => none

/-- Skips one line break right after the opening quotes of a long string. -/
def skipLineBreak : List Char → List Char
  | '\n' :: rest => rest
  | '\r' :: '\n' :: rest => rest
  | cs => cs

/-- Reads a string of any of the four kinds. -/
def readString (cs : List Char) : Read String :=
  let chars : Read (List Char) := match cs with
    | '"' :: '"' :: '"' :: rest => readLongBasic false (skipLineBreak rest)
    | '\'' :: '\'' :: '\'' :: rest => readLongLiteral (skipLineBreak rest)
    | '"' :: rest => readBasic rest
    | '\'' :: rest => readLiteral rest
    | _ => none
  chars.map fun (text, rest) => (String.ofList text, rest)

/-- A character of a key without quotes. -/
def isBareKeyChar (c : Char) : Bool :=
  c.isAlphanum || c = '_' || c = '-'

/-- Reads one part of a key. -/
def readKeyPart (cs : List Char) : Read String :=
  match cs with
  | '"' :: rest => (readBasic rest).map fun (text, rest) => (String.ofList text, rest)
  | '\'' :: rest => (readLiteral rest).map fun (text, rest) => (String.ofList text, rest)
  | cs =>
      let key := cs.takeWhile isBareKeyChar
      if key.isEmpty then none else some (String.ofList key, cs.dropWhile isBareKeyChar)

/-- Reads a key of at most `parts` parts separated by dots, and the blanks around
it. -/
def readKeyParts : Nat → List Char → Option (List String × List Char)
  | 0, _ => none
  | parts + 1, cs => do
      let (key, cs) ← readKeyPart (skipSpaces cs)
      match skipSpaces cs with
      | '.' :: rest => do
          let (keys, rest) ← readKeyParts parts rest
          some (key :: keys, rest)
      | rest => some ([key], rest)

/-- The number of levels that a value may be nested, and of parts that a key may
have. -/
def maxDepth : Nat :=
  127

/-- Reads a key and the blanks around it. -/
def readKey (cs : List Char) : Read (List String) :=
  readKeyParts maxDepth cs

end Toml

end TermGraph
