/-!
# Names fit for output

`sanitize` turns any text into an identifier of ASCII letters, digits,
underscores and apostrophes that starts with a letter or an underscore and is
not a lone underscore.  A text of that form is left as it is.
-/

namespace TermGraph

/-- The characters an output identifier is made of. -/
def isWordChar (c : Char) : Bool :=
  c.isAlphanum || c = '_' || c = '\''

/-- Whether a character may stand inside an output identifier but not first. -/
def isLateChar (c : Char) : Bool :=
  c.isDigit || c = '\''

/-- Makes an output identifier of any characters: a foreign one becomes an
underscore, and a letter goes in front where the result could not stand alone. -/
def sanitizeChars (name : List Char) : List Char :=
  match name.map fun c => if isWordChar c then c else '_' with
  | [] => ['x']
  | ['_'] => ['x']
  | c :: rest => if isLateChar c then 'x' :: c :: rest else c :: rest

/-- Makes an output identifier of any text. -/
def sanitize (name : String) : String :=
  String.ofList (sanitizeChars name.toList)

end TermGraph
