import TermGraph.Name.Ident
import TermGraph.Text.Quoted

/-!
# Evaluation errors

Each constructor names a cause; `EvalError.message` holds the wording of all of
them.  Terms are named by `#` and their identity.
-/

namespace TermGraph

/-- The shape of a value, as far as error messages tell it. -/
inductive Kind where
  | bool
  | word
  | integer
  | natural
  | symbolicNatural
  | vector
  | unit
  | pair
  | record
  | constructor
  | function
  | type
  | string
  | stream
  deriving DecidableEq, Repr

/-- The name of a shape. -/
def Kind.text : Kind → String
  | bool => "bool"
  | word => "word"
  | integer => "integer"
  | natural => "natural"
  | symbolicNatural => "symbolic natural"
  | vector => "vector"
  | unit => "unit"
  | pair => "pair"
  | record => "record"
  | constructor => "constructor"
  | function => "function"
  | type => "type"
  | string => "string"
  | stream => "stream"

/-- What is told about the size of a value besides its kind. -/
inductive Extent where
  | length (n : Nat)
  | fields (names : List String)
  | none
  deriving DecidableEq, Repr

/-- A length or the field names in brackets, or a dash. -/
def Extent.text : Extent → String
  | length n => "[" ++ toString n ++ "]"
  | fields names => "\x7b" ++ ", ".intercalate names ++ "\x7d"
  | none => "-"

/-- Why two branch values have no common form. -/
inductive MergeFailure where
  | integers (a b : Int)
  | naturals (a b : Nat)
  | strings (a b : String)
  | constructors (a b : Ident)
  | shapes (a : Kind) (aExtent : Extent) (b : Kind) (bExtent : Extent)
  deriving DecidableEq, Repr

/-- The wording of a failed merge. -/
def MergeFailure.text : MergeFailure → String
  | integers a b => "distinct integers " ++ toString a ++ " and " ++ toString b
  | naturals a b => "distinct naturals " ++ toString a ++ " and " ++ toString b
  | strings a b => "distinct strings " ++ quoted a ++ " and " ++ quoted b
  | constructors a b => "constructors " ++ a.text ++ " and " ++ b.text
  | shapes a aExtent b bExtent =>
      a.text ++ " of shape " ++ aExtent.text ++ " with " ++
        b.text ++ " of shape " ++ bExtent.text

/-- What evaluation does not cover. -/
inductive Unsupported where
  /-- An input variable where all bits are known. -/
  | symbolicInput (index : Nat)
  /-- A primitive called with a number of arguments it does not take. -/
  | arguments (op : String) (count : Nat)
  | symbolicNatural (op : String)
  | symbolicOperands (op : String)
  | wordWidth (width : Nat)
  | symbolicWidth
  | length (op : String) (length : Nat)
  | streamIndexWidth (width : Nat)
  | recursor (datatype : Ident)
  | fixpoint (name : String)
  /-- A type, given by identity, that input bits cannot fill. -/
  | argumentType (type : Nat)
  | dependentArgumentType (type : Nat)
  | outputKind (kind : Kind)
  /-- The complaint of a primitive supplied from outside. -/
  | host (text : String)
  deriving DecidableEq, Repr

/-- The wording of an uncovered case. -/
def Unsupported.text : Unsupported → String
  | symbolicInput i => "symbolic input " ++ toString i ++ " in the concrete domain"
  | arguments op n => "`" ++ op ++ "` applied to " ++ toString n ++ " arguments"
  | symbolicNatural op => "`" ++ op ++ "` on a symbolic natural"
  | symbolicOperands op => "`" ++ op ++ "` on symbolic operands"
  | wordWidth n => "word width " ++ toString n
  | symbolicWidth => "symbolic word width"
  | length op n => "`" ++ op ++ "` with length " ++ toString n
  | streamIndexWidth n => "stream index of width " ++ toString n
  | recursor i => "recursor for " ++ i.text
  | fixpoint x => "general recursion in " ++ x
  | argumentType id => "argument type #" ++ toString id
  | dependentArgumentType id => "dependent argument type #" ++ toString id
  | outputKind k => "bit-blasting an output of kind " ++ k.text
  | host text => text

/-- Why an evaluation fails. -/
inductive EvalError where
  /-- Two branches whose values cannot be made one. -/
  | cannotMerge (why : MergeFailure)
  /-- A free variable without a value. -/
  | unboundVariable (name : String)
  /-- A bound variable outside its environment. -/
  | unboundIndex (index : Nat)
  | unknownPrimitive (ident : Ident)
  | notAFunction (found : Kind)
  /-- A closure whose node is no function. -/
  | brokenClosure
  | wrongKind (op : String) (expected found : Kind)
  | unequalWidths (op : String)
  | missingField (field : String)
  | unsupported (what : Unsupported)
  | indexOutOfBounds (index length : Nat)
  /-- A symbolic index into a vector without elements. -/
  | symbolicIndexOutOfBounds
  /-- An error that the evaluated term raises itself. -/
  | userError (text : String)
  | noDefaultValue (kind : Kind)
  deriving DecidableEq, Repr

namespace EvalError

/-- The name of the operation that reads a record field. -/
def projectionName (field : String) : String :=
  "projection ." ++ field

/-- The wording of a value that is not what an operation expects. -/
def expectedText (op expected found : String) : String :=
  "`" ++ op ++ "` expected " ++ expected ++ " but got " ++ found

/-- The wording of an index past the end. -/
def outOfBoundsText (index : String) (length : Nat) : String :=
  "index " ++ index ++ " is out of bounds for length " ++ toString length

/-- The wording shown to the user. -/
def message : EvalError → String
  | cannotMerge why => "cannot merge branch values: " ++ why.text
  | unboundVariable x => "unbound variable `" ++ x ++ "`"
  | unboundIndex i => "unbound variable `#" ++ toString i ++ "`"
  | unknownPrimitive i => "no implementation for primitive `" ++ i.text ++ "`"
  | notAFunction k => "cannot apply a value of kind " ++ k.text
  | brokenClosure => "cannot apply a value of kind closure over a non-lambda"
  | wrongKind op expected found => expectedText op expected.text found.text
  | unequalWidths op => expectedText op "words of equal width" "words of different widths"
  | missingField field =>
      expectedText (projectionName field) "record with the field" "record without it"
  | unsupported what => "unsupported: " ++ what.text
  | indexOutOfBounds i n => outOfBoundsText (toString i) n
  | symbolicIndexOutOfBounds => outOfBoundsText "symbolic index" 0
  | userError text => "error: " ++ text
  | noDefaultValue k => "no default value of kind " ++ k.text

end EvalError

end TermGraph
