import TermGraph.Term.Lift

/-!
# Building terms

Shorthands for common terms.  Each of them stores its nodes in a fixed order,
from the parts to the whole and from left to right unless its comment says
otherwise; identities are handed out in that order.
-/

namespace TermGraph

namespace Build

/-- A built-in of the Prelude. -/
def prelude (name : String) : Build TermId :=
  intern (.global (.prelude name))

/-- Applies a function to each argument in turn. -/
def applyAll (fn : TermId) (args : List TermId) : Build TermId :=
  args.foldlM (fun fn arg => intern (.app fn arg)) fn

/-- Applies a built-in of the Prelude to arguments that are stored already. -/
def applyPrelude (name : String) (args : List TermId) : Build TermId := do
  applyAll (← prelude name) args

/-- The type of functions whose result type does not mention the argument. -/
def arrow (source target : TermId) : Build TermId := do
  let target ← lift target 1
  intern (.pi "_" source target)

/-- The type of booleans. -/
def boolType : Build TermId :=
  prelude "Bool"

/-- The type of natural numbers. -/
def natType : Build TermId :=
  prelude "Nat"

/-- The type of vectors; the length is stored before the type's head. -/
def vecType (length : Nat) (elem : TermId) : Build TermId := do
  let length ← intern (.nat length)
  applyPrelude "Vec" [length, elem]

/-- The type of words: vectors of booleans. -/
def wordType (width : Nat) : Build TermId := do
  let bool ← boolType
  vecType width bool

/-- The bits of a 64-bit number at the given width, most significant first. -/
def literalBits (width value : Nat) : List Bool :=
  (List.range width).reverse.map fun bit => bit < 64 && value.testBit bit

/-- A word literal: an array of booleans, most significant bit first.  Only the
low 64 bits of `value` count. -/
def wordLit (width value : Nat) : Build TermId := do
  let bool ← boolType
  let bits ← (literalBits width value).mapM fun b => intern (.bool b)
  intern (.array bool bits)

end Build

end TermGraph
