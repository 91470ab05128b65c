import TermGraph.Bits.Word
import TermGraph.Name.Ident

/-!
# The built-in primitives

Every primitive of the Prelude that the evaluator knows, by name, with the
number of arguments it waits for.  Type arguments count as arguments.
-/

namespace TermGraph

/-- An operation on two booleans. -/
inductive BoolOp where
  | and | or | xor | eq | implies
  deriving DecidableEq, Repr

/-- An operation on two natural numbers. -/
inductive NatOp where
  | add | sub | mul | div | mod | eq | lt
  deriving DecidableEq, Repr

/-- An operation on two integers. -/
inductive IntOp where
  | add | sub | mul | eq | le | lt
  deriving DecidableEq, Repr

/-- An operation on two words that gives a word. -/
inductive WordOp where
  | add | sub | mul | and | or | xor
  deriving DecidableEq, Repr

/-- A comparison of two words. -/
inductive WordCmp where
  | eq | ult | ule | ugt | uge | slt | sle
  deriving DecidableEq, Repr

/-- A division of two words: its quotient or its remainder. -/
inductive Division where
  | quotient | remainder
  deriving DecidableEq, Repr

/-- A primitive with an implementation. -/
inductive Builtin where
  /-- A type former; its value is erased. -/
  | typeFormer
  | boolNot
  | boolOp (op : BoolOp)
  | ite
  | error
  | natSucc
  | natOp (op : NatOp)
  | intOp (op : IntOp)
  | intNeg
  | natToInt
  | intToNat
  /-- The vector of the values of a function at the first numbers. -/
  | gen
  /-- The element of a vector at an index. -/
  | index
  | append
  | mkStream
  | streamGet
  | bvNat
  | bvToNat
  | bvOp (op : WordOp)
  | bvDivision (part : Division)
  | bvCmp (op : WordCmp)
  | bvShift (kind : Word.ShiftKind)
  | bvNeg
  | bvNot
  deriving DecidableEq, Repr

/-- The name of an operation on booleans. -/
def BoolOp.name : BoolOp → String
  | and => "and"
  | or => "or"
  | xor => "xor"
  | eq => "boolEq"
  | implies => "implies"

/-- The name of an operation on natural numbers. -/
def NatOp.name : NatOp → String
  | add => "addNat"
  | sub => "subNat"
  | mul => "mulNat"
  | div => "divNat"
  | mod => "modNat"
  | eq => "equalNat"
  | lt => "ltNat"

/-- The name of an operation on integers. -/
def IntOp.name : IntOp → String
  | add => "intAdd"
  | sub => "intSub"
  | mul => "intMul"
  | eq => "intEq"
  | le => "intLe"
  | lt => "intLt"

/-- The name of an operation on words. -/
def WordOp.name : WordOp → String
  | add => "bvAdd"
  | sub => "bvSub"
  | mul => "bvMul"
  | and => "bvAnd"
  | or => "bvOr"
  | xor => "bvXor"

/-- The name of a comparison of words. -/
def WordCmp.name : WordCmp → String
  | eq => "bvEq"
  | ult => "bvult"
  | ule => "bvule"
  | ugt => "bvugt"
  | uge => "bvuge"
  | slt => "bvslt"
  | sle => "bvsle"

/-- The name of a division of words. -/
def Division.name : Division → String
  | quotient => "bvUDiv"
  | remainder => "bvURem"

/-- The name of a shift of words by a number. -/
def shiftName : Word.ShiftKind → String
  | .shl => "bvShl"
  | .shr => "bvShr"
  | .sshr => "bvSShr"
  | .rotl => "bvRotateL"
  | .rotr => "bvRotateR"

namespace Builtin

/-- The Prelude names with an implementation, and the number of arguments each
of them waits for. -/
def table : List (String × Nat × Builtin) :=
  [("Bool", 0, typeFormer), ("Nat", 0, typeFormer), ("Integer", 0, typeFormer),
    ("String", 0, typeFormer), ("Vec", 2, typeFormer), ("Stream", 1, typeFormer),
    ("not", 1, boolNot)] ++
  [BoolOp.and, .or, .xor, .eq, .implies].map (fun op => (op.name, 2, boolOp op)) ++
  [("ite", 4, ite), ("error", 2, error), ("succ", 1, natSucc)] ++
  [NatOp.add, .sub, .mul, .div, .mod, .eq, .lt].map (fun op => (op.name, 2, natOp op)) ++
  [IntOp.add, .sub, .mul, .eq, .le, .lt].map (fun op => (op.name, 2, intOp op)) ++
  [("intNeg", 1, intNeg), ("natToInt", 1, natToInt), ("intToNat", 1, intToNat),
    ("gen", 3, gen), ("at", 4, index), ("append", 5, append),
    ("MkStream", 2, mkStream), ("streamGet", 3, streamGet),
    ("bvNat", 2, bvNat), ("bvToNat", 2, bvToNat), ("bvNeg", 2, bvNeg), ("bvNot", 2, bvNot)] ++
  [WordOp.add, .sub, .mul, .and, .or, .xor].map (fun op => (op.name, 3, bvOp op)) ++
  [Division.quotient, .remainder].map (fun part => (part.name, 3, bvDivision part)) ++
  [WordCmp.eq, .ult, .ule, .ugt, .uge, .slt, .sle].map (fun op => (op.name, 3, bvCmp op)) ++
  [Word.ShiftKind.shl, .shr, .sshr, .rotl, .rotr].map (fun k => (shiftName k, 3, bvShift k))

/-- The number of arguments that each primitive of the Prelude waits for, by
ascending identifier. -/
def arities : List (Ident × Nat) :=
  (table.map fun row => (.prelude row.1, row.2.1)).mergeSort fun a b => (compare a.1 b.1).isLE

/-- The implementation of a Prelude name. -/
def ofName? (name : String) : Option Builtin :=
  (table.find? fun row => row.1 = name).map (·.2.2)

end Builtin

end TermGraph
