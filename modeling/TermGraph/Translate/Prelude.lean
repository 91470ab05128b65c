import TermGraph.Translate.Treatment

/-!
# Default treatments of the Prelude

Booleans, numbers and strings map to the library of the target.  Operations on
words exist in a support library under their own names, so they are kept where
they are used and skipped where they are defined.
-/

namespace TermGraph

namespace TreatmentTable

/-- The operations on words that the support library defines. -/
def supportedWordOps : List String :=
  ["bvAdd", "bvSub", "bvMul", "bvUDiv", "bvURem", "bvNeg", "bvAnd", "bvOr", "bvXor", "bvNot",
    "bvEq", "bvult", "bvule", "bvugt", "bvuge", "bvShl", "bvShr", "bvSShr", "bvRotateL",
    "bvRotateR", "bvToNat"]

/-- The type of vectors, whose arguments are the other way round in the target. -/
def vectorType : Target.Template :=
  .mergedApp (.var "Vector") [.hole 1, .hole 0]

/-- The word of a number. -/
def wordOfNat : Target.Template :=
  .mergedApp (.var "BitVec.ofNat") [.hole 0, .hole 1]

/-- The treatments of names of the Prelude. -/
def preludeEntries : List (String × Treatment) :=
  [("Bool", .mapsToUnqualified "Bool"), ("Nat", .mapsToUnqualified "Nat"),
    ("Integer", .mapsToUnqualified "Int"), ("String", .mapsToUnqualified "String"),
    ("Vec", .expand 2 vectorType),
    ("and", .mapsTo "Bool" "and"), ("or", .mapsTo "Bool" "or"), ("xor", .mapsTo "Bool" "xor"),
    ("not", .mapsTo "Bool" "not"), ("boolEq", .mapsTo "Bool" "beq"),
    ("ite", (Treatment.mapsToUnqualified "ite").explicit),
    ("addNat", .mapsTo "Nat" "add"), ("subNat", .mapsTo "Nat" "sub"),
    ("mulNat", .mapsTo "Nat" "mul"), ("divNat", .mapsTo "Nat" "div"),
    ("modNat", .mapsTo "Nat" "mod"), ("equalNat", .mapsTo "Nat" "beq"),
    ("ltNat", .mapsTo "Nat" "blt"),
    ("intAdd", .mapsTo "Int" "add"), ("intSub", .mapsTo "Int" "sub"),
    ("intMul", .mapsTo "Int" "mul"), ("intNeg", .mapsTo "Int" "neg"),
    ("natToInt", .mapsTo "Int" "ofNat"),
    ("bvNat", .expand 2 wordOfNat)] ++
  supportedWordOps.map fun name => (name, .skip)

/-- The default treatments. -/
def default : TreatmentTable :=
  ofList (preludeEntries.map fun p => (.prelude p.1, p.2))

end TreatmentTable

end TermGraph
