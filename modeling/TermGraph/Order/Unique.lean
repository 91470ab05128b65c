/-!
# Sets of names in order

A list of names without its repetitions, in ascending order of code points.
-/

namespace TermGraph

/-- Drops each name that equals the one before it. -/
def dropRepeats : List String → List String
  | [] => []
  | [x] => [x]
  | x :: y :: rest => if x = y then dropRepeats (y :: rest) else x :: dropRepeats (y :: rest)

/-- The names of a list in ascending order, each once. -/
def sortUnique (names : List String) : List String :=
  dropRepeats (names.mergeSort fun a b => a ≤ b)

end TermGraph
