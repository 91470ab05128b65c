/-!
# Index tries

A finite map on natural numbers, kept as a binary tree: a number is found by
following its bits from the least significant one up to its highest set bit.
-/

namespace TermGraph

/-- A map on natural numbers: the value at zero, and the maps of the even and of
the odd numbers, each under half the number. -/
inductive IndexTrie (α : Type) where
  | empty
  | node (value : Option α) (even odd : IndexTrie α)

namespace IndexTrie

variable {α : Type}

/-- The value at an index. -/
def get? : IndexTrie α → Nat → Option α
  | empty, _ => none
  | node value even odd, n =>
      if n = 0 then value
      else if n % 2 = 0 then even.get? (n / 2)
      else odd.get? (n / 2)

/-- Sets the value at an index. -/
def insert (t : IndexTrie α) (n : Nat) (a : α) : IndexTrie α :=
  let (value, even, odd) : Option α × IndexTrie α × IndexTrie α :=
    match t with
    | empty => (none, empty, empty)
    | node value even odd => (value, even, odd)
  if _ : n = 0 then node (some a) even odd
  else if n % 2 = 0 then node value (even.insert (n / 2) a) odd
  else node value even (odd.insert (n / 2) a)
termination_by n

/-- The number of indices that have a value. -/
def size : IndexTrie α → Nat
  | empty => 0
  | node value even odd => value.toList.length + even.size + odd.size

/-- Whether no index has a value. -/
def isEmpty (t : IndexTrie α) : Bool :=
  t.size = 0

end IndexTrie

end TermGraph
