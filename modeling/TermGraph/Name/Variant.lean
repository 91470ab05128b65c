import Std.Data.HashSet

/-!
# Fresh names

A name is varied by counting up the decimal number that ends it: `x`, `x1`,
`x2`, …, `x9`, `x10`.  A name without such a number counts as number zero, and
leading zeros stay as long as the number fits.  `freshVariant` walks this
sequence from a base name to the first one that is not taken.  The sequence
never repeats, so `n` taken names reject at most `n` candidates.
-/

namespace TermGraph

/-- Adds one to a decimal number given least significant digit first; the
number without digits is zero. -/
def succDigits : List Char → List Char
  | [] => ['1']
  | d :: ds => if d = '9' then '0' :: succDigits ds else Char.ofNat (d.toNat + 1) :: ds

/-- The next variant of a name, as characters. -/
def nextChars (name : List Char) : List Char :=
  let back := name.reverse
  (back.dropWhile Char.isDigit).reverse ++ (succDigits (back.takeWhile Char.isDigit)).reverse

/-- The next variant of a name: the decimal number at its end plus one. -/
def nextVariant (name : String) : String :=
  String.ofList (nextChars name.toList)

/-- The first of `name`, `nextVariant name`, … that is not taken, where at most
`bound` candidates are looked at before the next one is accepted unseen. -/
def firstFree (isTaken : String → Bool) : Nat → String → String
  | 0, name => name
  | bound + 1, name =>
      if isTaken name then firstFree isTaken bound (nextVariant name) else name

/-- The first variant of `base`, starting with `base` itself, outside `taken`.
A set of `n` names cannot hold all of the first `n + 1` variants. -/
def freshVariant (taken : Std.HashSet String) (base : String) : String :=
  firstFree taken.contains taken.size base

end TermGraph
