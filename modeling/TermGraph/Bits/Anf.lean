import TermGraph.Bits.Basic
import TermGraph.Order.Ascending

/-!
# Algebraic normal form

A formula is the exclusive or of monomials, and a monomial is the conjunction of
distinct input variables; the empty monomial is the constant one.  Monomials are
ascending lists of variables, and a formula lists its monomials in ascending
lexicographic order, each of them once.  With that order equal functions have
equal formulas, so constants are recognised by their shape.

Both operations collect monomials in order and then strike out equal pairs:
`xor` merges the two lists, `and` sorts all products.
-/

namespace TermGraph

/-- A conjunction of variables, ascending. -/
abbrev Monomial : Type :=
  List Nat

/-- An exclusive or of monomials, ascending. -/
structure Anf where
  monomials : List Monomial
  deriving DecidableEq, Repr, Hashable

namespace Anf

/-- The formula that is always false. -/
def zero : Anf :=
  ⟨[]⟩

/-- The formula that is always true. -/
def one : Anf :=
  ⟨[[]]⟩

/-- The formula of a known value. -/
def const (b : Bool) : Anf :=
  if b then one else zero

/-- The formula of an input variable. -/
def var (i : Nat) : Anf :=
  ⟨[[i]]⟩

/-- The value of a constant formula. -/
def asConst? (a : Anf) : Option Bool :=
  match a.monomials with
  | [] => some false
  | [[]] => some true
  | _ => none

/-- Puts a monomial in front, or strikes it out against an equal first one. -/
def toggle (m : Monomial) : List Monomial → List Monomial
  | [] => [m]
  | x :: rest => if m = x then rest else m :: x :: rest

/-- Strikes out pairs of equal neighbours. -/
def cancel (ms : List Monomial) : List Monomial :=
  ms.foldr toggle []

/-- The order in which a formula lists its monomials. -/
def monomialLe (a b : Monomial) : Bool :=
  ¬ b < a

/-- Exclusive or. -/
def xor (a b : Anf) : Anf :=
  ⟨cancel (a.monomials.merge b.monomials monomialLe)⟩

/-- All products of a monomial of `a` with one of `b`. -/
def products (a b : List Monomial) : List Monomial :=
  a.flatMap fun m => b.map (unionAsc m)

/-- Conjunction; a constant operand needs no products. -/
def and (a b : Anf) : Anf :=
  match a.asConst?, b.asConst? with
  | some false, _ => zero
  | _, some false => zero
  | some true, _ => b
  | _, some true => a
  | none, none => ⟨cancel ((products a.monomials b.monomials).mergeSort monomialLe)⟩

/-- Negation. -/
def not (a : Anf) : Anf :=
  a.xor one

/-- The value of a formula under an assignment of its variables. -/
def eval (s : Nat → Bool) (a : Anf) : Bool :=
  (a.monomials.filter fun m => m.all s).length % 2 = 1

/-- The variables of a formula, ascending. -/
def support (a : Anf) : List Nat :=
  a.monomials.foldr unionAsc []

/-- The text of a monomial. -/
def monomialText (m : Monomial) : String :=
  if m.isEmpty then "1" else "*".intercalate (m.map fun i => "x" ++ toString i)

/-- The text of a formula. -/
def text (a : Anf) : String :=
  if a.monomials.isEmpty then "0" else " ^ ".intercalate (a.monomials.map monomialText)

/-- Formulas as bits. -/
instance : BitLike Anf where
  lit := const
  asLit? := asConst?
  not := not
  and := and
  xor := xor
  var i := .ok (var i)

end Anf

end TermGraph
