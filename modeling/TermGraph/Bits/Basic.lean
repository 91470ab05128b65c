import TermGraph.Eval.Error

/-!
# Types of bits

The evaluator does not fix what a bit is.  `BitLike` collects what it asks of
one: the two literals, the boolean operations, and input variables, which only a
symbolic type has.  Equivalence and choice are defined from these, so they mean
the same for every type of bits.
-/

namespace TermGraph

/-- A type whose values stand for bits. -/
class BitLike (β : Type) where
  /-- The bit of a known value. -/
  lit : Bool → β
  /-- The value of a bit that is known to be constant. -/
  asLit? : β → Option Bool
  not : β → β
  and : β → β → β
  xor : β → β → β
  or : β → β → β := fun a b => xor (xor a b) (and a b)
  /-- The input variable of a number. -/
  var : Nat → Except EvalError β

namespace BitLike

variable {β : Type} [BitLike β]

/-- Whether two bits agree. -/
def iff (a b : β) : β :=
  not (xor a b)

/-- The bit `t` where `c` holds and `e` elsewhere; a known `c` picks at once. -/
def mux (c t e : β) : β :=
  match asLit? c with
  | some true => t
  | some false => e
  | none => xor e (and c (xor t e))

end BitLike

/-- Known bits; there are no input variables. -/
instance : BitLike Bool where
  lit := id
  asLit? := some
  not := Bool.not
  and := Bool.and
  xor := Bool.xor
  or := Bool.or
  var i := .error (.unsupported (.symbolicInput i))

end TermGraph
