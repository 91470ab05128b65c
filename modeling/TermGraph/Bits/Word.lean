import TermGraph.Bits.Basic

/-!
# Words

A word is a list of bits, most significant first.  Addition carries from the
last bit to the first, multiplication adds shifted copies, and comparisons read
the carry of a subtraction.  Operations on two words are meant for words of one
length.
-/

namespace TermGraph

namespace Word

variable {β : Type} [BitLike β]

/-- A word of known zeros. -/
def zeros (width : Nat) : List β :=
  List.replicate width (BitLike.lit false)

/-- Pads a word with leading zeros up to a width. -/
def zeroExtend (bits : List β) (width : Nat) : List β :=
  zeros (width - bits.length) ++ bits

/-- The low bits of a number. -/
def ofNat (n width : Nat) : List β :=
  (List.range width).reverse.map fun bit => BitLike.lit (n.testBit bit)

/-- The number that a word of known bits denotes. -/
def toNat? (bits : List β) : Option Nat :=
  bits.foldlM (fun n bit => (BitLike.asLit? bit).map fun b => 2 * n + b.toNat) 0

/-- Sum of two words and an incoming carry, with the outgoing carry. -/
def addWithCarry : List β → List β → β → List β × β
  | a :: as, b :: bs, carryIn =>
      let (sum, carry) := addWithCarry as bs carryIn
      let half := BitLike.xor a b
      -- The two parts of the carry are never both set.
      (BitLike.xor half carry :: sum, BitLike.xor (BitLike.and a b) (BitLike.and carry half))
  | _, _, carryIn => ([], carryIn)

/-- Sum, without the carry. -/
def add (a b : List β) : List β :=
  (addWithCarry a b (BitLike.lit false)).1

/-- Negation of every bit. -/
def not (a : List β) : List β :=
  a.map BitLike.not

/-- Difference, without the borrow. -/
def sub (a b : List β) : List β :=
  (addWithCarry a (not b) (BitLike.lit true)).1

/-- The negative of a word in two's complement. -/
def neg (a : List β) : List β :=
  sub (zeros a.length) a

/-- Conjunction of each pair of bits. -/
def and (a b : List β) : List β :=
  a.zipWith BitLike.and b

/-- Disjunction of each pair of bits. -/
def or (a b : List β) : List β :=
  a.zipWith BitLike.or b

/-- Exclusive or of each pair of bits. -/
def xor (a b : List β) : List β :=
  a.zipWith BitLike.xor b

/-- Whether two words agree in every bit. -/
def eq (a b : List β) : β :=
  (a.zip b).foldl (fun acc p => BitLike.and acc (BitLike.iff p.1 p.2)) (BitLike.lit true)

/-- Unsigned less than: the subtraction borrows. -/
def ult (a b : List β) : β :=
  BitLike.not (addWithCarry a (not b) (BitLike.lit true)).2

/-- Unsigned at most. -/
def ule (a b : List β) : β :=
  BitLike.not (ult b a)

/-- Unsigned greater than. -/
def ugt (a b : List β) : β :=
  ult b a

/-- Unsigned at least. -/
def uge (a b : List β) : β :=
  BitLike.not (ult a b)

/-- Negates the sign bit, which turns signed order into unsigned order. -/
def flipSign : List β → List β
  | [] => []
  | sign :: rest => BitLike.not sign :: rest

/-- Signed less than. -/
def slt (a b : List β) : β :=
  ult (flipSign a) (flipSign b)

/-- Signed at most. -/
def sle (a b : List β) : β :=
  BitLike.not (slt b a)

/-- A way to move the bits of a word. -/
inductive ShiftKind where
  /-- Toward the most significant bit, filling with zeros. -/
  | shl
  /-- Toward the least significant bit, filling with zeros. -/
  | shr
  /-- Toward the least significant bit, filling with the sign. -/
  | sshr
  /-- Toward the most significant bit, around the end. -/
  | rotl
  /-- Toward the least significant bit, around the end. -/
  | rotr
  deriving DecidableEq, Repr

/-- Shifts or rotates by a known amount.  Shifts saturate at the width and
rotations go around it. -/
def shift (kind : ShiftKind) (bits : List β) (amount : Nat) : List β :=
  match bits with
  | [] => []
  | sign :: _ =>
      let width := bits.length
      let k := min amount width
      let r := amount % width
      match kind with
      | .shl => bits.drop k ++ zeros k
      | .shr => zeros k ++ bits.take (width - k)
      | .sshr => List.replicate k sign ++ bits.take (width - k)
      | .rotl => bits.drop r ++ bits.take r
      | .rotr => bits.drop (width - r) ++ bits.take (width - r)

/-- Shifts or rotates by an amount given as a word: each bit of the amount
applies the shift by its own weight. -/
def shiftBy (kind : ShiftKind) (bits : List β) : List β → List β
  | [] => bits
  | bit :: rest =>
      let moved := shift kind bits (2 ^ rest.length)
      shiftBy kind (List.zipWith (BitLike.mux bit) moved bits) rest

/-- Product: a copy of `a`, shifted by its weight, for each bit of `b` from the
least significant one.  A bit known to be zero adds nothing. -/
def mul (a b : List β) : List β :=
  b.reverse.zipIdx.foldl
    (fun product p =>
      match BitLike.asLit? p.1 with
      | some false => product
      | _ => add product ((shift .shl a p.2).map fun x => BitLike.and x p.1))
    (zeros a.length)

end Word

end TermGraph
