import TermGraph.Eval.Machine

/-!
# What the primitives do

Arguments are checked from left to right, and the first that does not fit is the
error.  Numbers may be known or given by a word of symbolic bits: known operands
are computed with, and otherwise both become words of one length that has room
for the result.  The empty vector also counts as the empty word.

Primitives that take a function or read a stream call back into the evaluator;
these calls come as a parameter.
-/

namespace TermGraph

/-- The ways in which evaluation calls itself. -/
structure Calls (β : Type) where
  /-- The value of a term in an environment. -/
  eval : TermId → Env β → EvalM β (Value β)
  /-- The result of a function value on an argument. -/
  apply : Value β → Value β → EvalM β (Value β)
  /-- The element of a stream at an index. -/
  element : StreamId → Nat → EvalM β (Value β)

namespace Primitive

open EvalM (fail ofMerge)

/-- The largest length that fits a machine word, plus one. -/
def lengthLimit : Nat :=
  1 <<< 64

/-- The largest width of a symbolic stream index. -/
def maxStreamIndexWidth : Nat :=
  16

/-- The name of a primitive in error messages. -/
def opName : Builtin → String
  | .typeFormer => "type"
  | .boolNot => "not"
  | .boolOp op => op.name
  | .ite => "ite"
  | .error => "error"
  | .natSucc => "succ"
  | .natOp op => op.name
  | .intOp op => op.name
  | .intNeg => "intNeg"
  | .natToInt => "natToInt"
  | .intToNat => "intToNat"
  | .gen => "gen"
  | .index => "at"
  | .append => "append"
  | .mkStream => "MkStream"
  | .streamGet => "streamGet"
  | .bvNat => "bvNat"
  | .bvToNat => "bvToNat"
  | .bvOp op => op.name
  | .bvDivision part => part.name
  | .bvCmp op => op.name
  | .bvShift k => shiftName k
  | .bvNeg => "bvNeg"
  | .bvNot => "bvNot"

section Arguments

variable {β : Type}

/-- The error for an argument of the wrong kind. -/
def wrongKind (op : String) (expected : Kind) (found : Value β) : EvalError :=
  .wrongKind op expected found.kind

/-- A boolean argument. -/
def boolArg (op : String) : Value β → Except EvalError β
  | .bool b => .ok b
  | v => .error (wrongKind op .bool v)

/-- A word argument; the empty vector is the empty word. -/
def wordArg (op : String) : Value β → Except EvalError (List β)
  | .word bits => .ok bits
  | .vector [] => .ok []
  | v => .error (wrongKind op .word v)

/-- An integer argument. -/
def intArg (op : String) : Value β → Except EvalError Int
  | .int i => .ok i
  | v => .error (wrongKind op .integer v)

/-- A string argument. -/
def stringArg (op : String) : Value β → Except EvalError String
  | .string s => .ok s
  | v => .error (wrongKind op .string v)

/-- A word or vector argument, as its elements. -/
def elemsArg (op : String) (v : Value β) : Except EvalError (List (Value β)) :=
  match v.elems? with
  | some elems => .ok elems
  | none => .error (wrongKind op .vector v)

/-- A stream argument. -/
def streamArg (op : String) : Value β → Except EvalError StreamId
  | .stream id => .ok id
  | v => .error (wrongKind op .stream v)

/-- A natural number that may be known only as a word. -/
inductive NatArg (β : Type) where
  | known (n : Nat)
  | symbolic (bits : List β)

/-- The number of bits that a natural number takes. -/
def NatArg.width : NatArg β → Nat
  | known n => Value.bitLength n
  | symbolic bits => bits.length

variable [BitLike β]

/-- The natural number as a word. -/
def NatArg.toWord (width : Nat) : NatArg β → List β
  | known n => Word.ofNat n width
  | symbolic bits => Word.zeroExtend bits width

/-- A natural number argument; a word of known bits is a known number. -/
def natArg (op : String) : Value β → Except EvalError (NatArg β)
  | .nat n => .ok (.known n)
  | .toNat bits =>
      match Word.toNat? bits with
      | some n => .ok (.known n)
      | none => .ok (.symbolic bits)
  | v => .error (wrongKind op .natural v)

/-- A natural number argument that has to be known. -/
def knownNatArg (op : String) (v : Value β) : Except EvalError Nat := do
  match ← natArg op v with
  | .known n => return n
  | .symbolic _ => throw (.unsupported (.symbolicNatural op))

/-- Two word arguments of one width. -/
def wordArgs (op : String) (a b : Value β) : Except EvalError (List β × List β) := do
  let a ← wordArg op a
  let b ← wordArg op b
  if a.length = b.length then return (a, b) else throw (.unequalWidths op)

end Arguments

section Operations

variable {β : Type} [BitLike β]

/-- An operation on two booleans. -/
def boolOp (op : BoolOp) (a b : β) : β :=
  match op with
  | .and => BitLike.and a b
  | .or => BitLike.or a b
  | .xor => BitLike.xor a b
  | .eq => BitLike.iff a b
  | .implies => BitLike.or (BitLike.not a) b

/-- An operation on two known natural numbers. -/
def knownNatOp (op : NatOp) (a b : Nat) : Except EvalError (Value β) :=
  match op with
  | .add => .ok (.nat (a + b))
  | .sub => .ok (.nat (a - b))
  | .mul => .ok (.nat (a * b))
  | .div => if b = 0 then .error (.userError "division by zero") else .ok (.nat (a / b))
  | .mod => if b = 0 then .error (.userError "division by zero") else .ok (.nat (a % b))
  | .eq => .ok (.bool (BitLike.lit (a == b)))
  | .lt => .ok (.bool (BitLike.lit (decide (a < b))))

/-- How many more bits than the wider operand the result of an operation can
take. -/
def headroom (op : NatOp) (width : Nat) : Nat :=
  match op with
  | .add => 1
  | .mul => width
  | _ => 0

/-- The difference of two words, or zero where it would be negative. -/
def truncatedSub (a b : List β) : List β :=
  let underflow := Word.ult a b
  (Word.sub a b).map fun bit => BitLike.mux underflow (BitLike.lit false) bit

/-- An operation on two natural numbers given by words of one length. -/
def symbolicNatOp (op : NatOp) (a b : List β) : Except EvalError (Value β) :=
  match op with
  | .add => .ok (.toNat (Word.add a b))
  | .sub => .ok (.toNat (truncatedSub a b))
  | .mul => .ok (.toNat (Word.mul a b))
  | .div | .mod => .error (.unsupported (.symbolicNatural op.name))
  | .eq => .ok (.bool (Word.eq a b))
  | .lt => .ok (.bool (Word.ult a b))

/-- An operation on two natural numbers. -/
def natOp (op : NatOp) (a b : NatArg β) : Except EvalError (Value β) :=
  match a, b with
  | .known a, .known b => knownNatOp op a b
  | a, b =>
      let width := max a.width b.width
      let width := width + headroom op width
      symbolicNatOp op (a.toWord width) (b.toWord width)

/-- The next natural number. -/
def natSucc (a : NatArg β) : Value β :=
  match a with
  | .known n => .nat (n + 1)
  | .symbolic bits =>
      let width := max bits.length 1 + 1
      .toNat (Word.add (Word.zeroExtend bits width) (Word.ofNat 1 width))

/-- An operation on two integers. -/
def intOp (op : IntOp) (a b : Int) : Value β :=
  match op with
  | .add => .int (a + b)
  | .sub => .int (a - b)
  | .mul => .int (a * b)
  | .eq => .bool (BitLike.lit (a == b))
  | .le => .bool (BitLike.lit (decide (a ≤ b)))
  | .lt => .bool (BitLike.lit (decide (a < b)))

/-- An operation on two words. -/
def wordOp : WordOp → List β → List β → List β
  | .add => Word.add
  | .sub => Word.sub
  | .mul => Word.mul
  | .and => Word.and
  | .or => Word.or
  | .xor => Word.xor

/-- A comparison of two words. -/
def wordCmp : WordCmp → List β → List β → β
  | .eq => Word.eq
  | .ult => Word.ult
  | .ule => Word.ule
  | .ugt => Word.ugt
  | .uge => Word.uge
  | .slt => Word.slt
  | .sle => Word.sle

/-- A division of known words.  The quotient by zero has all bits set, and the
remainder by zero is the dividend. -/
def divide (part : Division) (a b width : Nat) : Nat :=
  match part with
  | .quotient => if b = 0 then (1 <<< width) - 1 else a / b
  | .remainder => if b = 0 then a else a % b

/-- A division of words, whose bits have to be known. -/
def wordDivision (part : Division) (a b : List β) : Except EvalError (Value β) :=
  match Word.toNat? a, Word.toNat? b with
  | some x, some y => .ok (.word (Word.ofNat (divide part x y a.length) a.length))
  | _, _ => .error (.unsupported (.symbolicOperands part.name))

/-- The low bits of a number as a word of a given width. -/
def bvNat (width x : Value β) : Except EvalError (Value β) := do
  match ← natArg "bvNat" width with
  | .symbolic _ => throw (.unsupported .symbolicWidth)
  | .known width =>
      if width < lengthLimit then
        match ← natArg "bvNat" x with
        | .known n => return .word (Word.ofNat n width)
        | .symbolic bits =>
            let bits := Word.zeroExtend bits width
            return .word (bits.drop (bits.length - width))
      else throw (.unsupported (.wordWidth width))

/-- The number that a word denotes. -/
def bvToNat (bits : List β) : Value β :=
  match Word.toNat? bits with
  | some n => .nat n
  | none => .toNat bits

/-- A shift of a word by a number. -/
def wordShift (kind : Word.ShiftKind) (x : List β) (amount : NatArg β) : Value β :=
  match amount with
  | .known n => .word (Word.shift kind x n)
  | .symbolic bits => .word (Word.shiftBy kind x bits)

variable [DecidableEq β]

/-- The element at a symbolic index: a chain of merges, one for each index that
the bits of `index` can form.  Where the index can point past the end, it gives
the zero value of the shape of the first element. -/
def select (elems : List (Value β)) (index : List β) : Merge β (Value β) := do
  let reachable := if index.length < 64 then elems.take (1 <<< index.length) else elems
  let covered := decide (index.length < 64 ∧ reachable.length = 1 <<< index.length)
  let (elems, last) ←
    match covered, reachable.getLast?, reachable.head? with
    | true, some last, _ => pure (reachable.dropLast, last)
    | _, _, some first => do
        let last ← first.defaultLike
        pure (reachable, last)
    | _, _, none => throw .symbolicIndexOutOfBounds
  elems.zipIdx.foldrM
    (fun p rest => Value.mux (Word.eq index (Word.ofNat p.2 index.length)) p.1 rest) last

/-- The element of a vector at an index. -/
def elementAt (v i : Value β) : EvalM β (Value β) := do
  let elems ← EvalM.ofExcept (elemsArg "at" v)
  match ← EvalM.ofExcept (natArg "at" i) with
  | .known i =>
      match elems[i]? with
      | some v => return v
      | none => fail (.indexOutOfBounds i elems.length)
  | .symbolic index => ofMerge (select elems index)

/-- The concatenation of two vectors. -/
def append (xs ys : Value β) : Except EvalError (Value β) :=
  match xs, ys with
  | .word a, .word b => .ok (.word (a ++ b))
  | xs, ys => do
      let a ← elemsArg "append" xs
      let b ← elemsArg "append" ys
      return .ofElems (a ++ b)

/-- The values of a function at `count` numbers from `start` on. -/
def tabulate (apply : Value β → Value β → EvalM β (Value β)) (fn : Value β) :
    Nat → Nat → EvalM β (List (Value β))
  | 0, _ => return []
  | count + 1, start => do
      let v ← apply fn (.nat start)
      return v :: (← tabulate apply fn count (start + 1))

/-- The vector of the values of a function at the first numbers. -/
def gen (calls : Calls β) (n fn : Value β) : EvalM β (Value β) := do
  let n ← EvalM.ofExcept (knownNatArg "gen" n)
  if n < lengthLimit then
    return .ofElems (← tabulate calls.apply fn n 0)
  else fail (.unsupported (.length "gen" n))

/-- A new stream with the elements that a function gives. -/
def mkStream (fn : Value β) : EvalM β (Value β) := do
  let id ← ofMerge (modifyGet (·.alloc (.generator fn)))
  return .stream id

/-- The element of a stream at an index; a symbolic index selects among all the
elements it can reach. -/
def streamGet (calls : Calls β) (stream index : Value β) : EvalM β (Value β) := do
  let id ← EvalM.ofExcept (streamArg "streamGet" stream)
  match ← EvalM.ofExcept (natArg "streamGet" index) with
  | .known n => calls.element id n
  | .symbolic bits =>
      if bits.length ≤ maxStreamIndexWidth then
        let elems ← (List.range (1 <<< bits.length)).mapM (calls.element id)
        ofMerge (select elems bits)
      else fail (.unsupported (.streamIndexWidth bits.length))

/-- Raises the error that a term asks for. -/
def raise (message : Value β) : Except EvalError (Value β) := do
  throw (.userError (← stringArg "error" message))

/-- The result of a primitive on its arguments. -/
def run (calls : Calls β) (op : Builtin) (args : List (Value β)) : EvalM β (Value β) :=
  let name := opName op
  match op, args with
  | .typeFormer, _ => return .type
  | .boolNot, [a] => EvalM.ofExcept do
      return .bool (BitLike.not (← boolArg name a))
  | .boolOp op, [a, b] => EvalM.ofExcept do
      let a ← boolArg name a
      return .bool (boolOp op a (← boolArg name b))
  | .ite, [_, c, t, e] => do
      let c ← EvalM.ofExcept (boolArg name c)
      ofMerge (Value.mux c t e)
  | .error, [_, message] => EvalM.ofExcept (raise message)
  | .natSucc, [a] => EvalM.ofExcept do
      return natSucc (← natArg name a)
  | .natOp op, [a, b] => EvalM.ofExcept do
      let a ← natArg name a
      natOp op a (← natArg name b)
  | .intOp op, [a, b] => EvalM.ofExcept do
      let a ← intArg name a
      return intOp op a (← intArg name b)
  | .intNeg, [a] => EvalM.ofExcept do
      return .int (-(← intArg name a))
  | .natToInt, [a] => EvalM.ofExcept do
      return .int (← knownNatArg name a)
  | .intToNat, [a] => EvalM.ofExcept do
      return .nat (← intArg name a).toNat
  | .gen, [n, _, fn] => gen calls n fn
  | .index, [_, _, v, i] => elementAt v i
  | .append, [_, _, _, xs, ys] => EvalM.ofExcept (append xs ys)
  | .mkStream, [_, fn] => mkStream fn
  | .streamGet, [_, stream, index] => streamGet calls stream index
  | .bvNat, [width, x] => EvalM.ofExcept (bvNat width x)
  | .bvToNat, [_, x] => EvalM.ofExcept do
      return bvToNat (← wordArg name x)
  | .bvOp op, [_, a, b] => EvalM.ofExcept do
      let (a, b) ← wordArgs name a b
      return .word (wordOp op a b)
  | .bvDivision part, [_, a, b] => EvalM.ofExcept do
      let (a, b) ← wordArgs name a b
      wordDivision part a b
  | .bvCmp op, [_, a, b] => EvalM.ofExcept do
      let (a, b) ← wordArgs name a b
      return .bool (wordCmp op a b)
  | .bvShift kind, [_, x, amount] => EvalM.ofExcept do
      let x ← wordArg name x
      return wordShift kind x (← natArg name amount)
  | .bvNeg, [_, a] => EvalM.ofExcept do
      return .word (Word.neg (← wordArg name a))
  | .bvNot, [_, a] => EvalM.ofExcept do
      return .word (Word.not (← wordArg name a))
  | _, args => fail (.unsupported (.arguments name args.length))

end Operations

end Primitive

end TermGraph
