import TermGraph.Bits.Word
import TermGraph.Term.Store
import TermGraph.Value.IndexTrie

/-!
# Values

Values are plain data over a type of bits.  Functions are data as well: a
closure names a function node and holds the values of its free indices, a
partial application waits for more arguments of a primitive, and a muxed
function applies two functions and merges the results.  Types are erased.

A stream is a name for a cell of a `Heap`, where its elements are remembered as
they are computed.  Two streams are equal when they are the same cell; all other
values are compared by their contents.
-/

namespace TermGraph

/-- The name of a stream in a heap. -/
abbrev StreamId : Type :=
  Nat

/-- A value over bits of type `β`. -/
inductive Value (β : Type) where
  | bool (bit : β)
  /-- A vector of bits, most significant first. -/
  | word (bits : List β)
  | int (value : Int)
  | nat (value : Nat)
  /-- The natural number that a word denotes. -/
  | toNat (bits : List β)
  | vector (elems : List (Value β))
  | unit
  | pair (left right : Value β)
  /-- A record, its fields in ascending order of their names. -/
  | record (fields : List (String × Value β))
  | ctor (ident : Ident) (args : List (Value β))
  /-- A function node and the values of its free indices, innermost first. -/
  | closure (lambda : TermId) (env : List (Value β))
  /-- A primitive that has not received all of its arguments. -/
  | partialApp (prim : Ident) (args : List (Value β))
  /-- Applies both functions and merges the results. -/
  | funMux (cond : β) (onTrue onFalse : Value β)
  /-- An erased type. -/
  | type
  | string (value : String)
  | stream (id : StreamId)
  deriving Inhabited

/-- The values of bound variables, innermost first. -/
abbrev Env (β : Type) : Type :=
  List (Value β)

namespace Value

variable {β : Type}

/-- The shape of a value. -/
def kind : Value β → Kind
  | bool _ => .bool
  | word _ => .word
  | int _ => .integer
  | nat _ => .natural
  | toNat _ => .symbolicNatural
  | vector _ => .vector
  | unit => .unit
  | pair _ _ => .pair
  | record _ => .record
  | ctor _ _ => .constructor
  | closure _ _ | partialApp _ _ | funMux _ _ _ => .function
  | type => .type
  | string _ => .string
  | stream _ => .stream

mutual

/-- Whether two values are equal; streams are equal when they are one cell. -/
def beq [DecidableEq β] : Value β → Value β → Bool
  | bool a, bool b => a = b
  | word a, word b => a = b
  | int a, int b => a = b
  | nat a, nat b => a = b
  | toNat a, toNat b => a = b
  | vector a, vector b => beqList a b
  | unit, unit => true
  | pair a₁ a₂, pair b₁ b₂ => beq a₁ b₁ && beq a₂ b₂
  | record a, record b => beqFields a b
  | ctor i a, ctor j b => i = j && beqList a b
  | closure f a, closure g b => f = g && beqList a b
  | partialApp i a, partialApp j b => i = j && beqList a b
  | funMux c a₁ a₂, funMux d b₁ b₂ => c = d && beq a₁ b₁ && beq a₂ b₂
  | type, type => true
  | string a, string b => a = b
  | stream a, stream b => a = b
  | _, _ => false

/-- `beq` element by element. -/
def beqList [DecidableEq β] : List (Value β) → List (Value β) → Bool
  | [], [] => true
  | a :: as, b :: bs => beq a b && beqList as bs
  | _, _ => false

/-- `beq` field by field. -/
def beqFields [DecidableEq β] : List (String × Value β) → List (String × Value β) → Bool
  | [], [] => true
  | (x, a) :: as, (y, b) :: bs => x = y && beq a b && beqFields as bs
  | _, _ => false

end

instance [DecidableEq β] : BEq (Value β) :=
  ⟨beq⟩

/-- The bit of a boolean. -/
def asBit? : Value β → Option β
  | bool b => some b
  | _ => none

/-- The vector of some elements: a word when there are elements and all of them
are booleans. -/
def ofElems (elems : List (Value β)) : Value β :=
  match elems with
  | [] => vector []
  | _ =>
      match elems.mapM asBit? with
      | some bits => word bits
      | none => vector elems

/-- The elements of a word or vector. -/
def elems? : Value β → Option (List (Value β))
  | word bits => some (bits.map bool)
  | vector elems => some elems
  | _ => none

/-- Adds a field to fields in ascending order of their names; a field of the
same name is replaced. -/
def insertField {α : Type} (x : String) (a : α) : List (String × α) → List (String × α)
  | [] => [(x, a)]
  | (y, b) :: rest =>
      if x < y then (x, a) :: (y, b) :: rest
      else if x = y then (x, a) :: rest
      else (y, b) :: insertField x a rest

/-- The fields in ascending order of their names, the last of each name. -/
def sortFields {α : Type} (fields : List (String × α)) : List (String × α) :=
  fields.foldl (fun sorted p => insertField p.1 p.2 sorted) []

/-- The record of some fields in any order; of two fields of one name the later
one counts. -/
def ofFields (fields : List (String × Value β)) : Value β :=
  record (sortFields fields)

mutual

/-- The value of the same shape with every leaf zero or false. -/
def defaultLike [BitLike β] : Value β → Except EvalError (Value β)
  | bool _ => .ok (bool (BitLike.lit false))
  | word bits => .ok (word (Word.zeros bits.length))
  | int _ => .ok (int 0)
  | nat _ => .ok (nat 0)
  | toNat bits => .ok (toNat (Word.zeros bits.length))
  | vector elems => do return vector (← defaultLikeList elems)
  | unit => .ok unit
  | type => .ok type
  | pair a b => do
      let a ← defaultLike a
      return pair a (← defaultLike b)
  | record fields => do return record (← defaultLikeFields fields)
  | ctor _ _ => .error (.noDefaultValue .constructor)
  | closure _ _ | partialApp _ _ | funMux _ _ _ => .error (.noDefaultValue .function)
  | string _ => .error (.noDefaultValue .string)
  | stream _ => .error (.noDefaultValue .stream)

/-- `defaultLike` element by element. -/
def defaultLikeList [BitLike β] : List (Value β) → Except EvalError (List (Value β))
  | [] => .ok []
  | a :: as => do
      let a ← defaultLike a
      return a :: (← defaultLikeList as)

/-- `defaultLike` field by field. -/
def defaultLikeFields [BitLike β] :
    List (String × Value β) → Except EvalError (List (String × Value β))
  | [] => .ok []
  | (x, a) :: rest => do
      let a ← defaultLike a
      return (x, a) :: (← defaultLikeFields rest)

end

end Value

end TermGraph
