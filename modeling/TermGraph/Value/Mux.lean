import TermGraph.Value.Heap

/-!
# Merging values

The merge of two values under a bit is the first where the bit holds and the
second elsewhere.  A known bit picks a value whatever the shapes, and equal
values need no merge.  Otherwise both must have one shape, and the merge goes
down to their bits.  A known number and a number given by a word meet as words,
two functions become a muxed function, and two streams a muxed stream, which is
a new cell of the heap.
-/

namespace TermGraph

/-- A computation over values that may add streams. -/
abbrev Merge (β : Type) : Type → Type :=
  StateT (Heap β) (Except EvalError)

namespace Value

variable {β : Type}

/-- How many bits a number takes. -/
def bitLength (n : Nat) : Nat :=
  if n = 0 then 0 else n.log2 + 1

/-- What error messages tell about the size of a value. -/
def extent : Value β → Extent
  | word bits => .length bits.length
  | vector elems => .length elems.length
  | record fields => .fields (fields.map (·.1))
  | _ => .none

/-- The failure to merge two values whose shapes differ. -/
def shapeMismatch (t e : Value β) : EvalError :=
  .cannotMerge (.shapes t.kind t.extent e.kind e.extent)

/-- Chooses between two words bit by bit. -/
def muxBits [BitLike β] (c : β) (t e : List β) : List β :=
  t.zipWith (BitLike.mux c) e

/-- Chooses between two numbers given by words, padded to one length. -/
def muxNat [BitLike β] (c : β) (t e : List β) : Value β :=
  let width := max t.length e.length
  toNat (muxBits c (Word.zeroExtend t width) (Word.zeroExtend e width))

mutual

/-- The value that is `t` where `c` holds and `e` elsewhere. -/
def mux [BitLike β] [DecidableEq β] (c : β) (t e : Value β) : Merge β (Value β) :=
  match BitLike.asLit? c with
  | some true => return t
  | some false => return e
  | none =>
      if t == e then return t
      else
        match t, e with
        | bool a, bool b => return bool (BitLike.mux c a b)
        | word a, word b =>
            if a.length = b.length then return word (muxBits c a b)
            else throw (shapeMismatch (word a) (word b))
        | toNat a, toNat b => return muxNat c a b
        | toNat a, nat n => return muxNat c a (Word.ofNat n (bitLength n))
        | nat n, toNat b => return muxNat c (Word.ofNat n (bitLength n)) b
        | int a, int b => throw (.cannotMerge (.integers a b))
        | nat a, nat b => throw (.cannotMerge (.naturals a b))
        | string a, string b => throw (.cannotMerge (.strings a b))
        | vector a, vector b =>
            if a.length = b.length then return vector (← muxList c a b)
            else throw (shapeMismatch (vector a) (vector b))
        | pair a₁ a₂, pair b₁ b₂ => do
            let left ← mux c a₁ b₁
            return pair left (← mux c a₂ b₂)
        | record a, record b =>
            if a.map (·.1) = b.map (·.1) then return record (← muxFields c a b)
            else throw (shapeMismatch (record a) (record b))
        | ctor i a, ctor j b =>
            if i = j ∧ a.length = b.length then return ctor i (← muxList c a b)
            else throw (.cannotMerge (.constructors i j))
        | stream a, stream b => do
            let id ← modifyGet (·.alloc (.mux c a b))
            return stream id
        | t, e =>
            if t.kind = .function ∧ e.kind = .function then return funMux c t e
            else throw (shapeMismatch t e)

/-- `mux` element by element. -/
def muxList [BitLike β] [DecidableEq β] (c : β) :
    List (Value β) → List (Value β) → Merge β (List (Value β))
  | a :: as, b :: bs => do
      let v ← mux c a b
      return v :: (← muxList c as bs)
  | _, _ => return []

/-- `mux` field by field, for records with the same field names. -/
def muxFields [BitLike β] [DecidableEq β] (c : β) :
    List (String × Value β) → List (String × Value β) → Merge β (List (String × Value β))
  | (x, a) :: as, (_, b) :: bs => do
      let v ← mux c a b
      return (x, v) :: (← muxFields c as bs)
  | _, _ => return []

end

end Value

end TermGraph
