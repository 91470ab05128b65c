import Mathlib
import TermGraph.Proofs.Bits.Circuits

/-!
# Circuits stay in range

A circuit is a loop over the positions of its operands: it reads a bit at an index, writes one,
cuts a word in two, and finds weights and widths by subtraction.  Each of these steps has no
result outside of its range.  Here the circuits are written with the steps that they take, and
a step outside of its range is told apart.

Every circuit is then shown to take no such step and to give what it is meant to.  Sums,
products and comparisons ask for two words of one length; shifts, by whatever amount, and
padding, to whatever width, ask for nothing.
-/

namespace TermGraph

/-- A step that has no result. -/
inductive OutOfRange where
  /-- The element at an index that is not below the length. -/
  | index (i length : Nat)
  /-- A cut behind the end. -/
  | cut (i length : Nat)
  /-- A difference of natural numbers that is negative. -/
  | difference (a b : Nat)
  /-- A quotient or a remainder by zero. -/
  | divisor (a : Nat)
  /-- A power of two that no machine word holds. -/
  | power (n : Nat)
  deriving DecidableEq, Repr

/-- A computation whose steps may be out of range. -/
abbrev Checked : Type → Type :=
  Except OutOfRange

namespace Checked

/-! ## Steps -/

section Steps

variable {α : Type}

/-- The element at an index. -/
def read (as : List α) (i : Nat) : Checked α :=
  match as[i]? with
  | some a => pure a
  | none => throw (.index i as.length)

/-- Replaces the element at an index. -/
def write (as : List α) (i : Nat) (a : α) : Checked (List α) :=
  if i < as.length then pure (as.set i a) else throw (.index i as.length)

/-- The elements before a cut. -/
def before (as : List α) (i : Nat) : Checked (List α) :=
  if i ≤ as.length then pure (as.take i) else throw (.cut i as.length)

/-- The elements behind a cut. -/
def behind (as : List α) (i : Nat) : Checked (List α) :=
  if i ≤ as.length then pure (as.drop i) else throw (.cut i as.length)

/-- The difference of two natural numbers. -/
def sub (a b : Nat) : Checked Nat :=
  if b ≤ a then pure (a - b) else throw (.difference a b)

/-- The quotient of two natural numbers. -/
def div (a b : Nat) : Checked Nat :=
  if b = 0 then throw (.divisor a) else pure (a / b)

/-- The remainder of two natural numbers. -/
def mod (a b : Nat) : Checked Nat :=
  if b = 0 then throw (.divisor a) else pure (a % b)

/-- A power of two as a machine word. -/
def power (n : Nat) : Checked Nat :=
  if n < 64 then pure (1 <<< n) else throw (.power n)

variable {as : List α} {x : α} {i a b : Nat}

theorem read_eq (h : as[i]? = some x) : read as i = pure x := by
  rw [read, h]

theorem write_eq (h : i < as.length) (x : α) : write as i x = pure (as.set i x) :=
  if_pos h

theorem before_eq (h : i ≤ as.length) : before as i = pure (as.take i) :=
  if_pos h

theorem behind_eq (h : i ≤ as.length) : behind as i = pure (as.drop i) :=
  if_pos h

theorem sub_eq (h : b ≤ a) : sub a b = pure (a - b) :=
  if_pos h

theorem div_eq (h : b ≠ 0) : div a b = pure (a / b) :=
  if_neg h

theorem mod_eq (h : b ≠ 0) : mod a b = pure (a % b) :=
  if_neg h

theorem power_eq (h : i < 64) : power i = pure (1 <<< i) :=
  if_pos h

end Steps

/-! ## Sums and comparisons -/

section Sums

variable {β : Type} [BitLike β]

/-- One position of a sum: it gets its bit, and the carry moves on. -/
def addStep (a b : List β) (i : Nat) (state : List β × β) : Checked (List β × β) := do
  let x ← read a i
  let y ← read b i
  let half := BitLike.xor x y
  let sum ← write state.1 i (BitLike.xor half state.2)
  return (sum, BitLike.xor (BitLike.and x y) (BitLike.and state.2 half))

/-- Sum of two words and an incoming carry: the positions of the first word from the last to
the first one. -/
def addWithCarry (a b : List β) (carryIn : β) : Checked (List β × β) :=
  (List.range a.length).foldrM (addStep a b) (Word.zeros a.length, carryIn)

/-- Sum, without the carry. -/
def add (a b : List β) : Checked (List β) := do
  return (← addWithCarry a b (BitLike.lit false)).1

/-- Difference, without the borrow. -/
def wordSub (a b : List β) : Checked (List β) := do
  return (← addWithCarry a (Word.not b) (BitLike.lit true)).1

/-- The negative of a word. -/
def neg (a : List β) : Checked (List β) :=
  wordSub (Word.zeros a.length) a

/-- Unsigned less than. -/
def ult (a b : List β) : Checked β := do
  return BitLike.not (← addWithCarry a (Word.not b) (BitLike.lit true)).2

/-- Signed less than. -/
def slt (a b : List β) : Checked β :=
  ult (Word.flipSign a) (Word.flipSign b)

variable {a b : List β}

theorem addStep_eq {x y : β} {k : Nat} (hx : a[k]? = some x) (hy : b[k]? = some y)
    (rest : List β) (carry : β) :
    addStep a b k (Word.zeros (k + 1) ++ rest, carry) =
      pure (Word.zeros k ++ BitLike.xor (BitLike.xor x y) carry :: rest,
        BitLike.xor (BitLike.and x y) (BitLike.and carry (BitLike.xor x y))) := by
  have hlt : k < (Word.zeros (k + 1) ++ rest).length := by
    rw [List.length_append, Word.length_zeros]
    omega
  have hset (z : β) : (Word.zeros (k + 1) ++ rest).set k z = Word.zeros k ++ z :: rest := by
    have hzeros : (Word.zeros (k + 1) : List β) = Word.zeros k ++ [BitLike.lit false] :=
      List.replicate_succ'
    rw [hzeros, List.append_assoc, List.set_append_right _ _ (by rw [Word.length_zeros]),
      Word.length_zeros, Nat.sub_self]
    rfl
  simp only [addStep, read_eq hx, read_eq hy, write_eq hlt, pure_bind, hset]

/-- The positions from `k` on give the sum of the words behind a cut at `k`, with zeros in
front; the positions before it are still to come. -/
theorem foldrM_addStep (h : a.length = b.length) (carryIn : β) {k : Nat} (hk : k ≤ a.length) :
    (List.range k).foldrM (addStep a b)
        (Word.zeros k ++ (Word.addWithCarry (a.drop k) (b.drop k) carryIn).1,
          (Word.addWithCarry (a.drop k) (b.drop k) carryIn).2) =
      pure (Word.addWithCarry a b carryIn) := by
  induction k with
  | zero => rfl
  | succ k ih =>
      have ha : k < a.length := by omega
      have hb : k < b.length := by omega
      -- The last position that is left adds the first bits behind the cut before it.
      have hcut : Word.addWithCarry (a.drop k) (b.drop k) carryIn =
          (BitLike.xor (BitLike.xor a[k] b[k])
              (Word.addWithCarry (a.drop (k + 1)) (b.drop (k + 1)) carryIn).2 ::
            (Word.addWithCarry (a.drop (k + 1)) (b.drop (k + 1)) carryIn).1,
            BitLike.xor (BitLike.and a[k] b[k])
              (BitLike.and (Word.addWithCarry (a.drop (k + 1)) (b.drop (k + 1)) carryIn).2
                (BitLike.xor a[k] b[k]))) := by
        rw [List.drop_eq_getElem_cons ha, List.drop_eq_getElem_cons hb, Word.addWithCarry]
      have hrest := ih (by omega)
      rw [hcut] at hrest
      rw [List.range_succ, List.foldrM_append, List.foldrM_cons, List.foldrM_nil, pure_bind,
        addStep_eq (List.getElem?_eq_getElem ha) (List.getElem?_eq_getElem hb), pure_bind]
      exact hrest

theorem addWithCarry_eq (h : a.length = b.length) (carryIn : β) :
    addWithCarry a b carryIn = pure (Word.addWithCarry a b carryIn) := by
  have hall := foldrM_addStep h carryIn le_rfl
  rw [List.drop_length, h, List.drop_length, ← h] at hall
  simp only [Word.addWithCarry, List.append_nil] at hall
  exact hall

theorem add_eq (h : a.length = b.length) : add a b = pure (Word.add a b) := by
  rw [add, addWithCarry_eq h, pure_bind, Word.add]

theorem wordSub_eq (h : a.length = b.length) : wordSub a b = pure (Word.sub a b) := by
  rw [wordSub, addWithCarry_eq (by rw [Word.length_not, h]), pure_bind, Word.sub]

theorem neg_eq (a : List β) : neg a = pure (Word.neg a) :=
  wordSub_eq (Word.length_zeros _)

theorem ult_eq (h : a.length = b.length) : ult a b = pure (Word.ult a b) := by
  rw [ult, addWithCarry_eq (by rw [Word.length_not, h]), pure_bind, Word.ult]

theorem slt_eq (h : a.length = b.length) : slt a b = pure (Word.slt a b) :=
  ult_eq (by rw [Word.length_flipSign, Word.length_flipSign, h])

end Sums

/-! ## Shifts -/

section Shifts

variable {β : Type} [BitLike β]

/-- Shifts or rotates by a known amount. -/
def shift (kind : Word.ShiftKind) (bits : List β) (amount : Nat) : Checked (List β) := do
  let width := bits.length
  if width = 0 then return []
  else
    let k := min amount width
    match kind with
    | .shl => return (← behind bits k) ++ Word.zeros k
    | .shr => return Word.zeros k ++ (← before bits (← sub width k))
    | .sshr =>
        let sign ← read bits 0
        return List.replicate k sign ++ (← before bits (← sub width k))
    | .rotl =>
        let r ← mod amount width
        return (← behind bits r) ++ (← before bits r)
    | .rotr =>
        let r ← mod amount width
        return (← behind bits (← sub width r)) ++ (← before bits (← sub width r))

/-- The part of an amount that a shift is done by: rotations reduce it by the width, if there
is one.  To cut it down to a machine integer afterwards makes no difference, and it can always be
done. -/
def shiftAmount (kind : Word.ShiftKind) (amount width : Nat) : Checked Nat :=
  match kind with
  | .rotl | .rotr => if 0 < width then mod amount width else pure amount
  | .shl | .shr | .sshr => pure amount

/-- One bit of the amount of a shift: where it is set, the word moves by its weight. -/
def shiftStep (kind : Word.ShiftKind) (width places : Nat) (acc : List β) (bit : β × Nat) :
    Checked (List β) := do
  let weight ← sub (← sub places 1) bit.2
  let moved ← shift kind acc (← shiftAmount kind (2 ^ weight) width)
  return moved.zipWith (BitLike.mux bit.1) acc

/-- Shifts or rotates by an amount given as a word. -/
def shiftBy (kind : Word.ShiftKind) (bits amount : List β) : Checked (List β) :=
  amount.zipIdx.foldlM (shiftStep kind bits.length amount.length) bits

variable {bits : List β}

/-- A word may be shifted by any amount. -/
theorem shift_eq (kind : Word.ShiftKind) (bits : List β) (amount : Nat) :
    shift kind bits amount = pure (Word.shift kind bits amount) := by
  cases bits with
  | nil => rfl
  | cons sign rest =>
      have hne : (sign :: rest).length ≠ 0 := by simp
      have hmin : min amount (sign :: rest).length ≤ (sign :: rest).length := by omega
      have hmod : amount % (sign :: rest).length ≤ (sign :: rest).length :=
        (Nat.mod_lt _ (Nat.pos_of_ne_zero hne)).le
      have hrest (k : Nat) : (sign :: rest).length - k ≤ (sign :: rest).length := Nat.sub_le _ _
      have hsign : read (sign :: rest) 0 = pure sign := read_eq rfl
      cases kind with
      | shl => simp only [shift, if_neg hne, behind_eq hmin, pure_bind]; rfl
      | shr => simp only [shift, if_neg hne, sub_eq hmin, before_eq (hrest _), pure_bind]; rfl
      | sshr =>
          simp only [shift, if_neg hne, hsign, sub_eq hmin, before_eq (hrest _), pure_bind]
          rfl
      | rotl =>
          simp only [shift, if_neg hne, mod_eq hne, behind_eq hmod, before_eq hmod, pure_bind]
          rfl
      | rotr =>
          simp only [shift, if_neg hne, mod_eq hne, sub_eq hmod, behind_eq (hrest _),
            before_eq (hrest _), pure_bind]
          rfl

/-- The amount that counts is in range as well, also where there is no width. -/
theorem exists_shiftAmount_eq (kind : Word.ShiftKind) (bits : List β) (amount : Nat) :
    ∃ n, shiftAmount kind amount bits.length = pure n ∧
      Word.shift kind bits n = Word.shift kind bits amount := by
  cases kind with
  | shl | shr | sshr => exact ⟨amount, rfl, rfl⟩
  | rotl | rotr =>
      by_cases hpos : 0 < bits.length
      · refine ⟨amount % bits.length, ?_, Word.shift_effective _ bits amount⟩
        rw [shiftAmount, if_pos hpos, mod_eq (by omega)]
      · exact ⟨amount, if_neg hpos, rfl⟩

theorem shiftStep_eq (kind : Word.ShiftKind) (acc : List β) (bit : β) {i places : Nat}
    (hi : i < places) :
    shiftStep kind acc.length places acc (bit, i) =
      pure ((Word.shift kind acc (2 ^ (places - 1 - i))).zipWith (BitLike.mux bit) acc) := by
  obtain ⟨n, hamount, hshift⟩ := exists_shiftAmount_eq kind acc (2 ^ (places - 1 - i))
  rw [shiftStep, sub_eq (by omega), pure_bind, sub_eq (by omega), pure_bind, hamount, pure_bind,
    shift_eq, pure_bind, hshift]

/-- The bits of the amount from the position `i` on; the word keeps its width. -/
theorem foldlM_shiftStep (kind : Word.ShiftKind) (rest : List β) (acc : List β) {i places : Nat}
    (hi : i + rest.length = places) :
    (rest.zipIdx i).foldlM (shiftStep kind acc.length places) acc =
      pure (Word.shiftBy kind acc rest) := by
  induction rest generalizing acc i with
  | nil => rfl
  | cons bit rest ih =>
      rw [List.length_cons] at hi
      have hweight : places - 1 - i = rest.length := by omega
      have hwidth : ((Word.shift kind acc (2 ^ rest.length)).zipWith (BitLike.mux bit) acc).length =
          acc.length := by
        rw [List.length_zipWith, Word.length_shift, Nat.min_self]
      rw [List.zipIdx_cons, List.foldlM_cons, shiftStep_eq kind acc bit (by omega), pure_bind,
        hweight, Word.shiftBy_cons]
      have hnext := ih ((Word.shift kind acc (2 ^ rest.length)).zipWith (BitLike.mux bit) acc)
        (i := i + 1) (by omega)
      rwa [hwidth] at hnext

/-- So may it by any word. -/
theorem shiftBy_eq (kind : Word.ShiftKind) (bits amount : List β) :
    shiftBy kind bits amount = pure (Word.shiftBy kind bits amount) :=
  foldlM_shiftStep kind amount bits (Nat.zero_add _)

end Shifts

/-! ## Products -/

section Products

variable {β : Type} [BitLike β]

/-- One bit of the second factor, from the last one on: a copy of the first factor, moved by
the weight, where the bit may be set. -/
def mulStep (a b : List β) (product : List β) (weight : Nat) : Checked (List β) := do
  let bit ← read b (← sub (← sub a.length 1) weight)
  match BitLike.asLit? bit with
  | some false => return product
  | _ =>
      let moved ← shift .shl a weight
      add product (moved.map fun x => BitLike.and x bit)

/-- Product of two words. -/
def mul (a b : List β) : Checked (List β) :=
  (List.range a.length).foldlM (mulStep a b) (Word.zeros a.length)

/-- What one bit of the second factor adds to a product. -/
def productWith (a : List β) (product : List β) (p : β × Nat) : List β :=
  match BitLike.asLit? p.1 with
  | some false => product
  | _ => Word.add product ((Word.shift .shl a p.2).map fun x => BitLike.and x p.1)

variable {a b product : List β}

theorem length_productWith (h : product.length = a.length) (p : β × Nat) :
    (productWith a product p).length = a.length := by
  unfold productWith
  split
  · exact h
  · rw [Word.length_add (by rw [List.length_map, Word.length_shift, h]), List.length_map,
      Word.length_shift]

theorem mulStep_eq {bit : β} {weight : Nat} (hlt : weight < a.length)
    (hbit : b[a.length - 1 - weight]? = some bit) (h : product.length = a.length) :
    mulStep a b product weight = pure (productWith a product (bit, weight)) := by
  have hadd : add product ((Word.shift .shl a weight).map fun x => BitLike.and x bit) =
      pure (Word.add product ((Word.shift .shl a weight).map fun x => BitLike.and x bit)) :=
    add_eq (by rw [List.length_map, Word.length_shift, h])
  rw [mulStep, sub_eq (by omega), pure_bind, sub_eq (by omega), pure_bind, read_eq hbit, pure_bind]
  simp only [productWith, shift_eq, pure_bind, hadd]
  rcases BitLike.asLit? bit with _ | _ | _ <;> rfl

/-- The bits of the second factor from some weight on; the product keeps its width. -/
theorem foldlM_mulStep {ps : List (β × Nat)}
    (hps : ∀ p ∈ ps, p.2 < a.length ∧ b[a.length - 1 - p.2]? = some p.1)
    (h : product.length = a.length) :
    (ps.map (·.2)).foldlM (mulStep a b) product = pure (ps.foldl (productWith a) product) := by
  induction ps generalizing product with
  | nil => rfl
  | cons p ps ih =>
      obtain ⟨⟨hlt, hbit⟩, hrest⟩ := List.forall_mem_cons.mp hps
      rw [List.map_cons, List.foldlM_cons, mulStep_eq hlt hbit h, pure_bind, List.foldl_cons]
      exact ih hrest (length_productWith h p)

theorem mul_eq (h : a.length = b.length) : mul a b = pure (Word.mul a b) := by
  have hweights : b.reverse.zipIdx.map (·.2) = List.range a.length := by
    rw [List.zipIdx_map_snd, List.length_reverse, h, List.range_eq_range']
  have hbits : ∀ p ∈ b.reverse.zipIdx, p.2 < a.length ∧ b[a.length - 1 - p.2]? = some p.1 := by
    rintro ⟨bit, weight⟩ hmem
    have hget : b.reverse[weight]? = some bit := List.mem_zipIdx_iff_getElem?.mp hmem
    have hlt : weight < b.length := by
      have hsome := (List.getElem?_eq_some_iff.mp hget).1
      rwa [List.length_reverse] at hsome
    rw [List.getElem?_reverse hlt] at hget
    exact ⟨h ▸ hlt, h ▸ hget⟩
  rw [mul, ← hweights, foldlM_mulStep hbits (Word.length_zeros _)]
  rfl

end Products

/-! ## Padding -/

section Padding

variable {β : Type} [BitLike β]

/-- Pads a word with leading zeros up to a width. -/
def zeroExtend (bits : List β) (width : Nat) : Checked (List β) := do
  if width ≤ bits.length then return bits
  else return Word.zeros (← sub width bits.length) ++ bits

/-- A word may be padded to any width, also to a smaller one. -/
theorem zeroExtend_eq (bits : List β) (width : Nat) :
    zeroExtend bits width = pure (Word.zeroExtend bits width) := by
  unfold zeroExtend
  split
  · next hle =>
      rw [Word.zeroExtend, Nat.sub_eq_zero_of_le hle]
      rfl
  · next hlt =>
      rw [sub_eq (by omega), pure_bind]
      rfl

theorem le_length_zeroExtend (bits : List β) (width : Nat) :
    width ≤ (Word.zeroExtend bits width).length := by
  rw [Word.zeroExtend, List.length_append, Word.length_zeros]
  omega

end Padding

end Checked

end TermGraph
