import Mathlib
import TermGraph.Proofs.Bits.Valuation

/-!
# Circuits are exact

Sums, differences and negatives are those of the numbers modulo the width, and comparisons
are those of the numbers, unsigned or in two's complement, at every width.  A shift by a word
of symbolic bits is the shift by the number of the word, however large that number is and
whatever machine integer its weights are cut down to.

All of this is shown for known bits and then read off under a valuation, so it holds of known
bits and of formulas under every assignment alike.
-/

namespace TermGraph

namespace Word

/-- The number that a word denotes in two's complement: the first bit counts against the
others. -/
def signed : List Bool → Int
  | [] => 0
  | sign :: rest => value rest - sign.toNat * 2 ^ rest.length

/-! ## Differences -/

section Length

variable {β : Type} [BitLike β]

theorem length_neg (bits : List β) : (neg bits).length = bits.length :=
  length_sub (length_zeros _)

theorem length_flipSign (bits : List β) : (flipSign bits).length = bits.length := by
  cases bits with
  | nil => rfl
  | cons sign rest => rfl

end Length

variable {as bs : List Bool}

theorem value_sub_emod (h : as.length = bs.length) :
    (value (sub as bs) : Int) = (value as - value bs) % 2 ^ bs.length := by
  have hsub := value_sub_add_carry h
  have hlt := value_lt (sub as bs)
  rw [length_sub h] at hlt
  generalize (addWithCarry as (not bs) true).2.toNat = carry at hsub
  -- A difference that leaves no carry has gone around the width once.
  have hdiff : (value as - value bs : Int) =
      value (sub as bs) + 2 ^ bs.length * (carry - 1 : Int) := by
    zify at hsub
    linear_combination -hsub
  rw [hdiff, Int.add_mul_emod_self_left, Int.emod_eq_of_lt (Int.natCast_nonneg _)]
  exact_mod_cast hlt

theorem value_neg_emod (bits : List Bool) :
    (value (neg bits) : Int) = -value bits % 2 ^ bits.length := by
  rw [neg, value_sub_emod (length_zeros _), value_zeros, Nat.cast_zero, zero_sub]

/-! ## Signed order -/

/-- To negate the sign moves every number up by the weight of the sign. -/
theorem value_flipSign (sign : Bool) (rest : List Bool) :
    (value (flipSign (sign :: rest)) : Int) = signed (sign :: rest) + 2 ^ rest.length := by
  show (value ((!sign) :: rest) : Int) = value rest - sign.toNat * 2 ^ rest.length + _
  rw [value_cons]
  cases sign with
  | false => simp [add_comm]
  | true => simp

theorem slt_eq (h : as.length = bs.length) : slt as bs = decide (signed as < signed bs) := by
  have hflip : (flipSign as).length = (flipSign bs).length := by
    rw [length_flipSign, length_flipSign, h]
  rw [slt, ult_eq hflip]
  cases as with
  | nil =>
      -- The empty word has no sign, and it denotes zero either way.
      obtain rfl := List.eq_nil_of_length_eq_zero h.symm
      rfl
  | cons a as =>
      cases bs with
      | nil => cases h
      | cons b bs =>
          have ha := value_flipSign a as
          have hb := value_flipSign b bs
          rw [Nat.succ.inj h] at ha
          rw [decide_eq_decide]
          omega

/-! ## Amounts of shifts -/

/-- How much of an amount counts for a word of a width: shifts stop at the width, and
rotations go around it. -/
def ShiftKind.effective (kind : ShiftKind) (amount width : Nat) : Nat :=
  match kind with
  | .shl | .shr | .sshr => min amount width
  | .rotl | .rotr => amount % width

/-- An amount as a machine integer up to a limit: rotations reduce it by the width, and in
shifts the limit stands for whatever is larger. -/
def ShiftKind.machineAmount (limit : Nat) (kind : ShiftKind) (amount width : Nat) : Nat :=
  match kind with
  | .shl | .shr | .sshr => min amount limit
  | .rotl | .rotr => if 0 < width then amount % width else min amount limit

/-- `shiftBy` with the weights of the amount as machine integers. -/
def shiftByMachine {β : Type} [BitLike β] (limit : Nat) (kind : ShiftKind) (bits : List β) :
    List β → List β
  | [] => bits
  | bit :: rest =>
      let moved := shift kind bits (kind.machineAmount limit (2 ^ rest.length) bits.length)
      shiftByMachine limit kind (List.zipWith (BitLike.mux bit) moved bits) rest

section Amounts

variable {β : Type} [BitLike β] (kind : ShiftKind) (bits : List β)

/-- Nothing but the effective part of an amount counts. -/
theorem shift_effective (amount : Nat) :
    shift kind bits (kind.effective amount bits.length) = shift kind bits amount := by
  cases bits with
  | nil => rfl
  | cons sign rest => cases kind <;> simp [shift, ShiftKind.effective]

theorem effective_machineAmount {limit width : Nat} (h : width ≤ limit) (hpos : 0 < width)
    (amount : Nat) :
    kind.effective (kind.machineAmount limit amount width) width = kind.effective amount width := by
  cases kind with
  | shl | shr | sshr =>
      show min (min amount limit) width = min amount width
      omega
  | rotl | rotr =>
      show (if 0 < width then amount % width else min amount limit) % width = amount % width
      rw [if_pos hpos, Nat.mod_mod]

/-- A limit that is not below the width cuts off nothing that counts. -/
theorem shift_machineAmount {limit : Nat} (h : bits.length ≤ limit) (amount : Nat) :
    shift kind bits (kind.machineAmount limit amount bits.length) = shift kind bits amount := by
  rcases Nat.eq_zero_or_pos bits.length with hnil | hpos
  · rw [List.eq_nil_of_length_eq_zero hnil]
    rfl
  · rw [← shift_effective, effective_machineAmount kind h hpos, shift_effective]

theorem shiftByMachine_eq {limit : Nat} {bits : List β} (h : bits.length ≤ limit)
    (amount : List β) : shiftByMachine limit kind bits amount = shiftBy kind bits amount := by
  induction amount generalizing bits with
  | nil => rfl
  | cons bit amount ih =>
      have hlength : ((shift kind bits (2 ^ amount.length)).zipWith (BitLike.mux bit)
          bits).length ≤ limit := by
        rw [List.length_zipWith, length_shift, Nat.min_self]
        exact h
      rw [shiftByMachine, shift_machineAmount kind bits h, shiftBy_cons]
      exact ih hlength

end Amounts

end Word

/-! ## Under a valuation -/

namespace Valuation

open Word

variable {β : Type} [BitLike β] (f : Valuation β)

/-- The number that a word denotes in two's complement. -/
def signed (bits : List β) : Int :=
  Word.signed (f.word bits)

variable {as bs : List β}

theorem length_word_eq (h : as.length = bs.length) : (f.word as).length = (f.word bs).length := by
  rw [f.length_word, f.length_word, h]

theorem number_addWithCarry (h : as.length = bs.length) (c : β) :
    f.number (addWithCarry as bs c).1 + 2 ^ bs.length * (f.read (addWithCarry as bs c).2).toNat =
      f.number as + f.number bs + (f.read c).toNat := by
  obtain ⟨hsum, hcarry⟩ := f.addWithCarry_eq as bs c
  have hvalue := value_addWithCarry (f.length_word_eq h) (f.read c)
  rw [f.length_word] at hvalue
  rw [number, hsum, hcarry, Nat.mul_comm]
  exact hvalue

theorem number_add (h : as.length = bs.length) :
    f.number (add as bs) = (f.number as + f.number bs) % 2 ^ bs.length := by
  rw [number, f.word_add, value_add (f.length_word_eq h), f.length_word]
  rfl

theorem number_sub (h : as.length = bs.length) :
    (f.number (sub as bs) : Int) = (f.number as - f.number bs) % 2 ^ bs.length := by
  rw [number, f.word_sub, value_sub_emod (f.length_word_eq h), f.length_word]
  rfl

theorem number_neg (as : List β) : (f.number (neg as) : Int) = -f.number as % 2 ^ as.length := by
  rw [number, f.word_neg, value_neg_emod, f.length_word]
  rfl

theorem read_ult_eq (h : as.length = bs.length) :
    f.read (ult as bs) = decide (f.number as < f.number bs) := by
  rw [f.read_ult, ult_eq (f.length_word_eq h)]
  rfl

theorem read_eq_eq (h : as.length = bs.length) :
    f.read (eq as bs) = decide (f.number as = f.number bs) := by
  rw [f.read_eq, eq_eq (f.length_word_eq h)]
  rfl

theorem read_slt_eq (h : as.length = bs.length) :
    f.read (slt as bs) = decide (f.signed as < f.signed bs) := by
  rw [f.read_slt, slt_eq (f.length_word_eq h)]
  rfl

/-! ## Main results -/

/-- Adder circuits are exact at every width.  The sum with its carry is the sum of the
numbers; sums, differences and negatives are those of the numbers modulo the width; and the
comparisons compare the numbers, the signed ones those in two's complement. -/
theorem adder_exact {n : Nat} (ha : as.length = n) (hb : bs.length = n) (c : β) :
    ((addWithCarry as bs c).1.length = n ∧ (add as bs).length = n ∧ (sub as bs).length = n ∧
        (neg as).length = n) ∧
      f.number (addWithCarry as bs c).1 + 2 ^ n * (f.read (addWithCarry as bs c).2).toNat =
        f.number as + f.number bs + (f.read c).toNat ∧
      ((f.number (add as bs) : Int) = (f.number as + f.number bs) % 2 ^ n ∧
        (f.number (sub as bs) : Int) = (f.number as - f.number bs) % 2 ^ n ∧
        (f.number (neg as) : Int) = -f.number as % 2 ^ n) ∧
      (f.read (ult as bs) = decide (f.number as < f.number bs) ∧
        f.read (ule as bs) = decide (f.number as ≤ f.number bs) ∧
        f.read (ugt as bs) = decide (f.number as > f.number bs) ∧
        f.read (uge as bs) = decide (f.number as ≥ f.number bs) ∧
        f.read (eq as bs) = decide (f.number as = f.number bs)) ∧
      f.read (slt as bs) = decide (f.signed as < f.signed bs) ∧
      f.read (sle as bs) = decide (f.signed as ≤ f.signed bs) := by
  have h : as.length = bs.length := ha.trans hb.symm
  have hadd : (f.number (add as bs) : Int) = (f.number as + f.number bs) % 2 ^ n := by
    rw [f.number_add h, hb]
    push_cast
    rfl
  have hule : f.read (ule as bs) = decide (f.number as ≤ f.number bs) := by
    rw [ule, f.read_not, f.read_ult_eq h.symm, ← decide_not, decide_eq_decide]
    exact Nat.not_lt
  have huge : f.read (uge as bs) = decide (f.number as ≥ f.number bs) := by
    rw [uge, f.read_not, f.read_ult_eq h, ← decide_not, decide_eq_decide]
    exact Nat.not_lt
  have hsle : f.read (sle as bs) = decide (f.signed as ≤ f.signed bs) := by
    rw [sle, f.read_not, f.read_slt_eq h.symm, ← decide_not, decide_eq_decide]
    exact Int.not_lt
  refine ⟨⟨?_, ?_, ?_, ?_⟩, ?_, ⟨hadd, ?_, ?_⟩, ⟨f.read_ult_eq h, hule, f.read_ult_eq h.symm, huge,
    f.read_eq_eq h⟩, f.read_slt_eq h, hsle⟩
  · rw [length_addWithCarry h, hb]
  · rw [length_add h, hb]
  · rw [length_sub h, hb]
  · rw [length_neg, ha]
  · rw [← hb]
    exact f.number_addWithCarry h c
  · rw [f.number_sub h, hb]
  · rw [f.number_neg, ha]

/-- One minus three wraps around in three bits.  Of two bits, the first word below has its sign
set and is the larger number, but the smaller one in two's complement. -/
theorem adder_exact_wrapping :
    let one : List Bool := [false, false, true]
    let three : List Bool := [false, true, true]
    let xs : List Anf := [.var 0, .var 1]
    let ys : List Anf := [.var 1, .var 0]
    let f := Anf.valuation fun i => i = 0
    (one.length = 3 ∧ three.length = 3 ∧ known.number (sub one three) = 6) ∧
      xs.length = 2 ∧ ys.length = 2 ∧ f.read (ult xs ys) = false ∧ f.read (slt xs ys) = true := by
  intro one three xs ys f
  have hone : one.length = 3 := rfl
  have hthree : three.length = 3 := rfl
  have hxs : xs.length = 2 := rfl
  have hys : ys.length = 2 := rfl
  obtain ⟨-, -, ⟨-, hsub, -⟩, -, -⟩ := known.adder_exact hone hthree false
  obtain ⟨-, -, -, ⟨hult, -⟩, hslt, -⟩ := f.adder_exact hxs hys Anf.zero
  exact ⟨⟨hone, hthree, Int.ofNat.inj hsub⟩, hxs, hys, hult, hslt⟩

/-- A shift by a word is the shift by its number.  Shifts stop at the width and rotations go
around it, and it makes no difference when the amount and the weights of its bits are cut down
to machine integers, as long as these can hold the width. -/
theorem shiftBy_exact (kind : ShiftKind) (bits amount : List β) :
    f.word (shiftBy kind bits amount) = shift kind (f.word bits) (f.number amount) ∧
      (∀ n, shift kind (f.word bits) n =
        shift kind (f.word bits) (kind.effective n bits.length)) ∧
      ∀ limit, bits.length ≤ limit →
        shiftByMachine limit kind bits amount = shiftBy kind bits amount ∧
          shift kind (f.word bits) (kind.machineAmount limit (f.number amount) bits.length) =
            shift kind (f.word bits) (f.number amount) := by
  have hlength : (f.word bits).length = bits.length := f.length_word bits
  refine ⟨?_, fun n => ?_, fun limit h => ⟨shiftByMachine_eq kind h amount, ?_⟩⟩
  · rw [f.word_shiftBy, shiftBy_eq]
    rfl
  · rw [← hlength, shift_effective]
  · rw [← hlength] at h ⊢
    exact shift_machineAmount kind _ h _

/-- Five is beyond three bits: a shift that fills with the sign leaves nothing else, and a
rotation goes two places.  The weights of the amount may be cut down to three. -/
theorem shiftBy_exact_beyond :
    let bits : List Anf := [.var 0, .var 1, .var 2]
    let amount : List Anf := [.var 0, .zero, .one]
    let f := Anf.valuation fun i => i = 0
    f.word (shiftBy .sshr bits amount) = [true, true, true] ∧
      f.word (shiftBy .rotl bits amount) = [false, true, false] ∧
      bits.length ≤ 3 ∧ shiftByMachine 3 .sshr bits amount = shiftBy .sshr bits amount := by
  intro bits amount f
  have hword : f.word bits = [true, false, false] := rfl
  have hfive : f.number amount = 5 := rfl
  obtain ⟨hsshr, -, hmachine⟩ := f.shiftBy_exact .sshr bits amount
  obtain ⟨hrotl, -, -⟩ := f.shiftBy_exact .rotl bits amount
  rw [hword, hfive] at hsshr hrotl
  exact ⟨hsshr, hrotl, le_rfl, (hmachine 3 le_rfl).1⟩

end Valuation

end TermGraph
