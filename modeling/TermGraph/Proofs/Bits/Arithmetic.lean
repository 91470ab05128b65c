import Mathlib
import TermGraph.Proofs.Bits.Circuits

/-!
# Products and shifts are exact

The product of two words is the product of their numbers modulo the width, however much is
known of the bits of either word.  Shifts of known bits multiply and divide by powers of two:
to the front modulo the width, to the end rounded down, either the number or the number in two's
complement.  Rotations keep every bit, and one after another they add up.

A word shifted to the end is a prefix of the word extended at the front.  What the prefix leaves
out is the remainder of the division.
-/

namespace TermGraph

namespace Word

variable (bits : List Bool) (n : Nat)

/-! ## Shifts to the end -/

/-- To fill a word from the front is to extend it and to keep as many bits as it had. -/
theorem fillFront_eq_take (b : Bool) :
    fillFront b bits n = (List.replicate n b ++ bits).take bits.length := by
  rw [fillFront, List.take_append, List.take_replicate, List.length_replicate, Nat.min_comm]

theorem value_append_div (as bs : List Bool) : value (as ++ bs) / 2 ^ bs.length = value as := by
  have hunique := Nat.div_mod_unique (a := value (as ++ bs)) (c := value bs) (d := value as)
    (Nat.two_pow_pos bs.length)
  refine (hunique.mpr ⟨?_, value_lt bs⟩).1
  rw [value_append]
  ring

theorem value_take : value (bits.take n) = value bits / 2 ^ (bits.length - n) := by
  have hdiv := value_append_div (bits.take n) (bits.drop n)
  rw [List.take_append_drop, List.length_drop] at hdiv
  exact hdiv.symm

theorem value_shift_shr : value (shift .shr bits n) = value bits / 2 ^ n := by
  rw [shift_shr, fillFront_eq_take, value_take, value_append, value_replicate_false]
  simp

/-! ## Two's complement -/

/-- Only the sign counts differently, so in a longer word the further bits count as ever. -/
theorem signed_append {as : List Bool} (h : as ≠ []) (bs : List Bool) :
    signed (as ++ bs) = signed as * 2 ^ bs.length + value bs := by
  obtain ⟨sign, rest, rfl⟩ := List.exists_cons_of_ne_nil h
  show (value (rest ++ bs) : Int) - sign.toNat * 2 ^ (rest ++ bs).length =
    (value rest - sign.toNat * 2 ^ rest.length) * 2 ^ bs.length + value bs
  rw [value_append, List.length_append, pow_add]
  push_cast
  ring

theorem signed_append_div {as : List Bool} (h : as ≠ []) (bs : List Bool) :
    signed (as ++ bs) / 2 ^ bs.length = signed as := by
  have hlt : (value bs : Int) < 2 ^ bs.length := by exact_mod_cast value_lt bs
  have hunique := Int.ediv_emod_unique (a := signed (as ++ bs)) (r := value bs) (q := signed as)
    (lt_of_le_of_lt (Int.natCast_nonneg _) hlt)
  refine (hunique.mpr ⟨?_, Int.natCast_nonneg _, hlt⟩).1
  rw [signed_append h]
  ring

theorem signed_cons_cons (sign : Bool) (rest : List Bool) :
    signed (sign :: sign :: rest) = signed (sign :: rest) := by
  show (value (sign :: rest) : Int) - sign.toNat * 2 ^ (rest.length + 1) =
    value rest - sign.toNat * 2 ^ rest.length
  rw [value_cons, pow_succ]
  push_cast
  ring

/-- To repeat the sign in front of a word does not change what it denotes. -/
theorem signed_replicate_append (sign : Bool) (rest : List Bool) :
    signed (List.replicate n sign ++ sign :: rest) = signed (sign :: rest) := by
  induction n generalizing rest with
  | zero => rfl
  | succ n ih =>
      rw [List.replicate_succ', List.append_assoc, List.singleton_append, ih, signed_cons_cons]

theorem signed_shift_sshr : signed (shift .sshr bits n) = signed bits / 2 ^ n := by
  cases bits with
  | nil => exact (Int.zero_ediv _).symm
  | cons sign rest =>
      -- The word with its sign repeated in front denotes the same, and its prefix is the shift.
      have hprefix := fillFront_eq_take (sign :: rest) n sign
      generalize hextended : List.replicate n sign ++ sign :: rest = extended at hprefix
      have hlength : (extended.drop (sign :: rest).length).length = n := by
        rw [← hextended, List.length_drop, List.length_append, List.length_replicate,
          Nat.add_sub_cancel]
      have hne : extended.take (sign :: rest).length ≠ [] := by
        rw [← hprefix]
        exact List.ne_nil_of_length_pos (by rw [length_fillFront]; exact Nat.succ_pos _)
      have hdiv := signed_append_div hne (extended.drop (sign :: rest).length)
      rw [List.take_append_drop, hlength, ← hextended, signed_replicate_append, hextended,
        ← hprefix] at hdiv
      rw [shift_sshr]
      exact hdiv.symm

/-! ## Rotations -/

theorem shift_rotr_rotl : shift .rotr (shift .rotl bits n) n = bits := by
  rcases Nat.eq_zero_or_pos bits.length with hnil | hpos
  · rw [List.eq_nil_of_length_eq_zero hnil]
    rfl
  · rw [shift_rotr, length_shift, shift_rotl, ← List.rotate_mod bits n, List.rotate_rotate,
      Nat.add_sub_cancel' (Nat.mod_lt n hpos).le, List.rotate_length]

/-- What a rotation moves over the front comes back at the end. -/
theorem value_shift_rotl {n : Nat} (h : n ≤ bits.length) :
    value (shift .rotl bits n) =
      (value bits * 2 ^ n + value bits / 2 ^ (bits.length - n)) % 2 ^ bits.length := by
  have hrotate : value (shift .rotl bits n) =
      value bits % 2 ^ (bits.length - n) * 2 ^ n + value bits / 2 ^ (bits.length - n) := by
    rw [shift_rotl, List.rotate_eq_drop_append_take h, value_append, value_drop, value_take,
      List.length_take_of_le h]
  -- The sum is below the width as it stands, and reducing its first summand alone changes nothing.
  have hlt := value_lt (shift .rotl bits n)
  rw [length_shift, hrotate] at hlt
  have hwidth : (2 : Nat) ^ bits.length = 2 ^ (bits.length - n) * 2 ^ n := by
    rw [← pow_add, Nat.sub_add_cancel h]
  rw [hrotate, ← Nat.mod_eq_of_lt hlt, Nat.add_mod, ← Nat.mul_mod_mul_right, ← hwidth, Nat.mod_mod,
    ← Nat.add_mod]

/-! ## Products -/

theorem length_mul {β : Type} [BitLike β] (as bs : List β) : (mul as bs).length = as.length := by
  rw [mul]
  -- Every partial product is a sum with a shifted copy of the first factor.
  refine List.foldlRecOn (motive := fun product : List β => product.length = as.length) _ _
    (length_zeros _) fun product hproduct p _ => ?_
  have hcopy : ((shift .shl as p.2).map fun x => BitLike.and x p.1).length = as.length := by
    rw [List.length_map, length_shift]
  have hadd := length_add (hproduct.trans hcopy.symm)
  split
  · exact hproduct
  · rw [hadd, hcopy]

/-! ## Main results -/

/-- Shifts by a known amount have their arithmetic meaning at every width and every amount, also
one beyond the width.  A shift to the front multiplies by the power of two modulo the width, a
shift to the end divides and rounds down, and a shift that fills with the sign divides the number
in two's complement and rounds toward minus infinity.  Rotations in opposite directions cancel,
rotations to the front add up, and one by less than the width adds what leaves the front at the
end.  No shift changes the width, and none needs an amount beyond machine integers that can hold
the width. -/
theorem shift_exact (k : Nat) :
    value (shift .shl bits k) = value bits * 2 ^ k % 2 ^ bits.length ∧
      value (shift .shr bits k) = value bits / 2 ^ k ∧
      signed (shift .sshr bits k) = (signed bits).fdiv (2 ^ k) ∧
      shift .rotr (shift .rotl bits k) k = bits ∧
      (∀ j, shift .rotl (shift .rotl bits j) k = shift .rotl bits (j + k)) ∧
      (k < bits.length → value (shift .rotl bits k) =
        (value bits * 2 ^ k + value bits / 2 ^ (bits.length - k)) % 2 ^ bits.length) ∧
      ∀ kind, (shift kind bits k).length = bits.length ∧
        ∀ limit, bits.length ≤ limit →
          shift kind bits (kind.machineAmount limit k bits.length) = shift kind bits k := by
  refine ⟨value_shift_shl bits k, value_shift_shr bits k, ?_, shift_rotr_rotl bits k,
    fun j => shift_shift .rotl bits j k, fun h => value_shift_rotl bits h.le,
    fun kind => ⟨length_shift kind bits k, fun limit h => shift_machineAmount kind bits h k⟩⟩
  rw [signed_shift_sshr, Int.fdiv_eq_ediv_of_nonneg _ (by positivity)]

/-- Minus three in three bits, by one place: half of it is rounded down to minus two, and the
sign comes back at the end of the rotation.  By five places nothing but the sign is left. -/
theorem shift_exact_negative :
    let bits := [true, false, true]
    signed bits = -3 ∧ signed (shift .sshr bits 1) = -2 ∧ signed (shift .sshr bits 5) = -1 ∧
      1 < bits.length ∧ value (shift .rotl bits 1) = 3 := by
  intro bits
  have hlt : 1 < bits.length := by decide
  obtain ⟨-, -, hone, -, -, hrotl, -⟩ := shift_exact bits 1
  obtain ⟨-, -, hfive, -⟩ := shift_exact bits 5
  exact ⟨rfl, hone, hfive, hlt, (hrotl hlt).trans (by decide)⟩

end Word

namespace Valuation

open Word

variable {β : Type} [BitLike β] (f : Valuation β) {as bs : List β} {n : Nat}

/-- Multiplication is exact modulo the width, for known bits and for formulas under every
assignment: the product of two words of one width has that width and denotes the product of
their numbers modulo the power of two, whether the bits of the factors are known or not. -/
theorem mul_exact (ha : as.length = n) (hb : bs.length = n) :
    (mul as bs).length = n ∧ f.number (mul as bs) = f.number as * f.number bs % 2 ^ n := by
  have hlength : (mul as bs).length = bs.length := by rw [length_mul, ha, hb]
  refine ⟨hlength.trans hb, ?_⟩
  rw [number, f.word_mul, value_mul, f.length_word, ha]
  rfl

/-- Six times three is two modulo eight.  Of the bits of the second factor, the first is known
to be zero, the second is open and the last is known to be one. -/
theorem mul_exact_mixed :
    let as : List Anf := [.var 0, .one, .var 1]
    let bs : List Anf := [.zero, .var 0, .one]
    let f := Anf.valuation fun i => i = 0
    as.length = 3 ∧ bs.length = 3 ∧ (mul as bs).length = 3 ∧ f.number (mul as bs) = 2 := by
  intro as bs f
  have has : as.length = 3 := rfl
  have hbs : bs.length = 3 := rfl
  obtain ⟨hlength, hnumber⟩ := f.mul_exact has hbs
  exact ⟨has, hbs, hlength, hnumber.trans (by decide)⟩

end Valuation

end TermGraph
