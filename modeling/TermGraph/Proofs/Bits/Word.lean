import Mathlib
import TermGraph.Bits.Word

/-!
# Words of known bits

A word of known bits denotes a natural number.  Sums, differences and products are those of
the numbers, as far as the width goes, and comparisons are those of the numbers.  A shift by
a word is the shift by the number of the word.
-/

namespace TermGraph

namespace Word

/-- The number that a word denotes, its first bit counting most. -/
def value (bits : List Bool) : Nat :=
  bits.foldl (fun n bit => 2 * n + bit.toNat) 0

theorem value_eq_foldl (bits : List Bool) (n : Nat) :
    bits.foldl (fun n bit => 2 * n + bit.toNat) n = n * 2 ^ bits.length + value bits := by
  induction bits generalizing n with
  | nil => simp [value]
  | cons b bits ih =>
      rw [value, List.foldl_cons, List.foldl_cons, ih, ih (2 * 0 + _), List.length_cons]
      ring

@[simp] theorem value_nil : value [] = 0 :=
  rfl

theorem value_cons (b : Bool) (bits : List Bool) :
    value (b :: bits) = b.toNat * 2 ^ bits.length + value bits := by
  rw [value, List.foldl_cons, value_eq_foldl]
  simp

theorem value_append (as bs : List Bool) :
    value (as ++ bs) = value as * 2 ^ bs.length + value bs := by
  rw [value, List.foldl_append, value_eq_foldl]
  rfl

theorem value_lt (bits : List Bool) : value bits < 2 ^ bits.length := by
  induction bits with
  | nil => decide
  | cons b bits ih =>
      rw [value_cons, List.length_cons, pow_succ]
      cases b <;> simp <;> omega

theorem value_replicate_false (n : Nat) : value (List.replicate n false) = 0 := by
  induction n with
  | zero => rfl
  | succ n ih => rw [List.replicate_succ, value_cons, ih]; simp

@[simp] theorem value_zeros (n : Nat) : value (zeros n) = 0 :=
  value_replicate_false n

@[simp] theorem value_zeroExtend (bits : List Bool) (width : Nat) :
    value (zeroExtend bits width) = value bits := by
  rw [zeroExtend, value_append, value_zeros, Nat.zero_mul, Nat.zero_add]

/-- Words of one length that denote one number are equal. -/
theorem eq_of_value_eq {as bs : List Bool} (hlength : as.length = bs.length)
    (h : value as = value bs) : as = bs := by
  induction as generalizing bs with
  | nil => exact (List.eq_nil_of_length_eq_zero hlength.symm).symm
  | cons a as ih =>
      cases bs with
      | nil => cases hlength
      | cons b bs =>
          have hrest : as.length = bs.length := Nat.succ.inj hlength
          rw [value_cons, value_cons, hrest] at h
          have has := hrest ▸ value_lt as
          have hbs := value_lt bs
          cases a <;> cases b
          all_goals simp only [Bool.toNat_true, Bool.toNat_false, Nat.one_mul, Nat.zero_mul,
            Nat.zero_add, Nat.add_left_cancel_iff] at h
          · rw [ih hrest h]
          · omega
          · omega
          · rw [ih hrest h]

theorem toNat?_eq_value (bits : List Bool) : toNat? bits = some (value bits) := by
  have hfold (n : Nat) : bits.foldlM (fun n bit => (BitLike.asLit? bit).map fun b =>
      2 * n + b.toNat) n = some (bits.foldl (fun n bit => 2 * n + bit.toNat) n) := by
    induction bits generalizing n with
    | nil => rfl
    | cons b bits ih => exact ih _
  exact hfold 0

/-! ## Widths -/

section Length

variable {β : Type} [BitLike β]

@[simp] theorem length_zeros (width : Nat) : (zeros width : List β).length = width :=
  List.length_replicate

@[simp] theorem length_ofNat (n width : Nat) : (ofNat n width : List β).length = width := by
  simp [ofNat]

theorem length_zeroExtend {bits : List β} {width : Nat} (h : bits.length ≤ width) :
    (zeroExtend bits width).length = width := by
  rw [zeroExtend, List.length_append, length_zeros]
  omega

@[simp] theorem length_not (bits : List β) : (not bits).length = bits.length :=
  List.length_map _

theorem length_addWithCarry {as bs : List β} (h : as.length = bs.length) (c : β) :
    (addWithCarry as bs c).1.length = bs.length := by
  induction as generalizing bs with
  | nil => exact h
  | cons a as ih =>
      cases bs with
      | nil => rfl
      | cons b bs =>
          rw [addWithCarry, List.length_cons, ih (Nat.succ.inj h), List.length_cons]

theorem length_add {as bs : List β} (h : as.length = bs.length) :
    (add as bs).length = bs.length :=
  length_addWithCarry h _

theorem length_sub {as bs : List β} (h : as.length = bs.length) :
    (sub as bs).length = bs.length := by
  rw [sub, length_addWithCarry (by rw [length_not, h]), length_not]

@[simp] theorem length_shift (kind : ShiftKind) (bits : List β) (amount : Nat) :
    (shift kind bits amount).length = bits.length := by
  cases bits with
  | nil => rfl
  | cons sign rest =>
      have hmod := Nat.mod_lt amount (Nat.succ_pos rest.length)
      cases kind <;> simp [shift]
      omega

end Length

/-! ## Numbers -/

theorem ofNat_succ (n width : Nat) :
    (ofNat n (width + 1) : List Bool) = n.testBit width :: ofNat n width := by
  simp [ofNat, List.range_succ, BitLike.lit]

@[simp] theorem value_ofNat (n width : Nat) : value (ofNat n width) = n % 2 ^ width := by
  induction width with
  | zero => rw [pow_zero, Nat.mod_one]; rfl
  | succ width ih =>
      rw [ofNat_succ, value_cons, ih, length_ofNat, Nat.toNat_testBit, Nat.mod_pow_succ]
      ring

/-! ## Sums and differences -/

theorem value_addWithCarry {as bs : List Bool} (h : as.length = bs.length) (c : Bool) :
    value (addWithCarry as bs c).1 + (addWithCarry as bs c).2.toNat * 2 ^ bs.length =
      value as + value bs + c.toNat := by
  induction as generalizing bs with
  | nil =>
      obtain rfl := List.eq_nil_of_length_eq_zero h.symm
      simp [addWithCarry]
  | cons a as ih =>
      cases bs with
      | nil => cases h
      | cons b bs =>
          have hlength : as.length = bs.length := Nat.succ.inj h
          have hrest := ih hlength
          simp only [addWithCarry, value_cons, List.length_cons, length_addWithCarry hlength,
            hlength, pow_succ]
          generalize (addWithCarry as bs c).2 = carry at hrest
          cases a <;> cases b <;> cases carry <;>
            simp [BitLike.xor, BitLike.and] at hrest ⊢ <;> omega

theorem value_add {as bs : List Bool} (h : as.length = bs.length) :
    value (add as bs) = (value as + value bs) % 2 ^ bs.length := by
  have hsum := value_addWithCarry h false
  have hlt := value_lt (add as bs)
  rw [length_add h] at hlt
  rw [← Nat.mod_eq_of_lt hlt, add, ← Nat.add_mul_mod_self_right _ _ (2 ^ bs.length)]
  exact congrArg (· % 2 ^ bs.length) hsum

theorem value_not (bits : List Bool) : value (not bits) + value bits + 1 = 2 ^ bits.length := by
  induction bits with
  | nil => rfl
  | cons b bits ih =>
      have hcons : not (b :: bits) = (!b) :: not bits := rfl
      rw [hcons, value_cons, value_cons, length_not, List.length_cons, pow_succ]
      cases b <;> simp <;> omega

/-- A subtraction adds the complement and one, so it is off by the weight of its carry. -/
theorem value_sub_add_carry {as bs : List Bool} (h : as.length = bs.length) :
    value (sub as bs) + (addWithCarry as (not bs) true).2.toNat * 2 ^ bs.length + value bs =
      value as + 2 ^ bs.length := by
  have hsum := value_addWithCarry (h.trans (length_not bs).symm) true
  rw [length_not, Bool.toNat_true] at hsum
  have hnot := value_not bs
  show value (addWithCarry as (not bs) true).1 + _ + _ = _
  omega

/-- A subtraction leaves no carry if and only if it borrows. -/
theorem ult_eq {as bs : List Bool} (h : as.length = bs.length) :
    ult as bs = decide (value as < value bs) := by
  have hsub := value_sub_add_carry h
  have hlt := value_lt (sub as bs)
  rw [length_sub h] at hlt
  show (!(addWithCarry as (not bs) true).2) = _
  cases hcarry : (addWithCarry as (not bs) true).2 with
  | false =>
      rw [hcarry, Bool.toNat_false, Nat.zero_mul] at hsub
      exact (decide_eq_true (by omega)).symm
  | true =>
      rw [hcarry, Bool.toNat_true, Nat.one_mul] at hsub
      exact (decide_eq_false (by omega)).symm

theorem value_sub {as bs : List Bool} (h : as.length = bs.length) (hle : value bs ≤ value as) :
    value (sub as bs) = value as - value bs := by
  have hsub := value_sub_add_carry h
  have hlt := value_lt (sub as bs)
  have has := value_lt as
  rw [length_sub h] at hlt
  rw [h] at has
  cases hcarry : (addWithCarry as (not bs) true).2 with
  | false =>
      rw [hcarry, Bool.toNat_false, Nat.zero_mul] at hsub
      omega
  | true =>
      rw [hcarry, Bool.toNat_true, Nat.one_mul] at hsub
      omega

/-- Words of one length are compared bit by bit. -/
theorem eq_eq {as bs : List Bool} (h : as.length = bs.length) :
    eq as bs = decide (value as = value bs) := by
  have hfold (acc : Bool) : (as.zip bs).foldl
      (fun acc p => BitLike.and acc (BitLike.iff p.1 p.2)) acc = (acc && decide (as = bs)) := by
    induction as generalizing bs acc with
    | nil =>
        obtain rfl := List.eq_nil_of_length_eq_zero h.symm
        simp
    | cons a as ih =>
        cases bs with
        | nil => cases h
        | cons b bs =>
            rw [List.zip_cons_cons, List.foldl_cons, ih (Nat.succ.inj h)]
            cases acc <;> cases a <;> cases b <;>
              simp [BitLike.and, BitLike.iff, BitLike.not, BitLike.xor]
  have hvalue : as = bs ↔ value as = value bs := ⟨congrArg value, eq_of_value_eq h⟩
  rw [eq, hfold]
  simp [hvalue, BitLike.lit]

/-! ## Shifts -/

theorem shift_shl (bits : List Bool) (n : Nat) :
    shift .shl bits n = bits.drop n ++ List.replicate (min n bits.length) false := by
  cases bits with
  | nil => simp [shift]
  | cons sign rest =>
      change (sign :: rest).drop (min n _) ++ List.replicate _ false = _
      congr 1
      rcases Nat.le_total n (sign :: rest).length with h | h
      · rw [Nat.min_eq_left h]
      · rw [Nat.min_eq_right h, List.drop_length, List.drop_of_length_le h]

/-- The bits of a word moved toward the end, with others in front of them. -/
def fillFront (b : Bool) (bits : List Bool) (n : Nat) : List Bool :=
  List.replicate (min n bits.length) b ++ bits.take (bits.length - n)

theorem shift_shr (bits : List Bool) (n : Nat) : shift .shr bits n = fillFront false bits n := by
  cases bits with
  | nil => simp [shift, fillFront]
  | cons sign rest =>
      change List.replicate _ false ++ (sign :: rest).take (_ - min n _) = _
      rw [fillFront]
      congr 2
      omega

theorem shift_sshr (bits : List Bool) (n : Nat) :
    shift .sshr bits n = fillFront (bits.headD false) bits n := by
  cases bits with
  | nil => simp [shift, fillFront]
  | cons sign rest =>
      change List.replicate _ sign ++ (sign :: rest).take (_ - min n _) = _
      rw [fillFront]
      congr 2
      omega

theorem shift_rotl (bits : List Bool) (n : Nat) : shift .rotl bits n = bits.rotate n := by
  cases bits with
  | nil => simp [shift]
  | cons sign rest => exact (List.rotate_eq_drop_append_take_mod).symm

theorem shift_rotr (bits : List Bool) (n : Nat) :
    shift .rotr bits n = bits.rotate (bits.length - n % bits.length) := by
  cases bits with
  | nil => simp [shift]
  | cons sign rest => exact (List.rotate_eq_drop_append_take (Nat.sub_le _ _)).symm

theorem length_fillFront (b : Bool) (bits : List Bool) (n : Nat) :
    (fillFront b bits n).length = bits.length := by
  simp [fillFront]
  omega

theorem fillFront_fillFront (b : Bool) (bits : List Bool) (m n : Nat) :
    fillFront b (fillFront b bits m) n = fillFront b bits (m + n) := by
  rw [fillFront, length_fillFront, fillFront, fillFront, List.take_append, List.take_replicate,
    List.length_replicate, List.take_take, ← List.append_assoc, List.replicate_append_replicate]
  congr 2 <;> omega

theorem headD_fillFront (bits : List Bool) (n : Nat) :
    (fillFront (bits.headD false) bits n).headD false = bits.headD false := by
  cases bits with
  | nil => simp [fillFront]
  | cons sign rest =>
      cases n with
      | zero => simp [fillFront]
      | succ n => rw [fillFront, List.length_cons, Nat.succ_min_succ, List.replicate_succ]; rfl

/-- Two turns toward the end make one. -/
theorem rotate_turns {bits : List Bool} (h : 0 < bits.length) (m n : Nat) :
    bits.rotate (bits.length - m % bits.length + (bits.length - n % bits.length)) =
      bits.rotate (bits.length - (m + n) % bits.length) := by
  have hm := Nat.mod_lt m h
  have hn := Nat.mod_lt n h
  rw [Nat.add_mod m n]
  generalize m % bits.length = a at hm ⊢
  generalize n % bits.length = b at hn ⊢
  rcases Nat.lt_or_ge (a + b) bits.length with hlt | hge
  · rw [Nat.mod_eq_of_lt hlt, show bits.length - a + (bits.length - b) =
      bits.length - (a + b) + bits.length by omega, ← List.rotate_mod, Nat.add_mod_right,
      List.rotate_mod]
  · rw [Nat.mod_eq_sub_mod hge, Nat.mod_eq_of_lt (by omega)]
    congr 1
    omega

/-- A shift by one amount after a shift by another is the shift by their sum. -/
theorem shift_shift (kind : ShiftKind) (bits : List Bool) (m n : Nat) :
    shift kind (shift kind bits m) n = shift kind bits (m + n) := by
  cases kind with
  | shl =>
      rw [shift_shl, length_shift, shift_shl, shift_shl, List.drop_append, List.drop_drop,
        List.drop_replicate, List.append_assoc, List.replicate_append_replicate, List.length_drop]
      congr 2
      omega
  | shr => rw [shift_shr, shift_shr, shift_shr, fillFront_fillFront]
  | sshr => rw [shift_sshr, shift_sshr, shift_sshr, headD_fillFront, fillFront_fillFront]
  | rotl => rw [shift_rotl, shift_rotl, shift_rotl, List.rotate_rotate]
  | rotr =>
      rw [shift_rotr, length_shift, shift_rotr, shift_rotr, List.rotate_rotate]
      rcases Nat.eq_zero_or_pos bits.length with hnil | hpos
      · rw [List.eq_nil_of_length_eq_zero hnil, List.rotate_nil, List.rotate_nil]
      · exact rotate_turns hpos m n

theorem shift_zero (kind : ShiftKind) (bits : List Bool) : shift kind bits 0 = bits := by
  cases kind with
  | shl => simp [shift_shl]
  | shr => simp [shift_shr, fillFront]
  | sshr => simp [shift_sshr, fillFront]
  | rotl => simp [shift_rotl]
  | rotr => simp [shift_rotr]

/-- A known bit picks one of two words of one length. -/
theorem zipWith_mux_of_lit {β : Type} [BitLike β] {c : β} {b : Bool}
    (hc : BitLike.asLit? c = some b) {as bs : List β} (h : as.length = bs.length) :
    as.zipWith (BitLike.mux c) bs = if b then as else bs := by
  have hpick (t e : β) : BitLike.mux c t e = if b then t else e := by
    rw [BitLike.mux, hc]
    cases b <;> rfl
  induction as generalizing bs with
  | nil =>
      obtain rfl := List.eq_nil_of_length_eq_zero h.symm
      simp
  | cons a as ih =>
      cases bs with
      | nil => cases h
      | cons d bs =>
          rw [List.zipWith_cons_cons, ih (Nat.succ.inj h), hpick]
          cases b <;> rfl

theorem zipWith_mux {as bs : List Bool} (h : as.length = bs.length) (c : Bool) :
    as.zipWith (BitLike.mux c) bs = if c then as else bs :=
  zipWith_mux_of_lit rfl h

theorem shiftBy_cons {β : Type} [BitLike β] (kind : ShiftKind) (bits : List β) (bit : β)
    (amount : List β) :
    shiftBy kind bits (bit :: amount) =
      shiftBy kind
        (List.zipWith (BitLike.mux bit) (shift kind bits (2 ^ amount.length)) bits) amount :=
  rfl

/-- A shift by a word is the shift by its number. -/
theorem shiftBy_eq (kind : ShiftKind) (bits amount : List Bool) :
    shiftBy kind bits amount = shift kind bits (value amount) := by
  induction amount generalizing bits with
  | nil => exact (shift_zero kind bits).symm
  | cons b amount ih =>
      rw [shiftBy_cons, ih, zipWith_mux (length_shift _ _ _), value_cons]
      cases b with
      | false => simp
      | true =>
          rw [if_pos rfl, shift_shift, Bool.toNat_true, Nat.one_mul]

/-! ## Products -/

theorem value_drop (bits : List Bool) (n : Nat) :
    value (bits.drop n) = value bits % 2 ^ (bits.length - n) := by
  have hsplit : value bits = value (bits.take n ++ bits.drop n) := by rw [List.take_append_drop]
  have hlt := value_lt (bits.drop n)
  rw [hsplit, value_append, List.length_drop, Nat.mul_add_mod_self_right, Nat.mod_eq_of_lt]
  rwa [List.length_drop] at hlt

theorem value_shift_shl (bits : List Bool) (n : Nat) :
    value (shift .shl bits n) = value bits * 2 ^ n % 2 ^ bits.length := by
  rw [shift_shl, value_append, value_replicate_false, List.length_replicate, value_drop,
    Nat.add_zero]
  rcases Nat.le_total n bits.length with h | h
  · rw [Nat.min_eq_left h, ← Nat.mul_mod_mul_right, ← pow_add, Nat.sub_add_cancel h]
  · obtain ⟨k, rfl⟩ := Nat.exists_eq_add_of_le h
    rw [Nat.sub_eq_zero_of_le h, pow_zero, Nat.mod_one, Nat.zero_mul, Nat.pow_add,
      Nat.mul_left_comm, Nat.mul_mod_right]

theorem add_zeros {bits : List Bool} {n : Nat} (h : bits.length = n) :
    add bits (List.replicate n false) = bits := by
  have hlength : bits.length = (List.replicate n false).length := by
    rw [List.length_replicate, h]
  refine eq_of_value_eq (by rw [length_add hlength, hlength]) ?_
  rw [value_add hlength, value_replicate_false, Nat.add_zero, ← hlength]
  exact Nat.mod_eq_of_lt (value_lt bits)

/-- A product of known bits adds up the shifted copies of `a` for the bits of `b` that are
set. -/
theorem mul_eq (a b : List Bool) :
    mul a b = b.reverse.zipIdx.foldl
      (fun product p => if p.1 then add product (shift .shl a p.2) else product)
      (zeros a.length) := by
  unfold mul
  congr 1
  funext product p
  obtain ⟨bit, i⟩ := p
  cases bit with
  | false => rfl
  | true => simp [BitLike.asLit?, BitLike.and]

/-- The product grows by the bits of the other factor from the last one on. -/
theorem value_mulFrom (a bits product : List Bool) (h : product.length = a.length) (i : Nat) :
    value ((bits.zipIdx i).foldl
        (fun product p => if p.1 then add product (shift .shl a p.2) else product) product) =
      (value product + value a * 2 ^ i * value bits.reverse) % 2 ^ a.length := by
  induction bits generalizing product i with
  | nil =>
      have hlt := value_lt product
      rw [h] at hlt
      simp [Nat.mod_eq_of_lt hlt]
  | cons bit bits ih =>
      rw [List.zipIdx_cons, List.foldl_cons, List.reverse_cons, value_append]
      cases bit with
      | false =>
          rw [if_neg (by simp), ih product h, value_cons]
          simp
          ring_nf
      | true =>
          have hlength : product.length = (shift .shl a i).length := by rw [length_shift, h]
          rw [if_pos rfl, ih _ (by rw [length_add hlength, length_shift]), value_add hlength,
            length_shift, value_shift_shl, value_cons]
          simp
          ring_nf

theorem value_mul (a b : List Bool) :
    value (mul a b) = value a * value b % 2 ^ a.length := by
  have hmul := value_mulFrom a b.reverse (zeros a.length) (length_zeros _) 0
  rw [mul_eq, hmul, value_zeros, List.reverse_reverse, pow_zero, Nat.mul_one, Nat.zero_add]

end Word

end TermGraph
