import Mathlib
import TermGraph.Proofs.Bits.Literals
import TermGraph.Proofs.Eval.Naturals
import TermGraph.Proofs.Value.Words

/-!
# Conversions between numbers and words

The word of a number keeps its low bits, also when the number is given by a word itself: a
shorter word is padded in front, and of a longer one the front is dropped.  The number of a
word is known if all of its bits are, and given by the word otherwise; its low bits are the
word either way.  A width has to fit a machine word.
-/

namespace TermGraph

open Primitive (NatArg natArg wordArg lengthLimit)

variable {β : Type} [BitLike β]

/-! ## Low bits -/

namespace Word

/-- The low bits of a word, which may be too short. -/
def lowBits (bits : List β) (width : Nat) : List β :=
  (zeroExtend bits width).drop ((zeroExtend bits width).length - width)

@[simp] theorem length_lowBits (bits : List β) (width : Nat) :
    (lowBits bits width).length = width := by
  simp only [lowBits, zeroExtend, List.length_drop, List.length_append, length_zeros]
  omega

/-- All bits of a word are its low bits. -/
theorem lowBits_self (bits : List β) : lowBits bits bits.length = bits := by
  simp [lowBits, zeroExtend, zeros]

end Word

theorem Valuation.number_lowBits (f : Valuation β) (bits : List β) (width : Nat) :
    f.number (Word.lowBits bits width) = f.number bits % 2 ^ width := by
  have hlength : (f.word (Word.zeroExtend bits width)).length -
      ((Word.zeroExtend bits width).length - width) = width := by
    rw [f.length_word, ← List.length_drop]
    exact Word.length_lowBits bits width
  rw [number, Word.lowBits, f.word_drop, Word.value_drop, hlength, f.word_zeroExtend,
    Word.value_zeroExtend]
  rfl

namespace Primitive

/-- The low bits of a number, which may be given by a word. -/
def NatArg.lowBits (width : Nat) : NatArg β → List β
  | .known n => Word.ofNat n width
  | .symbolic bits => Word.lowBits bits width

theorem NatArg.length_lowBits (width : Nat) (a : NatArg β) : (a.lowBits width).length = width := by
  cases a with
  | known n => exact Word.length_ofNat n width
  | symbolic bits => exact Word.length_lowBits bits width

/-- They denote the number as far as the width goes. -/
theorem NatArg.number_lowBits (f : Valuation β) (width : Nat) (a : NatArg β) :
    f.number (a.lowBits width) = a.number f % 2 ^ width := by
  cases a with
  | known n => rw [lowBits, Valuation.number, f.word_ofNat, Word.value_ofNat, number]
  | symbolic bits => exact f.number_lowBits bits width

/-! ## The conversions -/

variable {width x : Value β} {w : Nat}

theorem bvNat_eq {a : NatArg β} (hw : natArg "bvNat" width = .ok (.known w)) (hlt : w < lengthLimit)
    (hx : natArg "bvNat" x = .ok a) : bvNat width x = .ok (.word (a.lowBits w)) := by
  rw [bvNat, hw]
  simp only [bind, Except.bind, if_pos hlt, hx]
  cases a <;> rfl

/-- A width that does not fit a machine word is refused, whatever the number. -/
theorem bvNat_of_le (hw : natArg "bvNat" width = .ok (.known w)) (hle : lengthLimit ≤ w) :
    bvNat width x = .error (.unsupported (.wordWidth w)) := by
  rw [bvNat, hw]
  simp only [bind, Except.bind, if_neg (Nat.not_lt.mpr hle)]
  rfl

theorem read_bvToNat (f : Valuation β) (bits : List β) :
    (bvToNat bits).read f = .nat (f.number bits) := by
  rw [bvToNat]
  split
  · next n hn => rw [Value.read, f.number_of_toNat? hn]
  · rfl

/-- The low bits of the number of a word are the word. -/
theorem natArg_bvToNat [LawfulBits β] (op : String) (bits : List β) :
    ∃ a, natArg op (bvToNat bits) = .ok a ∧ a.lowBits bits.length = bits := by
  rw [bvToNat]
  cases hbits : Word.toNat? bits with
  | some n => exact ⟨.known n, rfl, Word.ofNat_of_toNat? hbits⟩
  | none =>
      refine ⟨.symbolic bits, ?_, Word.lowBits_self bits⟩
      rw [natArg, hbits]

end Primitive

section Calls

variable [DecidableEq β] {ev : Evaluator β}

theorem exec_bvNat (hev : ev.primitives = Evaluator.defaultPrimitives) (calls : Calls β)
    (width x : Value β) :
    (callPrimitive calls (.prelude "bvNat") [width, x]).exec ev =
      (EvalM.ofExcept (Primitive.bvNat width x)).exec ev := by
  have hrow : Builtin.row? (.prelude "bvNat") = some ("bvNat", 2, .bvNat) := by decide
  rw [exec_callPrimitive hev hrow, if_neg (by simp)]
  rfl

theorem exec_bvToNat (hev : ev.primitives = Evaluator.defaultPrimitives) (calls : Calls β)
    (width : Value β) {v : Value β} {bits : List β} (hv : wordArg "bvToNat" v = .ok bits) :
    (callPrimitive calls (.prelude "bvToNat") [width, v]).exec ev =
      (.ok (Primitive.bvToNat bits), ev) := by
  have hrow : Builtin.row? (.prelude "bvToNat") = some ("bvToNat", 2, .bvToNat) := by decide
  rw [exec_callPrimitive hev hrow, if_neg (by simp)]
  show (EvalM.ofExcept (do return Primitive.bvToNat (← wordArg "bvToNat" v)) :
    EvalM β (Value β)).exec ev = _
  rw [hv]
  rfl

/-- Conversions between numbers and words round-trip, for known bits and for formulas under
every assignment.  At every width the low bits of a number denote it modulo the power of two,
and a word of known bits is the word of its number.

A word of a width that fits a machine word is made of every number, known or given by a word of
whatever length, and the number of that word is the number modulo the power of two; and from
the number of a word of that width the same word is made again, bit by bit, known or not.  A
greater width is refused. -/
theorem conversions_round_trip [LawfulBits β] (w : Nat) :
    (∀ n, Word.toNat? (Word.ofNat n w : List β) = some (n % 2 ^ w)) ∧
      (∀ bits : List β, (∀ b ∈ bits, (BitLike.asLit? b).isSome) →
        ∃ n, Word.toNat? bits = some n ∧ Word.ofNat n bits.length = bits) ∧
      ∀ ev : Evaluator β, ev.primitives = Evaluator.defaultPrimitives →
        ∀ (calls : Calls β) (width length : Value β), natArg "bvNat" width = .ok (.known w) →
          (w < lengthLimit →
            (∀ x : NatArg β, ∃ bits v, bits.length = w ∧
              (callPrimitive calls (.prelude "bvNat") [width, x.toValue]).exec ev =
                (.ok (.word bits), ev) ∧
              (callPrimitive calls (.prelude "bvToNat") [length, .word bits]).exec ev =
                (.ok v, ev) ∧
              ∀ f : Valuation β, v.read f = .nat (x.number f % 2 ^ w)) ∧
            ∀ (v : Value β) bits, wordArg "bvToNat" v = .ok bits → bits.length = w → ∃ x,
              (callPrimitive calls (.prelude "bvToNat") [length, v]).exec ev = (.ok x, ev) ∧
              (callPrimitive calls (.prelude "bvNat") [width, x]).exec ev =
                (.ok (.word bits), ev)) ∧
          (lengthLimit ≤ w → ∀ x,
            (callPrimitive calls (.prelude "bvNat") [width, x]).exec ev =
              (.error (.fault (.unsupported (.wordWidth w))), ev)) := by
  refine ⟨fun n => Word.toNat?_ofNat n w, fun bits hbits => ?_,
    fun ev hev calls width length hwidth => ⟨fun hlt => ⟨fun x => ?_, ?_⟩, fun hle x => ?_⟩⟩
  · obtain ⟨n, hn, -, hword⟩ := Word.exists_toNat?_ofNat hbits
    exact ⟨n, hn, hword⟩
  · obtain ⟨a, ha, hnumber⟩ := Primitive.natArg_toValue "bvNat" x
    refine ⟨a.lowBits w, _, a.length_lowBits w, ?_, exec_bvToNat hev calls length rfl,
      fun f => ?_⟩
    · rw [exec_bvNat hev, Primitive.bvNat_eq hwidth hlt ha]
      rfl
    · rw [Primitive.read_bvToNat, a.number_lowBits, hnumber]
  · rintro v bits hv rfl
    obtain ⟨a, ha, hword⟩ := Primitive.natArg_bvToNat "bvNat" bits
    refine ⟨_, exec_bvToNat hev calls length hv, ?_⟩
    rw [exec_bvNat hev, Primitive.bvNat_eq hwidth hlt ha, hword]
    rfl
  · rw [exec_bvNat hev, Primitive.bvNat_of_le hwidth hle]
    rfl

end Calls

/-- Of a number given by four bits, of which two are open, three bits are kept: twelve becomes
four under this assignment.  A word of three bits with open ones is made again from its
number. -/
theorem conversions_round_trip_truncated :
    let x : List Anf := [.one, .var 0, .zero, .var 1]
    let word : List Anf := [.var 0, .zero, .var 1]
    let calls : Calls Anf := Evaluator.calls .empty 0
    let f := Anf.valuation fun i => i = 0
    (Evaluator.new : Evaluator Anf).primitives = Evaluator.defaultPrimitives ∧
      natArg "bvNat" (.nat 3 : Value Anf) = .ok (.known 3) ∧ 3 < lengthLimit ∧
      Word.toNat? (Word.ofNat 12 3 : List Anf) = some 4 ∧
      (∃ n, Word.toNat? [Anf.one, .zero] = some n ∧ Word.ofNat n 2 = [Anf.one, .zero]) ∧
      (∃ bits v, (callPrimitive calls (.prelude "bvNat") [.nat 3, .toNat x]).exec .new =
          (.ok (.word bits), .new) ∧
        (callPrimitive calls (.prelude "bvToNat") [.nat 3, .word bits]).exec .new =
          (.ok v, .new) ∧ v.read f = .nat 4) ∧
      ∃ v, (callPrimitive calls (.prelude "bvToNat") [.nat 3, .word word]).exec .new =
          (.ok v, .new) ∧
        (callPrimitive calls (.prelude "bvNat") [.nat 3, v]).exec .new =
          (.ok (.word word), .new) := by
  intro x word calls f
  have hev : (Evaluator.new : Evaluator Anf).primitives = Evaluator.defaultPrimitives := rfl
  have hwidth : natArg "bvNat" (.nat 3 : Value Anf) = .ok (.known 3) := rfl
  have hlt : 3 < lengthLimit := by decide
  have hx : (NatArg.symbolic x).number f = 12 := by decide
  obtain ⟨hlow, hknown, hcalls⟩ := conversions_round_trip (β := Anf) 3
  obtain ⟨hnumber, hword⟩ := (hcalls .new hev calls (.nat 3) (.nat 3) hwidth).1 hlt
  obtain ⟨bits, v, -, hbits, hv, hread⟩ := hnumber (.symbolic x)
  exact ⟨hev, hwidth, hlt, hlow 12, hknown _ (by decide),
    ⟨bits, v, hbits, hv, (hread f).trans (by simp [hx])⟩, hword _ word rfl rfl⟩

/-- No word has one bit more than a machine word can count, so five is not its number. -/
theorem conversions_refuse_width :
    let calls : Calls Bool := Evaluator.calls .empty 0
    (callPrimitive calls (.prelude "bvNat") [.nat lengthLimit, .nat 5]).exec .new =
        (.error (.fault (.unsupported (.wordWidth lengthLimit))), .new) ∧
      ¬ ∀ w x : Nat, ∃ word v ev ev',
        (callPrimitive calls (.prelude "bvNat") [.nat w, .nat x]).exec .new = (.ok word, ev) ∧
        (callPrimitive calls (.prelude "bvToNat") [.nat w, word]).exec ev = (.ok v, ev') ∧
        v.read .known = .nat (x % 2 ^ w) := by
  intro calls
  have hev : (Evaluator.new : Evaluator Bool).primitives = Evaluator.defaultPrimitives := rfl
  have hrefused : (callPrimitive calls (.prelude "bvNat") [.nat lengthLimit, .nat 5]).exec .new =
      (.error (.fault (.unsupported (.wordWidth lengthLimit))), .new) := by
    rw [exec_bvNat hev, Primitive.bvNat_of_le rfl le_rfl]
    rfl
  refine ⟨hrefused, fun h => ?_⟩
  obtain ⟨word, -, ev, -, hrun, -⟩ := h lengthLimit 5
  rw [hrefused] at hrun
  cases hrun

end TermGraph
