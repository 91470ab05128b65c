import Mathlib
import TermGraph.Proofs.Eval.Symbolic

/-!
# Natural numbers do not wrap

Symbolic natural numbers are words, and words of a fixed length wrap around.  Both operands
are brought to one length, with as many bits more as the operation asks for: one for a sum,
twice the length for a product, none where the result is no larger than an operand.  So the
result denotes what the operation gives on the numbers that the operands denote, whichever
of them are known and however long the words are.
-/

namespace TermGraph

variable {β : Type} [BitLike β]

namespace Primitive

/-- A natural number as the value that it is passed as. -/
def NatArg.toValue : NatArg β → Value β
  | .known n => .nat n
  | .symbolic bits => .toNat bits

/-- Reading an argument keeps its number, under every valuation; only the representation may
change, when all bits turn out to be known. -/
theorem natArg_toValue (op : String) (a : NatArg β) :
    ∃ a', natArg op a.toValue = .ok a' ∧ ∀ f : Valuation β, a'.number f = a.number f := by
  cases a with
  | known n => exact ⟨.known n, rfl, fun _ => rfl⟩
  | symbolic bits =>
      rcases natArg_toNat op bits with ⟨n, hn, hnumber⟩ | hn
      · exact ⟨.known n, hn, fun f => (hnumber f).symm⟩
      · exact ⟨.symbolic bits, hn, fun _ => rfl⟩

/-- What stands for an atom of known bits is read as it. -/
theorem read_eq_of_stands {f : Valuation β} {σ : Sources β} {τ : Sources Bool} {v : Value β}
    {w : Value Bool} (h : Value.Stands f σ τ v w) (hv : v.isAtom = true) :
    v.read f = w.read .known :=
  (h.of_atom hv).2

/-- The operations that are computed for symbolic numbers succeed, with a result that denotes
the result for the denoted numbers. -/
theorem exists_natOp {op : NatOp} (hop : op ≠ .div ∧ op ≠ .mod) (a b : NatArg β) :
    ∃ v, natOp op a b = .ok v ∧ ∀ (f : Valuation β) (w : Value Bool),
      knownNatOp op (a.number f) (b.number f) = .ok w → v.read f = w.read .known := by
  obtain ⟨v, hv⟩ : ∃ v, natOp op a b = .ok v := by
    cases op with
    | div => exact absurd rfl hop.1
    | mod => exact absurd rfl hop.2
    | _ => cases a <;> cases b <;> exact ⟨_, rfl⟩
  refine ⟨v, hv, fun f w hw => ?_⟩
  have hstands := matches_natOp (f := f) (σ := .none) (τ := .none) op a b v w hv hw
  exact read_eq_of_stands hstands (givesAtom_natOp op a b v hv)

theorem read_natSucc (a : NatArg β) (f : Valuation β) :
    (natSucc a).read f = .nat (a.number f + 1) :=
  read_eq_of_stands (stands_natSucc (f := f) (σ := .none) (τ := .none) a)
    (isAtom_natSucc a)

end Primitive

open Primitive (NatArg)

/-- The computation succeeds without a change to the evaluator, and under every assignment
its result is the given one. -/
def Returns (m : EvalM Anf (Value Anf)) (ev : Evaluator Anf)
    (result : Valuation Anf → Value Bool) : Prop :=
  ∃ v, m.exec ev = (.ok v, ev) ∧
    ∀ s : Nat → Bool, v.read (Anf.valuation s) = result (Anf.valuation s)

variable {ev : Evaluator Anf}

theorem row?_natOp (op : NatOp) :
    Builtin.row? (.prelude op.name) = some (op.name, 2, .natOp op) := by
  cases op <;> decide

/-- An operation that is computed for symbolic numbers gives what it gives for the numbers
that the arguments denote. -/
theorem returns_natOp (op : NatOp) (hop : op ≠ .div ∧ op ≠ .mod)
    (hev : ev.primitives = Evaluator.defaultPrimitives) (calls : Calls Anf) (a b : NatArg Anf)
    {result : Nat → Nat → Value Bool}
    (hresult : ∀ m n, ∃ w, Primitive.knownNatOp op m n = .ok w ∧ w.read .known = result m n) :
    Returns (callPrimitive calls (.prelude op.name) [a.toValue, b.toValue]) ev
      fun f => result (a.number f) (b.number f) := by
  obtain ⟨a', ha, hnumber⟩ := Primitive.natArg_toValue op.name a
  obtain ⟨b', hb, hnumber'⟩ := Primitive.natArg_toValue op.name b
  obtain ⟨v, hv, hread⟩ := Primitive.exists_natOp hop a' b'
  refine ⟨v, ?_, fun s => ?_⟩
  · rw [exec_callPrimitive hev (row?_natOp op), if_neg (by simp)]
    show (EvalM.ofExcept (do
      let a ← Primitive.natArg op.name a.toValue
      Primitive.natOp op a (← Primitive.natArg op.name b.toValue)) : EvalM Anf (Value Anf)).exec
        ev = (.ok v, ev)
    rw [ha, hb]
    show (EvalM.ofExcept (Primitive.natOp op a' b') : EvalM Anf (Value Anf)).exec ev = (.ok v, ev)
    rw [hv]
    rfl
  · obtain ⟨w, hw, hwread⟩ := hresult (a.number (Anf.valuation s)) (b.number (Anf.valuation s))
    rw [← hnumber, ← hnumber'] at hw
    rw [hread _ w hw, hwread]

/-- The next number. -/
theorem returns_natSucc (hev : ev.primitives = Evaluator.defaultPrimitives) (calls : Calls Anf)
    (a : NatArg Anf) :
    Returns (callPrimitive calls (.prelude "succ") [a.toValue]) ev fun f =>
      .nat (a.number f + 1) := by
  obtain ⟨a', ha, hnumber⟩ := Primitive.natArg_toValue "succ" a
  have hrow : Builtin.row? (.prelude "succ") = some ("succ", 1, .natSucc) := by decide
  refine ⟨Primitive.natSucc a', ?_, fun s => ?_⟩
  · rw [exec_callPrimitive hev hrow, if_neg (by simp)]
    show (EvalM.ofExcept (do
      return Primitive.natSucc (← Primitive.natArg "succ" a.toValue)) :
        EvalM Anf (Value Anf)).exec ev = (.ok (Primitive.natSucc a'), ev)
    rw [ha]
    rfl
  · rw [Primitive.read_natSucc, hnumber]

/-- Arithmetic on natural numbers is exact, known or given by words of any lengths: sums,
products and successors have room, a difference is cut off at zero, and comparisons are
those of the numbers. -/
theorem naturals_exact (hev : ev.primitives = Evaluator.defaultPrimitives) (calls : Calls Anf)
    (a b : NatArg Anf) :
    Returns (callPrimitive calls (.prelude "addNat") [a.toValue, b.toValue]) ev
        (fun f => .nat (a.number f + b.number f)) ∧
      Returns (callPrimitive calls (.prelude "subNat") [a.toValue, b.toValue]) ev
        (fun f => .nat (a.number f - b.number f)) ∧
      Returns (callPrimitive calls (.prelude "mulNat") [a.toValue, b.toValue]) ev
        (fun f => .nat (a.number f * b.number f)) ∧
      Returns (callPrimitive calls (.prelude "equalNat") [a.toValue, b.toValue]) ev
        (fun f => .bool (decide (a.number f = b.number f))) ∧
      Returns (callPrimitive calls (.prelude "ltNat") [a.toValue, b.toValue]) ev
        (fun f => .bool (decide (a.number f < b.number f))) ∧
      Returns (callPrimitive calls (.prelude "succ") [a.toValue]) ev
        (fun f => .nat (a.number f + 1)) :=
  ⟨returns_natOp .add (by decide) hev calls a b fun _ _ => ⟨_, rfl, rfl⟩,
    returns_natOp .sub (by decide) hev calls a b fun _ _ => ⟨_, rfl, rfl⟩,
    returns_natOp .mul (by decide) hev calls a b fun _ _ => ⟨_, rfl, rfl⟩,
    returns_natOp .eq (by decide) hev calls a b fun _ _ => ⟨_, rfl, rfl⟩,
    returns_natOp .lt (by decide) hev calls a b fun _ _ => ⟨_, rfl, rfl⟩,
    returns_natSucc hev calls a⟩

/-- One less a number of two bits that is two under this assignment is cut off at
zero.  Three times such a number takes more than two bits. -/
theorem naturals_exact_mixed :
    (Evaluator.new : Evaluator Anf).primitives = Evaluator.defaultPrimitives ∧
      (Anf.valuation fun i => i = 0).number [.var 0, .var 1] = 2 ∧
      Returns (callPrimitive (Evaluator.calls .empty 0) (.prelude "subNat")
        [.nat 1, .toNat [.var 0, .var 1]]) .new
        (fun f => .nat (1 - f.number [.var 0, .var 1])) ∧
      Returns (callPrimitive (Evaluator.calls .empty 0) (.prelude "mulNat")
        [.nat 3, .toNat [.var 0, .var 1]]) .new
        (fun f => .nat (3 * f.number [.var 0, .var 1])) := by
  have hev : (Evaluator.new : Evaluator Anf).primitives = Evaluator.defaultPrimitives := rfl
  let b : NatArg Anf := .symbolic [.var 0, .var 1]
  obtain ⟨-, hsub, -⟩ := naturals_exact hev (Evaluator.calls .empty 0) (.known 1) b
  obtain ⟨-, -, hmul, -⟩ := naturals_exact hev (Evaluator.calls .empty 0) (.known 3) b
  exact ⟨hev, rfl, hsub, hmul⟩

end TermGraph
