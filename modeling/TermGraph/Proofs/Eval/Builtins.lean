import Mathlib
import TermGraph.Eval.Primitive
import TermGraph.Proofs.Value.Data

/-!
# What primitives need

A primitive takes a number of arguments of its own and fails on any other number.  Most
primitives only read their arguments: they need no evaluator, and they give an atom if they
give a value.  The others merge values, make streams or call back into the evaluator.  Each
fact about all primitives is proved once for the many that only read and one by one for the
few that do more.
-/

namespace TermGraph

variable {β : Type}

namespace Primitive

/-! ## Results that are atoms -/

/-- A computation without an evaluator that gives an atom if it gives a value. -/
def GivesAtom (x : Except EvalError (Value β)) : Prop :=
  ∀ v, x = .ok v → v.isAtom = true

theorem givesAtom_ok {v : Value β} (h : v.isAtom = true) : GivesAtom (.ok v) := by
  rintro _ ⟨⟩
  exact h

theorem givesAtom_error (e : EvalError) : GivesAtom (β := β) (.error e) :=
  nofun

theorem givesAtom_bind {α : Type} {x : Except EvalError α} {f : α → Except EvalError (Value β)}
    (h : ∀ a, GivesAtom (f a)) : GivesAtom (x >>= f) := by
  cases x with
  | error e => exact givesAtom_error e
  | ok a => exact h a

section Results

variable [BitLike β]

theorem givesAtom_natOp (op : NatOp) (a b : NatArg β) : GivesAtom (natOp op a b) := by
  unfold natOp knownNatOp symbolicNatOp
  split
  · cases op <;> dsimp only <;>
      first
        | exact givesAtom_ok rfl
        | (split <;> first | exact givesAtom_ok rfl | exact givesAtom_error _)
  · cases op <;> first | exact givesAtom_ok rfl | exact givesAtom_error _

theorem givesAtom_bvNat (width x : Value β) : GivesAtom (bvNat width x) := by
  refine givesAtom_bind fun width => ?_
  cases width with
  | symbolic bits => exact givesAtom_error _
  | known n =>
      dsimp only
      split
      · refine givesAtom_bind fun x => ?_
        cases x <;> exact givesAtom_ok rfl
      · exact givesAtom_error _

theorem givesAtom_wordDivision (part : Division) (a b : List β) :
    GivesAtom (wordDivision part a b) := by
  unfold wordDivision
  split
  · exact givesAtom_ok rfl
  · exact givesAtom_error _

theorem isAtom_natSucc (a : NatArg β) : (natSucc a).isAtom = true := by
  cases a <;> rfl

theorem isAtom_intOp (op : IntOp) (a b : Int) : (intOp op a b : Value β).isAtom = true := by
  cases op <;> rfl

theorem isAtom_bvToNat (bits : List β) : (bvToNat bits).isAtom = true := by
  unfold bvToNat
  split <;> rfl

theorem isAtom_wordShift (kind : Word.ShiftKind) (x : List β) (amount : NatArg β) :
    (wordShift kind x amount).isAtom = true := by
  cases amount <;> rfl

end Results

/-! ## Numbers of arguments -/

/-- How many arguments the implementation of a primitive takes; a type former takes any
number. -/
def argCount? : Builtin → Option Nat
  | .typeFormer => none
  | .boolNot | .natSucc | .intNeg | .natToInt | .intToNat => some 1
  | .boolOp _ | .error | .natOp _ | .intOp _ | .mkStream | .bvNat | .bvToNat | .bvNeg
  | .bvNot => some 2
  | .gen | .streamGet | .bvOp _ | .bvDivision _ | .bvCmp _ | .bvShift _ => some 3
  | .ite | .index => some 4
  | .append => some 5

/-- Every primitive of the Prelude waits for the arguments that its implementation takes. -/
theorem arity_of_mem_table {row : String × Nat × Builtin} (h : row ∈ Builtin.table) :
    argCount? row.2.2 = none ∨ argCount? row.2.2 = some row.2.1 := by
  revert row
  decide

/-- A primitive that gets another number of arguments fails. -/
theorem run_of_argCount?_ne [BitLike β] [DecidableEq β] {op : Builtin} {n : Nat}
    {args : List (Value β)} (calls : Calls β) (hop : argCount? op = some n)
    (hn : args.length ≠ n) :
    run calls op args = EvalM.fail (.unsupported (.arguments (opName op) args.length)) := by
  unfold run
  split <;> first | rfl | (cases hop <;> exact absurd rfl hn)

/-- Arguments of two runs, related one by one, by how many of them a primitive takes. -/
inductive Paired {α γ : Type} (R : α → γ → Prop) : Option Nat → List α → List γ → Prop where
  | any {as : List α} {bs : List γ} : Paired R none as bs
  | one {a : α} {b : γ} : R a b → Paired R (some 1) [a] [b]
  | two {a₁ a₂ : α} {b₁ b₂ : γ} : R a₁ b₁ → R a₂ b₂ → Paired R (some 2) [a₁, a₂] [b₁, b₂]
  | three {a₁ a₂ a₃ : α} {b₁ b₂ b₃ : γ} : R a₁ b₁ → R a₂ b₂ → R a₃ b₃ →
      Paired R (some 3) [a₁, a₂, a₃] [b₁, b₂, b₃]
  | four {a₁ a₂ a₃ a₄ : α} {b₁ b₂ b₃ b₄ : γ} : R a₁ b₁ → R a₂ b₂ → R a₃ b₃ → R a₄ b₄ →
      Paired R (some 4) [a₁, a₂, a₃, a₄] [b₁, b₂, b₃, b₄]
  | five {a₁ a₂ a₃ a₄ a₅ : α} {b₁ b₂ b₃ b₄ b₅ : γ} : R a₁ b₁ → R a₂ b₂ → R a₃ b₃ →
      R a₄ b₄ → R a₅ b₅ → Paired R (some 5) [a₁, a₂, a₃, a₄, a₅] [b₁, b₂, b₃, b₄, b₅]

theorem argCount?_bounds {op : Builtin} {n : Nat} (hop : argCount? op = some n) :
    1 ≤ n ∧ n ≤ 5 := by
  cases op <;> cases hop <;> decide

/-- Related arguments are paired, unless the primitive takes another number of them. -/
theorem paired_of_forall₂ {α γ : Type} {R : α → γ → Prop} {as : List α} {bs : List γ}
    (h : List.Forall₂ R as bs) (op : Builtin) :
    (∃ n, argCount? op = some n ∧ as.length ≠ n ∧ bs.length ≠ n) ∨
      Paired R (argCount? op) as bs := by
  cases hop : argCount? op with
  | none => exact .inr .any
  | some n =>
      by_cases hn : as.length = n
      · obtain ⟨hpos, hle⟩ := argCount?_bounds hop
        subst hn
        refine .inr ?_
        rcases h with _ | ⟨h₁, _ | ⟨h₂, _ | ⟨h₃, _ | ⟨h₄, _ | ⟨h₅, _ | _⟩⟩⟩⟩⟩
        · exact absurd hpos (by simp)
        · exact .one h₁
        · exact .two h₁ h₂
        · exact .three h₁ h₂ h₃
        · exact .four h₁ h₂ h₃ h₄
        · exact .five h₁ h₂ h₃ h₄ h₅
        · exact absurd hle (by simp)
      · exact .inl ⟨n, rfl, hn, h.length_eq ▸ hn⟩

/-! ## What is done with the arguments -/

variable [BitLike β] [DecidableEq β]

/-- What a primitive does with its arguments.  Most primitives only read them, and so does one
that gets another number of them; the others are told apart. -/
inductive RunCases : Builtin → List (Value β) → Prop where
  | direct {op : Builtin} {args : List (Value β)} (x : Except EvalError (Value β))
      (atom : GivesAtom x) (run_eq : ∀ calls : Calls β, run calls op args = EvalM.ofExcept x) :
      RunCases op args
  | ite (ty cond t e : Value β) : RunCases .ite [ty, cond, t, e]
  | gen (n ty fn : Value β) : RunCases .gen [n, ty, fn]
  | index (n ty v i : Value β) : RunCases .index [n, ty, v, i]
  | append (m n ty xs ys : Value β) : RunCases .append [m, n, ty, xs, ys]
  | mkStream (ty fn : Value β) : RunCases .mkStream [ty, fn]
  | streamGet (ty stream index : Value β) : RunCases .streamGet [ty, stream, index]

theorem runCases (op : Builtin) (args : List (Value β)) : RunCases op args := by
  obtain ⟨n, hcount, hn, -⟩ | hpaired :=
    paired_of_forall₂ (R := fun _ _ => True) (List.forall₂_same.mpr fun _ _ => trivial) op
  · exact .direct _ (givesAtom_error _) fun calls => run_of_argCount?_ne calls hcount hn
  cases op with
  | typeFormer => exact .direct (.ok .type) (givesAtom_ok rfl) fun _ => rfl
  | ite => cases hpaired with | four => exact .ite ..
  | gen => cases hpaired with | three => exact .gen ..
  | index => cases hpaired with | four => exact .index ..
  | append => cases hpaired with | five => exact .append ..
  | mkStream => cases hpaired with | two => exact .mkStream ..
  | streamGet => cases hpaired with | three => exact .streamGet ..
  | boolNot | intNeg | natToInt | intToNat =>
      cases hpaired with | one =>
      exact .direct _ (givesAtom_bind fun _ => givesAtom_ok rfl) fun _ => rfl
  | bvNeg | bvNot =>
      cases hpaired with | two =>
      exact .direct _ (givesAtom_bind fun _ => givesAtom_ok rfl) fun _ => rfl
  | bvOp | bvCmp =>
      cases hpaired with | three =>
      exact .direct _ (givesAtom_bind fun _ => givesAtom_ok rfl) fun _ => rfl
  | boolOp =>
      cases hpaired with | two =>
      exact .direct _ (givesAtom_bind fun _ => givesAtom_bind fun _ => givesAtom_ok rfl)
        fun _ => rfl
  | error =>
      cases hpaired with | two =>
      exact .direct _ (givesAtom_bind fun _ => givesAtom_error _) fun _ => rfl
  | natSucc =>
      cases hpaired with | one =>
      exact .direct _ (givesAtom_bind fun _ => givesAtom_ok (isAtom_natSucc _)) fun _ => rfl
  | natOp op =>
      cases hpaired with | two =>
      exact .direct _ (givesAtom_bind fun _ => givesAtom_bind fun _ => givesAtom_natOp op _ _)
        fun _ => rfl
  | intOp op =>
      cases hpaired with | two =>
      exact .direct _ (givesAtom_bind fun _ => givesAtom_bind fun _ =>
        givesAtom_ok (isAtom_intOp op _ _)) fun _ => rfl
  | bvNat =>
      cases hpaired with | two =>
      exact .direct _ (givesAtom_bvNat _ _) fun _ => rfl
  | bvToNat =>
      cases hpaired with | two =>
      exact .direct _ (givesAtom_bind fun _ => givesAtom_ok (isAtom_bvToNat _)) fun _ => rfl
  | bvDivision part =>
      cases hpaired with | three =>
      exact .direct _ (givesAtom_bind fun _ => givesAtom_wordDivision part _ _) fun _ => rfl
  | bvShift kind =>
      cases hpaired with | three =>
      exact .direct _ (givesAtom_bind fun _ => givesAtom_bind fun _ =>
        givesAtom_ok (isAtom_wordShift kind _ _)) fun _ => rfl

/-- Whether a primitive only reads its arguments: it merges no values, makes no stream, puts
no vector together and makes no call. -/
def isDirect : Builtin → Bool
  | .ite | .gen | .index | .append | .mkStream | .streamGet => false
  | _ => true

/-- A primitive that only reads its arguments gives an atom, and the same whatever is called. -/
theorem exists_givesAtom_run {op : Builtin} (hop : isDirect op = true) (args : List (Value β)) :
    ∃ x, GivesAtom x ∧ ∀ calls : Calls β, run calls op args = EvalM.ofExcept x := by
  cases runCases op args with
  | direct x atom run_eq => exact ⟨x, atom, run_eq⟩
  | _ => cases hop

end Primitive

end TermGraph
