import Mathlib
import TermGraph.Proofs.Eval.Nodes

/-!
# Evaluation that keeps less

An evaluator may keep the values of shared nodes and of constant bodies, and it may keep
the elements of streams.  Both are choices: `Evaluator.callsBy` evaluates by the same steps
with any of them left out.  With both it is the evaluator itself, and with the first left
out it is the evaluator that never memoizes nodes or constant bodies.
-/

namespace TermGraph

variable {β : Type} [BitLike β] [DecidableEq β]

/-- The value of a constant: what overrides it, or else its body, evaluated anew. -/
def plainConstant (calls : Calls β) (ident : Ident) (body : Option TermId) :
    EvalM β (Value β) := do
  match (← getThe (Evaluator β)).overrides[ident]?, body with
  | some v, _ => return v
  | none, some body => calls.eval body []
  | none, none => evalGlobal calls ident

/-- The value of a term in an environment, evaluated anew. -/
def plainStep (s : Store) (calls : Calls β) (id : TermId) (env : Env β) : EvalM β (Value β) :=
  match s.node id with
  | .constant ident _ body => plainConstant calls ident body
  | _ => evalNode s calls id env

/-- What an evaluator keeps. -/
structure Keeps where
  /-- The values of shared nodes and of constant bodies. -/
  nodes : Bool
  /-- The elements of streams. -/
  elements : Bool

namespace Evaluator

/-- The calls of an evaluator that keeps only what is asked for, with some fuel left. -/
def callsBy (p : Keeps) (s : Store) : Nat → Calls β
  | 0 => ⟨fun _ _ => throw .outOfFuel, fun _ _ => throw .outOfFuel, fun _ _ => throw .outOfFuel⟩
  | fuel + 1 =>
      let calls := callsBy p s fuel
      ⟨fun id env => if p.nodes then evalStep s calls id env else plainStep s calls id env,
        applyStep s calls,
        fun id n => if p.elements then elementStep calls id n else sourceElement calls id n⟩

/-- The evaluator itself keeps everything. -/
theorem callsBy_everything (s : Store) (fuel : Nat) :
    callsBy ⟨true, true⟩ s fuel = calls (β := β) s fuel := by
  induction fuel with
  | zero => simp only [callsBy, calls, eval, apply, element]
  | succ fuel ih =>
      simp only [callsBy, ih, if_true]
      rfl

end Evaluator

/-- The calls of an evaluator that keeps nothing. -/
abbrev bareCalls (s : Store) (fuel : Nat) : Calls β :=
  Evaluator.callsBy ⟨false, false⟩ s fuel

theorem bareCalls_eval (s : Store) (fuel : Nat) (id : TermId) (env : Env β) :
    (bareCalls s (fuel + 1)).eval id env = plainStep s (bareCalls s fuel) id env :=
  rfl

/-! ## Following step by step -/

namespace CallsFollow

open Value (Similar SimilarOn)

variable {c : Setting β} {s : Store} {S T : Side c} {calls : Calls β} {calls' : Nat → Calls β}
  {σ τ : Sources β}

theorem plainConstant (h : CallsFollow s S T calls calls') (hc : c.Alike s S T) (ident : Ident)
    (body : Option TermId) :
    Follows S T σ τ (TermGraph.plainConstant calls ident body)
      (fun n => TermGraph.plainConstant (calls' n) ident body) (Similar s) := by
  refine .ask fun ev ev' hev hev' => ?_
  rw [hev.overrides_eq, hev'.overrides_eq]
  cases hv : c.overrides[ident]? with
  | some v => exact .pureAt fun ev ev' hev hev' => hc.overrides ident v hv ev ev' hev.holds hev'.holds
  | none =>
      cases body with
      | none => exact h.evalGlobal hc ident
      | some body => exact h.eval fun _ _ => .inl ⟨rfl, rfl⟩

/-- A node does alike in similar environments when its value is computed anew. -/
theorem plainStep (h : CallsFollow s S T calls calls') (hc : c.Alike s S T) {id : TermId}
    {env env' : Env β} (henv : SimilarOn s σ τ (s.looseVars id) env env') :
    Follows S T σ τ (TermGraph.plainStep s calls id env)
      (fun n => TermGraph.plainStep s (calls' n) id env') (Similar s) := by
  unfold TermGraph.plainStep
  split
  · exact h.plainConstant hc _ _
  · next hconst => exact h.evalNode hc hconst henv

end CallsFollow

end TermGraph
