import Mathlib
import TermGraph.Proofs.Eval.Reference

/-!
# More fuel

More fuel does not change an evaluation that has come to an end: its result, or its error,
and the state that it leaves stay the same.
-/

namespace TermGraph

variable {β : Type}

namespace EvalM

variable {α γ : Type} {m m' : EvalM β α} {f f' : α → EvalM β γ}

/-- A computation runs out of fuel, or does what another one does. -/
def Approximates (m m' : EvalM β α) : Prop :=
  ∀ ev, (m.exec ev).1 = .error .outOfFuel ∨ m'.exec ev = m.exec ev

theorem Approximates.refl (m : EvalM β α) : m.Approximates m :=
  fun _ => .inr rfl

theorem Approximates.outOfFuel (m : EvalM β α) : (throw .outOfFuel : EvalM β α).Approximates m :=
  fun _ => .inl rfl

theorem Approximates.trans {m'' : EvalM β α} (h : m.Approximates m') (h' : m'.Approximates m'') :
    m.Approximates m'' := by
  intro ev
  rcases h ev with hm | hm
  · exact .inl hm
  · rcases h' ev with hm' | hm'
    · exact .inl (hm ▸ hm')
    · exact .inr (hm'.trans hm)

theorem Approximates.bind (hm : m.Approximates m') (hf : ∀ a, (f a).Approximates (f' a)) :
    (m >>= f).Approximates (m' >>= f') := by
  intro ev
  rcases hrun : m.exec ev with ⟨e | a, ev₁⟩
  · rw [exec_bind_error hrun]
    rcases hm ev with h | h
    · rw [hrun] at h
      cases h
      exact .inl rfl
    · exact .inr (exec_bind_error (h.trans hrun) _)
  · rw [exec_bind_ok hrun]
    rcases hm ev with h | h
    · rw [hrun] at h
      cases h
    · rw [exec_bind_ok (h.trans hrun)]
      exact hf a ev₁

theorem Approximates.mapM {as : List α} (h : ∀ a ∈ as, (f a).Approximates (f' a)) :
    (as.mapM f).Approximates (as.mapM f') := by
  induction as with
  | nil => exact .refl _
  | cons a as ih =>
      obtain ⟨ha, has⟩ := List.forall_mem_cons.mp h
      rw [List.mapM_cons, List.mapM_cons]
      exact .bind ha fun _ => .bind (ih has) fun _ => .refl _

/-- What has come to an end is what the other computation does. -/
theorem Approximates.exec_eq {r : Except Stop α} {ev ev₁ : Evaluator β} (h : m.Approximates m')
    (hrun : m.exec ev = (r, ev₁)) (hr : r ≠ .error .outOfFuel) : m'.exec ev = (r, ev₁) := by
  rcases h ev with h | h
  · rw [hrun] at h
    exact absurd h hr
  · rw [h, hrun]

end EvalM

open EvalM (Approximates)

/-- The calls of the one run out of fuel or do what those of the other do. -/
structure Calls.Approximate (calls calls' : Calls β) : Prop where
  eval : ∀ id env, (calls.eval id env).Approximates (calls'.eval id env)
  apply : ∀ fn arg, (calls.apply fn arg).Approximates (calls'.apply fn arg)
  element : ∀ id n, (calls.element id n).Approximates (calls'.element id n)

namespace Calls.Approximate

variable [BitLike β] [DecidableEq β] {calls calls' : Calls β}

omit [BitLike β] [DecidableEq β] in
theorem tabulate (h : calls.Approximate calls') (fn : Value β) (count start : Nat) :
    (Primitive.tabulate calls.apply fn count start).Approximates
      (Primitive.tabulate calls'.apply fn count start) := by
  induction count generalizing start with
  | zero => exact .refl _
  | succ count ih => exact .bind (h.apply _ _) fun _ => .bind (ih _) fun _ => .refl _

/-- Only three primitives make calls. -/
theorem run (h : calls.Approximate calls') (op : Builtin) (args : List (Value β)) :
    (Primitive.run calls op args).Approximates (Primitive.run calls' op args) := by
  cases Primitive.runCases op args with
  | direct x _ run_eq =>
      rw [run_eq, run_eq]
      exact .refl _
  | gen n _ fn =>
      refine .bind (.refl _) fun count => ?_
      split
      · exact .bind (h.tabulate fn count 0) fun _ => .refl _
      · exact .refl _
  | streamGet _ stream index =>
      refine .bind (.refl _) fun id => .bind (.refl _) fun index => ?_
      cases index with
      | known n => exact h.element id n
      | symbolic bits =>
          dsimp only
          split
          · exact .bind (.mapM fun n _ => h.element id n) fun _ => .refl _
          · exact .refl _
  | ite | index | append | mkStream => exact .refl _

theorem callPrimitive (h : calls.Approximate calls') (prim : Ident) (args : List (Value β)) :
    (callPrimitive calls prim args).Approximates (callPrimitive calls' prim args) := by
  refine .bind (.refl _) fun ev => ?_
  split
  · exact .refl _
  · split
    · exact .refl _
    · split
      · exact h.run _ _
      · exact .refl _

theorem evalGlobal (h : calls.Approximate calls') (ident : Ident) :
    (evalGlobal calls ident).Approximates (evalGlobal calls' ident) := by
  refine .bind (.refl _) fun ev => ?_
  split
  · exact .refl _
  · exact h.callPrimitive _ _

theorem evalConstant (h : calls.Approximate calls') (ident : Ident) (body : Option TermId) :
    (evalConstant calls ident body).Approximates (evalConstant calls' ident body) := by
  refine .bind (.refl _) fun ev => ?_
  split
  · exact .refl _
  · split
    · exact .refl _
    · exact .bind (h.eval _ _) fun _ => .refl _
  · exact h.evalGlobal _

theorem plainConstant (h : calls.Approximate calls') (ident : Ident) (body : Option TermId) :
    (plainConstant calls ident body).Approximates (plainConstant calls' ident body) := by
  refine .bind (.refl _) fun ev => ?_
  split
  · exact .refl _
  · exact h.eval _ _
  · exact h.evalGlobal _

omit [BitLike β] [DecidableEq β] in
theorem applyArgs (h : calls.Approximate calls') (fn : Value β) (args : List (Value β)) :
    (applyArgs calls fn args).Approximates (applyArgs calls' fn args) := by
  unfold TermGraph.applyArgs
  induction args generalizing fn with
  | nil => exact .refl _
  | cons a args ih =>
      rw [List.foldlM_cons, List.foldlM_cons]
      exact .bind (h.apply fn a) fun v => ih v

theorem evalConditional (h : calls.Approximate calls') (env : Env β) (ty c t e : TermId) :
    (evalConditional calls env ty c t e).Approximates (evalConditional calls' env ty c t e) := by
  refine .bind (h.eval _ _) fun cond => ?_
  split
  · exact h.eval _ _
  · exact .bind (h.evalGlobal _) fun _ => .bind (h.eval _ _) fun _ => .bind (h.eval _ _) fun _ =>
      .bind (h.eval _ _) fun _ => h.applyArgs _ _

theorem evalApp (h : calls.Approximate calls') (s : Store) (id fn arg : TermId) (env : Env β) :
    (evalApp s calls id fn arg env).Approximates (evalApp s calls' id fn arg env) := by
  have hstrict : (do let v ← calls.eval fn env; let w ← calls.eval arg env; calls.apply v w :
      EvalM β (Value β)).Approximates
      (do let v ← calls'.eval fn env; let w ← calls'.eval arg env; calls'.apply v w) :=
    .bind (h.eval _ _) fun _ => .bind (h.eval _ _) fun _ => h.apply _ _
  unfold TermGraph.evalApp
  split
  · exact hstrict
  · refine .bind (.refl _) fun ev => ?_
    split
    · exact hstrict
    · exact h.evalConditional _ _ _ _ _

theorem evalNode (h : calls.Approximate calls') (s : Store) (id : TermId) (env : Env β) :
    (evalNode s calls id env).Approximates (evalNode s calls' id env) := by
  unfold TermGraph.evalNode
  cases s.node id with
  | global ident => exact h.evalGlobal ident
  | constant ident ty body => exact h.evalConstant ident body
  | app fn arg => exact h.evalApp s id fn arg env
  | pair a b => exact .bind (h.eval _ _) fun _ => .bind (h.eval _ _) fun _ => .refl _
  | pairLeft p | pairRight p | proj r x => exact .bind (h.eval _ _) fun _ => .refl _
  | record fields =>
      exact .bind (.mapM fun p _ => .bind (h.eval _ _) fun _ => .refl _) fun _ => .refl _
  | array elemType elems => exact .bind (.mapM fun p _ => h.eval _ _) fun _ => .refl _
  | ctor ident params args => exact .bind (.mapM fun p _ => h.eval _ _) fun _ => .refl _
  | letIn x ty v body => exact .bind (h.eval _ _) fun _ => h.eval _ _
  | _ => exact .refl _

theorem evalStep (h : calls.Approximate calls') (s : Store) (id : TermId) (env : Env β) :
    (evalStep s calls id env).Approximates (evalStep s calls' id env) := by
  refine .bind (.refl _) fun ev => ?_
  split
  · split
    · exact .refl _
    · exact .bind (h.evalNode s id env) fun _ => .refl _
  · exact h.evalNode s id env

theorem plainStep (h : calls.Approximate calls') (s : Store) (id : TermId) (env : Env β) :
    (plainStep s calls id env).Approximates (plainStep s calls' id env) := by
  unfold TermGraph.plainStep
  split
  · exact h.plainConstant _ _
  · exact h.evalNode s id env

theorem applyStep (h : calls.Approximate calls') (s : Store) (fn arg : Value β) :
    (applyStep s calls fn arg).Approximates (applyStep s calls' fn arg) := by
  cases fn with
  | closure lambda env =>
      unfold TermGraph.applyStep
      dsimp only
      split
      · exact h.eval _ _
      · exact .refl _
  | partialApp prim args => exact h.callPrimitive _ _
  | funMux c t e => exact .bind (h.apply _ _) fun _ => .bind (h.apply _ _) fun _ => .refl _
  | _ => exact .refl _

theorem sourceElement (h : calls.Approximate calls') (id : StreamId) (n : Nat) :
    (sourceElement calls id n).Approximates (sourceElement calls' id n) := by
  refine .bind (.refl _) fun ev => ?_
  split
  · exact h.apply _ _
  · exact .bind (h.element _ _) fun _ => .bind (h.element _ _) fun _ => .refl _
  · exact .refl _

theorem elementStep (h : calls.Approximate calls') (id : StreamId) (n : Nat) :
    (elementStep calls id n).Approximates (elementStep calls' id n) := by
  rw [elementStep_eq, elementStep_eq]
  refine .bind (.refl _) fun ev => ?_
  split
  · exact .refl _
  · exact .bind (h.sourceElement id n) fun _ => .refl _

omit [BitLike β] [DecidableEq β] in
theorem body (h : calls.Approximate calls') (g : Given β) (body : TermId) :
    (g.body calls body).Approximates (g.body calls' body) := by
  unfold Given.body
  split
  · exact .refl _
  · exact h.eval _ _

theorem givenConstant (h : calls.Approximate calls') (g : Given β) (ident : Ident)
    (body : Option TermId) :
    (g.constant calls ident body).Approximates (g.constant calls' ident body) := by
  refine .bind (.refl _) fun ev => ?_
  split
  · exact .refl _
  · exact h.body g _
  · exact h.evalGlobal _

theorem givenStep (h : calls.Approximate calls') (g : Given β) (s : Store) (id : TermId)
    (env : Env β) : (g.step s calls id env).Approximates (g.step s calls' id env) := by
  unfold Given.step
  split
  · exact .refl _
  · split
    · exact h.givenConstant g _ _
    · exact h.evalNode s id env

theorem givenElement (h : calls.Approximate calls') (g : Given β) (i : StreamId) (n : Nat) :
    (g.element calls i n).Approximates (g.element calls' i n) := by
  unfold Given.element
  split
  · exact .refl _
  · exact h.sourceElement i n

end Calls.Approximate

variable [BitLike β] [DecidableEq β]

theorem callsBy_approximate_succ (p : Keeps) (s : Store) (fuel : Nat) :
    (Evaluator.callsBy p s fuel : Calls β).Approximate (Evaluator.callsBy p s (fuel + 1)) := by
  induction fuel with
  | zero => exact ⟨fun _ _ => .outOfFuel _, fun _ _ => .outOfFuel _, fun _ _ => .outOfFuel _⟩
  | succ fuel ih =>
      refine ⟨fun id env => ?_, ih.applyStep s, fun id n => ?_⟩
      · change (if p.nodes then _ else _ : EvalM β (Value β)).Approximates
          (if p.nodes then _ else _)
        split
        · exact ih.evalStep s id env
        · exact ih.plainStep s id env
      · change (if p.elements then _ else _ : EvalM β (Value β)).Approximates
          (if p.elements then _ else _)
        split
        · exact ih.elementStep id n
        · exact ih.sourceElement id n

omit [BitLike β] [DecidableEq β] in
/-- Where one more unit of fuel changes nothing, no more fuel does. -/
theorem approximate_of_succ {calls : Nat → Calls β}
    (h : ∀ n, (calls n).Approximate (calls (n + 1))) {fuel fuel' : Nat} (hle : fuel ≤ fuel') :
    (calls fuel).Approximate (calls fuel') := by
  induction hle with
  | refl => exact ⟨fun _ _ => .refl _, fun _ _ => .refl _, fun _ _ => .refl _⟩
  | @step fuel' _ ih =>
      exact ⟨fun _ _ => (ih.eval _ _).trans ((h fuel').eval _ _),
        fun _ _ => (ih.apply _ _).trans ((h fuel').apply _ _),
        fun _ _ => (ih.element _ _).trans ((h fuel').element _ _)⟩

/-- An evaluation that has come to an end does the same with more fuel. -/
theorem callsBy_approximate (p : Keeps) (s : Store) {fuel fuel' : Nat} (h : fuel ≤ fuel') :
    (Evaluator.callsBy p s fuel : Calls β).Approximate (Evaluator.callsBy p s fuel') :=
  approximate_of_succ (callsBy_approximate_succ p s) h

theorem Reference.approximate_succ {s : Store} {c : Setting β} (R : Reference s c) (fuel : Nat) :
    (R.calls fuel).Approximate (R.calls (fuel + 1)) := by
  induction fuel with
  | zero =>
      rw [R.zero]
      exact ⟨fun _ _ => .outOfFuel _, fun _ _ => .outOfFuel _, fun _ _ => .outOfFuel _⟩
  | succ fuel ih =>
      refine ⟨fun id env => ?_, fun fn arg => ?_, fun i n => ?_⟩
      · rw [R.eval_succ, R.eval_succ]
        exact ih.givenStep R.given s id env
      · rw [R.apply_succ, R.apply_succ]
        exact ih.applyStep s fn arg
      · rw [R.element_succ, R.element_succ]
        exact ih.givenElement R.given i n

theorem Reference.approximate {s : Store} {c : Setting β} (R : Reference s c) {fuel fuel' : Nat}
    (h : fuel ≤ fuel') : (R.calls fuel).Approximate (R.calls fuel') :=
  approximate_of_succ R.approximate_succ h

end TermGraph
