import Mathlib
import TermGraph.Proofs.Eval.Symbolic

/-!
# Symbolic evaluation of terms, functions and streams

What symbolic evaluation does with a node, a function value or a stream is simulated step by
step, and so is a whole evaluation.  The induction is on the fuel of the symbolic side alone:
of two merged functions or streams it takes both while the known side has one of them, and
the fuel of the known side stays as it is until the merges are taken apart.
-/

namespace TermGraph

open Value (Stands StandsFields)

variable {β : Type} [BitLike β] [DecidableEq β] {f : Valuation β} {c : Setting β}
  {c' : Setting Bool} {s : Store} {n : Nat} {σ : Sources β} {τ : Sources Bool}

namespace CallsSimulate

section Nodes

variable {calls' : Calls Bool} {env : Env β} {env' : Env Bool}

/-- Under a name of its own, a conditional is an application like any other. -/
theorem evalApp (h : CallsSimulate f c c' (bareCalls s n) calls') (hc : c.Shadows f c')
    (henv : List.Forall₂ (Stands f σ τ) env env') (id fn arg : TermId) :
    Simulates c c' σ τ (TermGraph.evalApp s (bareCalls s n) id fn arg env)
      (TermGraph.evalApp s calls' id fn arg env') (Stands f) := by
  have hstrict : Simulates c c' σ τ
      (do
        let v ← (bareCalls s n).eval fn env
        let w ← (bareCalls s n).eval arg env
        (bareCalls s n).apply v w)
      (do
        let v ← calls'.eval fn env'
        let w ← calls'.eval arg env'
        calls'.apply v w)
      (Stands f) := by
    refine .bind (h.eval fn henv) fun σ₁ τ₁ v v' hσ hτ hv => ?_
    refine .bind (h.eval arg (forall₂_mono henv hσ hτ)) fun σ₂ τ₂ w w' hσ₂ hτ₂ hw => ?_
    exact h.apply (hv.mono hσ₂ hτ₂) hw
  unfold TermGraph.evalApp
  cases conditionalArgs? s id with
  | none => exact hstrict
  | some args =>
      obtain ⟨ty, cond, t, e⟩ := args
      refine .ask fun ev ev' hev hev' => ?_
      -- Whether the name of the conditional is replaced is the same on both sides.
      simp only [Std.HashMap.contains_eq_isSome_getElem?]
      obtain ⟨hv, hw⟩ | ⟨v, w, hv, hw, -⟩ := hc.override hev hev' (.prelude "ite")
      · rw [hv, hw]
        exact h.evalConditional hc (hev.overrides_eq ▸ hv) henv ty cond t e
      · rw [hv, hw]
        exact hstrict

omit [DecidableEq β] in
theorem projection (op : String) {v : Value β} {w : Value Bool}
    {part : Value β × Value β → Value β} {part' : Value Bool × Value Bool → Value Bool}
    (hpart : ∀ {a b a' b'}, Stands f σ τ a a' → Stands f σ τ b b' →
      Stands f σ τ (part (a, b)) (part' (a', b')))
    (h : Stands f σ τ v w) :
    Simulates c c' σ τ (EvalM.ofExcept (evalProjection op part v))
      (EvalM.ofExcept (evalProjection op part' w)) (Stands f) := by
  cases v with
  | pair a b =>
      obtain ⟨a', b', rfl, ha, hb⟩ := h.of_pair
      exact value (hpart ha hb)
  | _ => exact .fail _ _

omit [DecidableEq β] in
theorem field (x : String) {v : Value β} {w : Value Bool} (h : Stands f σ τ v w) :
    Simulates c c' σ τ (EvalM.ofExcept (evalField x v)) (EvalM.ofExcept (evalField x w))
      (Stands f) := by
  cases v with
  | record fs =>
      obtain ⟨gs, rfl, hfg⟩ := h.of_record
      simp only [evalField]
      obtain ⟨hf, hg⟩ | ⟨p, q, hf, hg, hpq⟩ := Value.find?_fields hfg x <;> rw [hf, hg]
      · exact .fail _ _
      · exact value hpq
  | _ => exact .fail _ _

omit [DecidableEq β] in
/-- The terms of a list, in the same environments. -/
theorem evalAll {calls : Calls β} (h : CallsSimulate f c c' calls calls')
    (henv : List.Forall₂ (Stands f σ τ) env env') (ids : List TermId) :
    Simulates c c' σ τ (ids.mapM fun p => calls.eval p env)
      (ids.mapM fun p => calls'.eval p env') fun σ τ => List.Forall₂ (Stands f σ τ) := by
  refine .mapM (P := Eq) (persistent_stands f) (List.forall₂_same.mpr fun _ _ => rfl) ?_
  rintro p _ rfl
  exact h.eval p henv

omit [DecidableEq β] in
theorem arrayValue (elemType : TermId) {vs : List (Value β)} {ws : List (Value Bool)}
    (h : List.Forall₂ (Stands f σ τ) vs ws) :
    Stands f σ τ (TermGraph.arrayValue s elemType vs) (TermGraph.arrayValue s elemType ws) := by
  have hempty : vs.isEmpty = ws.isEmpty := by cases h <;> rfl
  unfold TermGraph.arrayValue
  rw [hempty]
  split
  · exact Value.stands_word rfl
  · exact Primitive.stands_ofElems h

/-- A node that is no constant. -/
theorem evalNode (h : CallsSimulate f c c' (bareCalls s n) calls') (hc : c.Shadows f c')
    (henv : List.Forall₂ (Stands f σ τ) env env') {id : TermId}
    (hconst : ∀ ident ty body, s.node id ≠ .constant ident ty body) :
    Simulates c c' σ τ (TermGraph.evalNode s (bareCalls s n) id env)
      (TermGraph.evalNode s calls' id env') (Stands f) := by
  have hgrow := grow_callsBy (β := β) ⟨false, false⟩ s n
  unfold TermGraph.evalNode
  cases hnode : s.node id with
  | constant ident ty body => exact absurd hnode (hconst ident ty body)
  | global ident => exact h.evalGlobal hgrow hc ident
  | free x ty =>
      refine .ask fun ev ev' hev hev' => ?_
      obtain ⟨hv, hw⟩ | ⟨v, w, hv, hw, hvw⟩ := hc.freeValue hev hev' id <;> rw [hv, hw]
      · exact .fail _ _
      · exact value (hvw σ τ)
  | bound i =>
      obtain ⟨hlength, helems⟩ := Value.forall₂_iff_getElem?.mp henv
      dsimp only
      cases ha : env[i]? with
      | none => exact .fail _ _
      | some a =>
          obtain ⟨hi, -⟩ := List.getElem?_eq_some_iff.mp ha
          have hb := List.getElem?_eq_getElem (hlength ▸ hi : i < env'.length)
          rw [hb]
          exact value (helems i _ _ ha hb)
  | sort _ _ | unitType | pairType _ _ | recordType _ | data _ _ _ | pi _ _ _ | nat _ | string _
  | unit => exact value (.atom rfl rfl rfl)
  | bool b => exact value (Value.stands_bool (f.read_lit b))
  | app fn arg => exact h.evalApp hc henv id fn arg
  | pair a b =>
      refine .bind (h.eval a henv) fun σ₁ τ₁ v v' hσ hτ hv => ?_
      refine .bind (h.eval b (forall₂_mono henv hσ hτ)) fun σ₂ τ₂ w w' hσ₂ hτ₂ hw => ?_
      exact value (.pair (hv.mono hσ₂ hτ₂) hw)
  | pairLeft p =>
      exact .bind (h.eval p henv) fun _ _ _ _ _ _ hv => projection _ (fun ha _ => ha) hv
  | pairRight p =>
      exact .bind (h.eval p henv) fun _ _ _ _ _ _ hv => projection _ (fun _ hb => hb) hv
  | record fields =>
      refine .bind (.mapM (P := Eq)
        (R := fun σ τ (p : String × Value β) (q : String × Value Bool) =>
          p.1 = q.1 ∧ Stands f σ τ p.2 q.2)
        (fun _ _ _ _ _ _ hσ hτ h => ⟨h.1, h.2.mono hσ hτ⟩)
        (List.forall₂_same.mpr fun _ _ => rfl) ?_) ?_
      · rintro p _ rfl
        refine .bind (h.eval p.2 henv) fun σ₁ τ₁ v v' _ _ hv => ?_
        exact .pure (fun _ _ _ _ _ _ hσ hτ h => ⟨h.1, h.2.mono hσ hτ⟩) ⟨rfl, hv⟩
      · exact fun σ₁ τ₁ fs gs _ _ hfg => value (Value.stands_ofFields hfg)
  | proj r x => exact .bind (h.eval r henv) fun _ _ _ _ _ _ hv => field x hv
  | array elemType elems =>
      exact .bind (h.evalAll henv elems) fun _ _ _ _ _ _ hvs => value (arrayValue elemType hvs)
  | ctor ident params args =>
      exact .bind (h.evalAll henv args) fun _ _ _ _ _ _ hvs => value (Value.stands_ctor hvs)
  | lam x ty body => exact value (Value.stands_closure henv)
  | letIn x ty v body =>
      refine .bind (h.eval v henv) fun σ₁ τ₁ w w' hσ hτ hw => ?_
      exact h.eval body (.cons hw (forall₂_mono henv hσ hτ))
  | recursor _ _ _ _ _ | fix _ _ _ => exact .fail _ _

theorem plainStep (h : CallsSimulate f c c' (bareCalls s n) calls') (hc : c.Shadows f c')
    (henv : List.Forall₂ (Stands f σ τ) env env') (id : TermId) :
    Simulates c c' σ τ (TermGraph.plainStep s (bareCalls s n) id env)
      (TermGraph.plainStep s calls' id env') (Stands f) := by
  unfold TermGraph.plainStep
  split
  · exact h.plainConstant (grow_callsBy ⟨false, false⟩ s n) hc _ _
  · next hconst => exact h.evalNode hc henv hconst

end Nodes

/-! ## Function values and streams -/

/-- A function gives the same on both sides.  Of two that have been merged, the one that the
condition picks is met with less fuel on the symbolic side only. -/
theorem applyStep (h : ∀ m, CallsSimulate f c c' (bareCalls s n) (bareCalls s m))
    (hc : c.Shadows f c') (m : Nat) {fn arg : Value β} {fn' arg' : Value Bool}
    (hfn : Stands f σ τ fn fn') (harg : Stands f σ τ arg arg') :
    Simulates c c' σ τ (TermGraph.applyStep s (bareCalls s n) fn arg)
      ((bareCalls s m).apply fn' arg') (Stands f) := by
  have hgrow := grow_callsBy (β := β) ⟨false, false⟩ s n
  cases m with
  | zero => exact .outOfFuelRight _
  | succ k =>
      cases fn with
      | closure lambda env =>
          obtain ⟨env', rfl, henv⟩ := hfn.of_closure
          change Simulates c c' σ τ _ (TermGraph.applyStep s _ (.closure lambda env') arg') _
          unfold TermGraph.applyStep
          dsimp only
          cases s.node lambda with
          | lam x ty body => exact (h k).eval body (.cons harg henv)
          | _ => exact .fail _ _
      | partialApp prim args =>
          obtain ⟨args', rfl, hargs⟩ := hfn.of_partialApp
          exact (h k).callPrimitive hgrow hc prim (List.rel_append hargs (.cons harg .nil))
      | funMux b left right =>
          -- The known side has not made a step: its fuel is that of the whole call.
          refine .choose (hgrow.apply _ _) (hgrow.apply _ _) ?_
          have hpicked := hfn.of_funMux
          cases hb : f.read b <;> rw [hb] at hpicked <;> exact (h (k + 1)).apply hpicked harg
      | type =>
          obtain rfl := hfn.of_type
          exact value (.atom rfl rfl rfl)
      | _ => exact .fail _ _

/-- A stream gives the same elements on both sides. -/
theorem sourceElement (h : ∀ m, CallsSimulate f c c' (bareCalls s n) (bareCalls s m))
    (m : Nat) {i j : StreamId} (k : Nat) (hij : Stands f σ τ (.stream i) (.stream j)) :
    Simulates c c' σ τ (TermGraph.sourceElement (bareCalls s n) i k)
      ((bareCalls s m).element j k) (Stands f) := by
  have hgrow := grow_callsBy (β := β) ⟨false, false⟩ s n
  cases m with
  | zero => exact .outOfFuelRight _
  | succ m =>
      -- Streams are merged on the symbolic side only.
      obtain ⟨_, hj, ⟨g, g', hi, hj', hg⟩ | ⟨b, left, right, hi, hpicked⟩⟩ := hij.of_stream
      · cases hj
        refine .ask fun ev ev' hev hev' => ?_
        rw [hev.source? hi, hev'.source? hj']
        exact (h m).apply hg (Primitive.stands_nat k)
      · cases hj
        refine .askLeft fun ev hev => ?_
        rw [hev.source? hi]
        refine .choose (hgrow.element _ _) (hgrow.element _ _) ?_
        cases hb : f.read b <;> rw [hb] at hpicked <;> exact (h (m + 1)).element k hpicked

end CallsSimulate

/-- A symbolic evaluation is simulated by a known one under any valuation, whatever fuel the
two have. -/
theorem bareCalls_simulate (s : Store) (hc : c.Shadows f c') (n m : Nat) :
    CallsSimulate f c c' (bareCalls s n) (bareCalls s m) := by
  induction n generalizing m with
  | zero => exact ⟨fun _ _ _ _ => .outOfFuel _, fun _ _ => .outOfFuel _, fun _ _ => .outOfFuel _⟩
  | succ n ih =>
      refine ⟨fun id env env' henv => ?_, CallsSimulate.applyStep ih hc m,
        CallsSimulate.sourceElement ih m⟩
      cases m with
      | zero => exact .outOfFuelRight _
      | succ m => exact (ih m).plainStep hc henv id

end TermGraph
