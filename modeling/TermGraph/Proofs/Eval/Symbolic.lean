import Mathlib
import TermGraph.Proofs.Eval.Simulate

/-!
# Symbolic evaluation simulates known evaluation

Whenever both evaluations of a term succeed, in environments whose values stand for each
other, so do their results.  This goes by induction on the fuel of the symbolic evaluation,
for any fuel of the known one: where the symbolic side applies both of two merged functions,
the known side applies one, and the same application is met again with less fuel on the
symbolic side only.
-/

namespace TermGraph

open EvalM (Grows)
open Value (Stands StandsFields)

variable {β : Type} [BitLike β] [DecidableEq β]

/-- What stands for each other is evaluated to what stands for each other. -/
structure CallsSimulate (f : Valuation β) (c : Setting β) (c' : Setting Bool) (calls : Calls β)
    (calls' : Calls Bool) : Prop where
  eval : ∀ {σ : Sources β} {τ : Sources Bool} (id : TermId) {env : Env β} {env' : Env Bool},
    List.Forall₂ (Stands f σ τ) env env' →
    Simulates c c' σ τ (calls.eval id env) (calls'.eval id env') (Stands f)
  apply : ∀ {σ : Sources β} {τ : Sources Bool} {fn arg : Value β} {fn' arg' : Value Bool},
    Stands f σ τ fn fn' → Stands f σ τ arg arg' →
    Simulates c c' σ τ (calls.apply fn arg) (calls'.apply fn' arg') (Stands f)
  element : ∀ {σ : Sources β} {τ : Sources Bool} {i j : StreamId} (n : Nat),
    Stands f σ τ (.stream i) (.stream j) →
    Simulates c c' σ τ (calls.element i n) (calls'.element j n) (Stands f)

namespace CallsSimulate

variable {f : Valuation β} {c : Setting β} {c' : Setting Bool} {calls : Calls β}
  {calls' : Calls Bool} {σ : Sources β} {τ : Sources Bool}

omit [DecidableEq β] in
theorem value {v : Value β} {w : Value Bool} (h : Stands f σ τ v w) :
    Simulates c c' σ τ (pure v) (pure w) (Stands f) :=
  .pure (persistent_stands f) h

omit [DecidableEq β] in
theorem forall₂_mono {σ₁ : Sources β} {τ₁ : Sources Bool} {vs : List (Value β)}
    {ws : List (Value Bool)} (h : List.Forall₂ (Stands f σ τ) vs ws) (hσ : σ.Le σ₁)
    (hτ : τ.Le τ₁) : List.Forall₂ (Stands f σ₁ τ₁) vs ws :=
  h.imp fun _ _ h => h.mono hσ hτ

omit [DecidableEq β] in
/-- A computation that makes no calls. -/
theorem direct {x : Except EvalError (Value β)} {y : Except EvalError (Value Bool)}
    (h : Matches (Stands f σ τ) x y) :
    Simulates c c' σ τ (EvalM.ofExcept x) (EvalM.ofExcept y) (Stands f) :=
  .ofExcept (persistent_stands f) h

/-! ## Primitives -/

theorem conditional {cond t e : Value β} {cond' t' e' : Value Bool}
    (hcond : Stands f σ τ cond cond') (ht : Stands f σ τ t t') (he : Stands f σ τ e e') :
    Simulates c c' σ τ
      (do
        let b ← EvalM.ofExcept (Primitive.boolArg "ite" cond)
        EvalM.ofMerge (Value.mux b t e))
      (do
        let b ← EvalM.ofExcept (Primitive.boolArg "ite" cond')
        EvalM.ofMerge (Value.mux b t' e'))
      (Stands f) := by
  refine .read (Primitive.matches_boolArg "ite" hcond) fun b b' hb => ?_
  subst hb
  rw [Value.mux_of_lit (show BitLike.asLit? (f.read b) = some (f.read b) from rfl)]
  refine .picked ?_
  split <;> assumption

theorem elementAt {v i : Value β} {v' i' : Value Bool} (hv : Stands f σ τ v v')
    (hi : Stands f σ τ i i') :
    Simulates c c' σ τ (Primitive.elementAt v i) (Primitive.elementAt v' i') (Stands f) := by
  refine .read (Primitive.matches_elemsArg "at" hv) fun as bs hab => ?_
  refine .read (Primitive.matches_natArg "at" hi) fun index index' hindex => ?_
  subst hindex
  obtain ⟨hlength, helems⟩ := Value.forall₂_iff_getElem?.mp hab
  dsimp only
  -- Beyond the end the symbolic side gives something, but the known one fails.
  cases hb : bs[index.number f]? with
  | none => exact .failRight _ _
  | some w =>
      obtain ⟨hn, -⟩ := List.getElem?_eq_some_iff.mp hb
      have ha := List.getElem?_eq_getElem (hlength ▸ hn : index.number f < as.length)
      have hstands := helems _ _ _ ha hb
      cases index with
      | known n =>
          dsimp only
          rw [show as[n]? = some _ from ha]
          exact value hstands
      | symbolic bits => exact .selected ha hstands

omit [DecidableEq β] in
theorem mkStream {fn : Value β} {fn' : Value Bool} (hfn : Stands f σ τ fn fn') :
    Simulates c c' σ τ (Primitive.mkStream fn) (Primitive.mkStream fn') (Stands f) :=
  .bind (.alloc hfn) fun _ _ _ _ _ _ hij => value hij

omit [DecidableEq β] in
theorem tabulate (h : CallsSimulate f c c' calls calls') {fn : Value β} {fn' : Value Bool}
    (hfn : Stands f σ τ fn fn') (count start : Nat) :
    Simulates c c' σ τ (Primitive.tabulate calls.apply fn count start)
      (Primitive.tabulate calls'.apply fn' count start)
      fun σ τ => List.Forall₂ (Stands f σ τ) := by
  have hlists : Reading.Persistent fun σ τ => List.Forall₂ (Stands f σ τ) :=
    fun _ _ _ _ _ _ hσ hτ h => forall₂_mono h hσ hτ
  induction count generalizing start with
  | zero => exact .pure hlists .nil
  | succ count ih =>
      rw [Primitive.tabulate, Primitive.tabulate]
      refine .bind (h.apply hfn (Primitive.stands_nat start)) fun σ₁ τ₁ v w hσ hτ hv => ?_
      refine .bind ((ih (start + 1)).later hσ hτ) fun σ₂ τ₂ vs ws hσ₂ hτ₂ hvs => ?_
      exact .pure hlists (.cons (hv.mono hσ₂ hτ₂) hvs)

omit [DecidableEq β] in
theorem gen (h : CallsSimulate f c c' calls calls') {n fn : Value β} {n' fn' : Value Bool}
    (hn : Stands f σ τ n n') (hfn : Stands f σ τ fn fn') :
    Simulates c c' σ τ (Primitive.gen calls n fn) (Primitive.gen calls' n' fn') (Stands f) := by
  refine .read (Primitive.matches_knownNatArg "gen" hn) ?_
  rintro count _ rfl
  split
  · refine .bind (h.tabulate hfn count 0) fun σ₁ τ₁ vs ws _ _ hvs => ?_
    exact value (Primitive.stands_ofElems hvs)
  · exact .fail _ _

theorem streamGet (h : CallsSimulate f c c' calls calls') (hgrow : calls.Grow) {v i : Value β}
    {v' i' : Value Bool} (hv : Stands f σ τ v v') (hi : Stands f σ τ i i') :
    Simulates c c' σ τ (Primitive.streamGet calls v i) (Primitive.streamGet calls' v' i')
      (Stands f) := by
  refine .read (Primitive.matches_streamArg "streamGet" hv) fun a b hab => ?_
  refine .read (Primitive.matches_natArg "streamGet" hi) fun index index' hindex => ?_
  subst hindex
  cases index with
  | known n => exact h.element n hab
  | symbolic bits =>
      dsimp only
      split
      swap
      · exact .fail _ _
      have hlt : f.number bits < 1 <<< bits.length := by
        rw [Nat.one_shiftLeft]
        exact Primitive.number_lt_of_length f bits
      have hreach : (List.range (1 <<< bits.length))[f.number bits]? = some (f.number bits) :=
        List.getElem?_range hlt
      -- The known side has the element and does nothing after it.
      rw [← bind_pure (calls'.element b _)]
      refine .bind (.nth (persistent_stands f) hreach (fun n => hgrow.element a n)
        (h.element _ hab)) fun σ₁ τ₁ elems w _ _ hw => ?_
      obtain ⟨v, hv, hstands⟩ := hw
      exact .selected hv hstands

/-- A primitive gives what stands for each other on arguments that stand for each other. -/
theorem run (h : CallsSimulate f c c' calls calls') (hgrow : calls.Grow) (op : Builtin)
    {args : List (Value β)} {args' : List (Value Bool)}
    (hargs : List.Forall₂ (Stands f σ τ) args args') :
    Simulates c c' σ τ (Primitive.run calls op args) (Primitive.run calls' op args')
      (Stands f) := by
  -- With another number of arguments the symbolic side fails already.
  obtain ⟨n, hop, hn, -⟩ | hpaired := Primitive.paired_of_forall₂ hargs op
  · rw [Primitive.run_of_argCount?_ne calls hop hn]
    exact .fail _ _
  cases op with
  | typeFormer => exact value (.atom rfl rfl rfl)
  | boolNot =>
      cases hpaired with | one ha =>
      refine direct ((Primitive.matches_boolArg _ ha).bind fun a a' haa => ?_)
      exact .ok (Value.stands_bool (by rw [f.read_not, haa]; rfl))
  | boolOp op =>
      cases hpaired with | two ha hb =>
      refine direct ((Primitive.matches_boolArg _ ha).bind fun a a' haa => ?_)
      refine (Primitive.matches_boolArg _ hb).bind fun b b' hbb => ?_
      exact .ok (Value.stands_bool (by rw [Primitive.read_boolOp, haa, hbb]))
  | ite =>
      cases hpaired with | four _ hc ht he =>
      exact conditional hc ht he
  | error =>
      cases hpaired with | two _ hm =>
      refine direct ((Primitive.matches_stringArg _ hm).bind fun a a' haa => ?_)
      exact .error_left _ _
  | natSucc =>
      cases hpaired with | one ha =>
      refine direct ((Primitive.matches_natArg _ ha).bind ?_)
      rintro a _ rfl
      exact .ok (Primitive.stands_natSucc a)
  | natOp op =>
      cases hpaired with | two ha hb =>
      refine direct ((Primitive.matches_natArg _ ha).bind ?_)
      rintro a _ rfl
      refine (Primitive.matches_natArg _ hb).bind ?_
      rintro b _ rfl
      exact Primitive.matches_natOp op a b
  | intOp op =>
      cases hpaired with | two ha hb =>
      refine direct ((Primitive.matches_intArg _ ha).bind ?_)
      rintro a _ rfl
      refine (Primitive.matches_intArg _ hb).bind ?_
      rintro b _ rfl
      exact .ok (Primitive.stands_intOp op a b)
  | intNeg =>
      cases hpaired with | one ha =>
      refine direct ((Primitive.matches_intArg _ ha).bind ?_)
      rintro a _ rfl
      exact .ok (.atom rfl rfl rfl)
  | natToInt =>
      cases hpaired with | one ha =>
      refine direct ((Primitive.matches_knownNatArg _ ha).bind ?_)
      rintro a _ rfl
      exact .ok (.atom rfl rfl rfl)
  | intToNat =>
      cases hpaired with | one ha =>
      refine direct ((Primitive.matches_intArg _ ha).bind ?_)
      rintro a _ rfl
      exact .ok (Primitive.stands_nat _)
  | gen =>
      cases hpaired with | three hn _ hf =>
      exact h.gen hn hf
  | index =>
      cases hpaired with | four _ _ hv hi =>
      exact elementAt hv hi
  | append =>
      cases hpaired with | five _ _ _ hx hy =>
      exact direct (Primitive.matches_append hx hy)
  | mkStream =>
      cases hpaired with | two _ hf =>
      exact mkStream hf
  | streamGet =>
      cases hpaired with | three _ hv hi =>
      exact h.streamGet hgrow hv hi
  | bvNat =>
      cases hpaired with | two hw hx =>
      exact direct (Primitive.matches_bvNat hw hx)
  | bvToNat =>
      cases hpaired with | two _ hx =>
      refine direct ((Primitive.matches_wordArg _ hx).bind ?_)
      rintro bits _ rfl
      exact .ok (Primitive.stands_bvToNat bits)
  | bvOp op =>
      cases hpaired with | three _ ha hb =>
      refine direct ((Primitive.matches_wordArgs _ ha hb).bind ?_)
      rintro ⟨a, b⟩ ⟨_, _⟩ ⟨-, rfl, rfl⟩
      exact .ok (Value.stands_word (Primitive.word_wordOp f op a b))
  | bvDivision part =>
      cases hpaired with | three _ ha hb =>
      refine direct ((Primitive.matches_wordArgs _ ha hb).bind ?_)
      rintro ⟨a, b⟩ ⟨_, _⟩ ⟨-, rfl, rfl⟩
      exact Primitive.matches_wordDivision part a b
  | bvCmp op =>
      cases hpaired with | three _ ha hb =>
      refine direct ((Primitive.matches_wordArgs _ ha hb).bind ?_)
      rintro ⟨a, b⟩ ⟨_, _⟩ ⟨-, rfl, rfl⟩
      exact .ok (Value.stands_bool (Primitive.read_wordCmp f op a b))
  | bvShift kind =>
      cases hpaired with | three _ hx hn =>
      refine direct ((Primitive.matches_wordArg _ hx).bind ?_)
      rintro x _ rfl
      refine (Primitive.matches_natArg _ hn).bind ?_
      rintro amount _ rfl
      exact .ok (Primitive.stands_wordShift kind x amount)
  | bvNeg =>
      cases hpaired with | two _ ha =>
      refine direct ((Primitive.matches_wordArg _ ha).bind ?_)
      rintro a _ rfl
      exact .ok (Value.stands_word (f.word_neg a))
  | bvNot =>
      cases hpaired with | two _ ha =>
      refine direct ((Primitive.matches_wordArg _ ha).bind ?_)
      rintro a _ rfl
      exact .ok (Value.stands_word (f.word_not a))

/-! ## Names -/

theorem callPrimitive (h : CallsSimulate f c c' calls calls') (hgrow : calls.Grow)
    (hc : c.Shadows f c') (prim : Ident) {args : List (Value β)} {args' : List (Value Bool)}
    (hargs : List.Forall₂ (Stands f σ τ) args args') :
    Simulates c c' σ τ (TermGraph.callPrimitive calls prim args)
      (TermGraph.callPrimitive calls' prim args') (Stands f) := by
  refine .ask fun ev ev' hev hev' => ?_
  rw [hev.primitives_eq, hev'.primitives_eq, hc.primitives, hc.primitives',
    getElem?_defaultPrimitives, getElem?_defaultPrimitives]
  cases Builtin.row? prim with
  | none => exact .fail _ _
  | some row =>
      simp only [Option.map_some, hargs.length_eq]
      split
      · exact value (Value.stands_partialApp hargs)
      · exact h.run hgrow _ hargs

theorem evalGlobal (h : CallsSimulate f c c' calls calls') (hgrow : calls.Grow)
    (hc : c.Shadows f c') (ident : Ident) :
    Simulates c c' σ τ (TermGraph.evalGlobal calls ident) (TermGraph.evalGlobal calls' ident)
      (Stands f) := by
  refine .ask fun ev ev' hev hev' => ?_
  obtain ⟨hv, hw⟩ | ⟨v, w, hv, hw, hvw⟩ := hc.override hev hev' ident <;> rw [hv, hw]
  · exact h.callPrimitive hgrow hc ident .nil
  · exact value (hvw σ τ)

theorem plainConstant (h : CallsSimulate f c c' calls calls') (hgrow : calls.Grow)
    (hc : c.Shadows f c') (ident : Ident) (body : Option TermId) :
    Simulates c c' σ τ (TermGraph.plainConstant calls ident body)
      (TermGraph.plainConstant calls' ident body) (Stands f) := by
  refine .ask fun ev ev' hev hev' => ?_
  obtain ⟨hv, hw⟩ | ⟨v, w, hv, hw, hvw⟩ := hc.override hev hev' ident <;> rw [hv, hw]
  · cases body with
    | none => exact h.evalGlobal hgrow hc ident
    | some body => exact h.eval body .nil
  · exact value (hvw σ τ)

/-! ## Conditionals -/

omit [DecidableEq β] in
theorem applyArgs (h : CallsSimulate f c c' calls calls') {fn : Value β} {fn' : Value Bool}
    {args : List (Value β)} {args' : List (Value Bool)} (hfn : Stands f σ τ fn fn')
    (hargs : List.Forall₂ (Stands f σ τ) args args') :
    Simulates c c' σ τ (TermGraph.applyArgs calls fn args)
      (TermGraph.applyArgs calls' fn' args') (Stands f) := by
  induction args generalizing args' fn fn' σ τ with
  | nil =>
      cases hargs
      exact value hfn
  | cons a args ih =>
      cases hargs with
      | cons ha hrest =>
          rw [TermGraph.applyArgs, TermGraph.applyArgs, List.foldlM_cons, List.foldlM_cons]
          refine .bind (h.apply hfn ha) fun σ₁ τ₁ v w hσ hτ hv => ?_
          exact ih hv (forall₂_mono hrest hσ hτ)

end CallsSimulate

section Chain

variable {s : Store} {n : Nat} {ev ev₁ : Evaluator β} {r : Value β}

theorem exec_callPrimitive_ite
    (hite : ev.primitives[Ident.prelude "ite"]? = some ⟨4, .builtin .ite⟩)
    (calls : Calls β) (args : List (Value β)) :
    (callPrimitive calls (.prelude "ite") args).exec ev =
      if args.length < 4 then (.ok (.partialApp (.prelude "ite") args), ev)
      else (Primitive.run calls .ite args).exec ev :=
  exec_callPrimitive_builtin hite calls args

/-- The name of the conditional waits for its arguments. -/
theorem exec_evalGlobal_ite
    (hite : ev.primitives[Ident.prelude "ite"]? = some ⟨4, .builtin .ite⟩)
    (hnone : ev.overrides[Ident.prelude "ite"]? = none) (calls : Calls β) :
    (evalGlobal calls (.prelude "ite")).exec ev = (.ok (.partialApp (.prelude "ite") []), ev) := by
  rw [evalGlobal, EvalM.exec_bind_ok (EvalM.exec_get ev), hnone]
  exact exec_callPrimitive_ite hite calls []

/-- The conditional that gets its arguments one after the other merges the last two. -/
theorem exec_applyArgs_ite {calls calls' : Calls β}
    (hstep : ∀ fn arg, calls'.apply fn arg = applyStep s calls fn arg)
    (hite : ev.primitives[Ident.prelude "ite"]? = some ⟨4, .builtin .ite⟩) (ty t e : Value β)
    (b : β) :
    (applyArgs calls' (.partialApp (.prelude "ite") []) [ty, .bool b, t, e]).exec ev =
      (EvalM.ofMerge (Value.mux b t e)).exec ev := by
  -- Up to the third argument the conditional only waits.
  have hwait (args args' : List (Value β)) {arg : Value β}
      (hargs : args ++ [arg] = args') (hshort : args'.length < 4) :
      (calls'.apply (.partialApp (.prelude "ite") args) arg).exec ev =
        (.ok (.partialApp (.prelude "ite") args'), ev) := by
    subst hargs
    rw [hstep]
    exact (exec_callPrimitive_ite hite calls _).trans (if_pos hshort)
  have hlast : (calls'.apply (.partialApp (.prelude "ite") [ty, .bool b, t]) e).exec ev =
      (EvalM.ofMerge (Value.mux b t e)).exec ev := by
    rw [hstep]
    exact exec_callPrimitive_ite hite calls [ty, .bool b, t, e]
  rw [applyArgs, List.foldlM_cons, EvalM.exec_bind_ok (hwait [] [ty] rfl (by simp)),
    List.foldlM_cons, EvalM.exec_bind_ok (hwait [ty] [ty, .bool b] rfl (by simp)),
    List.foldlM_cons, EvalM.exec_bind_ok (hwait [ty, .bool b] [ty, .bool b, t] rfl (by simp)),
    List.foldlM_cons]
  simp only [List.foldlM_nil, bind_pure]
  exact hlast

/-- A conditional with an unknown condition evaluates its type and merges its branches. -/
theorem exec_unknown_conditional
    (hite : ev.primitives[Ident.prelude "ite"]? = some ⟨4, .builtin .ite⟩)
    (hnone : ev.overrides[Ident.prelude "ite"]? = none) {env : Env β} {ty t e : TermId} {b : β}
    (hrun : (do
      let ite ← evalGlobal (bareCalls s n) (.prelude "ite")
      let ty ← (bareCalls s n).eval ty env
      let t ← (bareCalls s n).eval t env
      let e ← (bareCalls s n).eval e env
      applyArgs (bareCalls s n) ite [ty, .bool b, t, e]).exec ev = (.ok r, ev₁)) :
    (do
      let _ ← (bareCalls s n).eval ty env
      let t ← (bareCalls s n).eval t env
      let e ← (bareCalls s n).eval e env
      EvalM.ofMerge (Value.mux b t e)).exec ev = (.ok r, ev₁) := by
  have hgrow := grow_callsBy (β := β) ⟨false, false⟩ s n
  rw [EvalM.exec_bind_ok (exec_evalGlobal_ite hite hnone _)] at hrun
  obtain ⟨vty, ev₂, hty, hrun₁⟩ := EvalM.exec_bind_eq_ok hrun
  obtain ⟨vt, ev₃, ht, hrun₂⟩ := EvalM.exec_bind_eq_ok hrun₁
  obtain ⟨ve, ev₄, he, hrun₃⟩ := EvalM.exec_bind_eq_ok hrun₂
  have hlater₂ := (hgrow.eval ty env).later (c := ev.setting) rfl hty
  have hlater₃ := (hgrow.eval t env).later hlater₂.holds ht
  have hlater₄ := (hgrow.eval e env).later hlater₃.holds he
  rw [EvalM.exec_bind_ok hty, EvalM.exec_bind_ok ht, EvalM.exec_bind_ok he]
  have hprims : ev₄.primitives = ev.primitives := congrArg Setting.primitives hlater₄.holds
  cases n with
  | zero => cases hty
  | succ n =>
      have hstep (fn arg : Value β) :
          (bareCalls s (n + 1)).apply fn arg = applyStep s (bareCalls s n) fn arg := rfl
      exact (exec_applyArgs_ite hstep (hprims ▸ hite) vty vt ve b).symm.trans hrun₃

end Chain

namespace CallsSimulate

variable {f : Valuation β} {c : Setting β} {c' : Setting Bool} {s : Store} {n : Nat}
  {calls' : Calls Bool} {σ : Sources β} {τ : Sources Bool} {env : Env β} {env' : Env Bool}

/-- Where the known side takes the branch that its condition picks, the symbolic side takes
both and merges them, unless it knows the condition too. -/
theorem evalConditional (h : CallsSimulate f c c' (bareCalls s n) calls')
    (hc : c.Shadows f c') (hnone : c.overrides[Ident.prelude "ite"]? = none)
    (henv : List.Forall₂ (Stands f σ τ) env env') (ty cond t e : TermId) :
    Simulates c c' σ τ (TermGraph.evalConditional (bareCalls s n) env ty cond t e)
      (TermGraph.evalConditional calls' env' ty cond t e) (Stands f) := by
  have hgrow := grow_callsBy (β := β) ⟨false, false⟩ s n
  refine .bind (h.eval cond henv) fun σ₁ τ₁ v w hσ hτ hv => ?_
  have henv₁ := forall₂_mono henv hσ hτ
  rw [Primitive.asBit?_eq hv]
  cases hbit : v.asBit? with
  | none =>
      refine .bind (h.evalGlobal hgrow hc _) fun σ₂ τ₂ ite ite' hσ₂ hτ₂ hite => ?_
      have henv₂ := forall₂_mono henv₁ hσ₂ hτ₂
      refine .bind (h.eval ty henv₂) fun σ₃ τ₃ vty wty hσ₃ hτ₃ hty => ?_
      have henv₃ := forall₂_mono henv₂ hσ₃ hτ₃
      refine .bind (h.eval t henv₃) fun σ₄ τ₄ vt wt hσ₄ hτ₄ ht => ?_
      refine .bind (h.eval e (forall₂_mono henv₃ hσ₄ hτ₄)) fun σ₅ τ₅ ve we hσ₅ hτ₅ he => ?_
      have hσ₃₅ := hσ₄.trans hσ₅
      have hτ₃₅ := hτ₄.trans hτ₅
      have hσ₂₅ := hσ₃.trans hσ₃₅
      have hτ₂₅ := hτ₃.trans hτ₃₅
      exact h.applyArgs (hite.mono hσ₂₅ hτ₂₅) (.cons (hty.mono hσ₃₅ hτ₃₅)
        (.cons (hv.mono (hσ₂.trans hσ₂₅) (hτ₂.trans hτ₂₅))
          (.cons (ht.mono hσ₅ hτ₅) (.cons he .nil))))
  | some b =>
      obtain rfl : v = .bool b := by
        cases v <;> cases hbit
        rfl
      change Simulates c c' σ₁ τ₁ _ (calls'.eval (if f.read b then t else e) env') _
      dsimp only [Option.bind_some]
      cases hlit : BitLike.asLit? b with
      | some known =>
          rw [f.read_of_asLit hlit]
          exact h.eval _ henv₁
      | none =>
          -- The type is evaluated on the symbolic side only, and does not count.
          have hbranch : Simulates c c' σ₁ τ₁
              (if f.read b then (bareCalls s n).eval t env else (bareCalls s n).eval e env)
              (calls'.eval (if f.read b then t else e) env') (Stands f) := by
            split <;> exact h.eval _ henv₁
          have hmerge := Simulates.skip (hgrow.eval ty env) fun _ =>
            .choose (hgrow.eval t env) (hgrow.eval e env) hbranch
          refine hmerge.ofLeft fun ev r ev₁ hev hrun => ?_
          refine exec_unknown_conditional ?_ ?_ hrun
          · rw [show ev.primitives = Evaluator.defaultPrimitives from
              (congrArg Setting.primitives hev).trans hc.primitives]
            exact getElem?_defaultPrimitives_ite
          · exact (congrArg (·[Ident.prelude "ite"]?) (congrArg Setting.overrides hev)).trans
              hnone

end CallsSimulate

end TermGraph
