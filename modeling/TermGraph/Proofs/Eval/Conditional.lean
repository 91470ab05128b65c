import Mathlib
import TermGraph.Proofs.Eval.SameEnd
import TermGraph.Proofs.Eval.Stretch
import TermGraph.Proofs.Eval.Symbolic

/-!
# Conditionals evaluate the branch that they need

A conditional with all of its arguments is not evaluated like other applications: its condition
comes first, and when that is known, only the branch that it picks is evaluated.  Where
evaluating all four arguments and merging gives data, so does this, and the same.  Further
arguments of the conditional make no difference.
-/

namespace TermGraph

open EvalM (Converges Coincide)
open Value (Similar SimilarOn Fits)

variable {β : Type}

/-! ## Terms that are conditionals -/

/-- A conditional with all of its arguments, applied to further arguments. -/
def Store.AppliesConditional (s : Store) (id ty c t e : TermId) (rest : List TermId) : Prop :=
  ∃ head, s.spine id = (head, ty :: c :: t :: e :: rest) ∧
    s.asGlobal? head = some (.prelude "ite")

/-- A conditional with all of its arguments, applied to the first of some further arguments. -/
def Store.StartsConditional (s : Store) (id ty c t e : TermId) (rest : List TermId) : Prop :=
  ∃ rest', rest' <+: rest ∧ s.AppliesConditional id ty c t e rest'

namespace Store.AppliesConditional

variable {s : Store} {id ty c t e : TermId} {rest : List TermId}

/-- Without further arguments it is recognized. -/
theorem conditionalArgs?_eq (h : s.AppliesConditional id ty c t e []) :
    conditionalArgs? s id = some (ty, c, t, e) := by
  obtain ⟨head, hspine, hhead⟩ := h
  rw [conditionalArgs?, hspine]
  exact if_pos hhead

theorem node_app (h : s.AppliesConditional id ty c t e rest) : ∃ f a, s.node id = .app f a := by
  obtain ⟨head, hspine, -⟩ := h
  obtain hnil | ⟨args, a, hargs⟩ := List.eq_nil_or_concat (ty :: c :: t :: e :: rest)
  · cases hnil
  · rw [hargs, List.concat_eq_append] at hspine
    obtain ⟨f, hnode, -⟩ := Store.spine_eq_append hspine
    exact ⟨f, a, hnode⟩

/-- With further arguments it is the application of a conditional with one argument less. -/
theorem of_append {a : TermId} (h : s.AppliesConditional id ty c t e (rest ++ [a])) :
    ∃ f, s.node id = .app f a ∧ s.AppliesConditional f ty c t e rest ∧
      conditionalArgs? s id = none := by
  obtain ⟨head, hspine, hhead⟩ := h
  obtain ⟨f, hnode, hf⟩ := Store.spine_eq_append
    (show s.spine id = (head, (ty :: c :: t :: e :: rest) ++ [a]) from hspine)
  refine ⟨f, hnode, ⟨head, hf, hhead⟩, ?_⟩
  rw [conditionalArgs?, hspine]
  cases rest <;> rfl

/-- Environments that are similar for a conditional are similar for all of its arguments. -/
theorem part {σ τ : Sources β} {env env' : Env β} (h : s.AppliesConditional id ty c t e rest)
    (henv : SimilarOn s σ τ (s.looseVars id) env env') :
    ∀ p ∈ ty :: c :: t :: e :: rest, SimilarOn s σ τ (s.looseVars p) env env' := by
  obtain ⟨head, hspine, -⟩ := h
  exact CallsFollow.part_of_spine hspine henv

end Store.AppliesConditional

theorem Store.StartsConditional.append {s : Store} {id ty c t e : TermId} {rest : List TermId}
    (h : s.StartsConditional id ty c t e rest) (a : TermId) :
    s.StartsConditional id ty c t e (rest ++ [a]) := by
  obtain ⟨rest', hrest', hid⟩ := h
  exact ⟨rest', hrest'.trans (List.prefix_append _ _), hid⟩

/-! ## The branch that is picked -/

section Lazy

/-- Applies a function value to the values of terms, one after the other. -/
def applyTerms (calls : Calls β) (env : Env β) (fn : Value β) (args : List TermId) :
    EvalM β (Value β) :=
  args.foldlM (fun fn arg => do
    let v ← calls.eval arg env
    calls.apply fn v) fn

/-- The value of a term, applied to the values of others. -/
def evalApplied (calls : Calls β) (env : Env β) (id : TermId) (args : List TermId) :
    EvalM β (Value β) := do
  let fn ← calls.eval id env
  applyTerms calls env fn args

theorem Calls.Approximate.applyTerms {calls calls' : Calls β} (h : calls.Approximate calls')
    (env : Env β) (fn : Value β) (args : List TermId) :
    (applyTerms calls env fn args).Approximates (applyTerms calls' env fn args) := by
  induction args generalizing fn with
  | nil => exact .refl _
  | cons a args ih =>
      rw [TermGraph.applyTerms, TermGraph.applyTerms, List.foldlM_cons, List.foldlM_cons]
      exact .bind (.bind (h.eval _ _) fun _ => h.apply _ _) fun v => ih v

theorem Calls.Approximate.evalApplied {calls calls' : Calls β} (h : calls.Approximate calls')
    (env : Env β) (id : TermId) (args : List TermId) :
    (evalApplied calls env id args).Approximates (evalApplied calls' env id args) :=
  .bind (h.eval _ _) fun fn => h.applyTerms env fn args

variable [BitLike β] [DecidableEq β] {s : Store} {calls : Nat → Calls β} {ev ev₁ : Evaluator β}
  {env : Env β} {id ty c t e : TermId} {rest : List TermId}

/-- The node of a conditional is evaluated as a conditional, unless that is overridden. -/
theorem exec_evalNode_conditional (hid : s.AppliesConditional id ty c t e [])
    (hnone : ev.overrides[Ident.prelude "ite"]? = none) (calls : Calls β) :
    (evalNode s calls id env).exec ev = (evalConditional calls env ty c t e).exec ev := by
  obtain ⟨f, a, hnode⟩ := hid.node_app
  rw [evalNode, hnode]
  dsimp only
  rw [evalApp, hid.conditionalArgs?_eq]
  dsimp only
  rw [EvalM.exec_bind_ok (EvalM.exec_get ev), if_neg]
  rw [Std.HashMap.contains_eq_isSome_getElem?, hnone]
  exact Bool.false_ne_true

/-- When the condition is known, a conditional is the branch that it picks. -/
theorem exec_evalConditional_picked {calls : Calls β} {cond : Value β} {b : Bool}
    (hc : (calls.eval c env).exec ev = (.ok cond, ev₁))
    (hlit : cond.asBit?.bind BitLike.asLit? = some b) :
    (evalConditional calls env ty c t e).exec ev =
      (calls.eval (if b then t else e) env).exec ev₁ := by
  rw [evalConditional, EvalM.exec_bind_ok hc, hlit]

/-- A conditional with further arguments is evaluated first, and applied to them then, when
none of the terms on the way has a value that is kept. -/
theorem coincide_conditional
    (happrox : ∀ {n n'}, n ≤ n' → (calls n).Approximate (calls n'))
    (hid : s.AppliesConditional id ty c t e rest)
    (hnone : ev.overrides[Ident.prelude "ite"]? = none)
    (heval : ∀ p, s.StartsConditional p ty c t e rest → ∀ n,
      ((calls (n + 1)).eval p env).exec ev = (evalNode s (calls n) p env).exec ev) :
    Coincide (fun n => (calls n).eval id env) ev
      (fun n => do
        let fn ← evalConditional (calls n) env ty c t e
        applyTerms (calls n) env fn rest) ev := by
  -- The outermost node applies the rest of the term to the last argument.
  induction rest using List.reverseRecOn generalizing id with
  | nil =>
      refine .of_succ fun n => ?_
      rw [heval id ⟨[], List.prefix_rfl, hid⟩ n, exec_evalNode_conditional hid hnone]
      exact congrArg (EvalM.exec · ev) (bind_pure _).symm
  | append_singleton rest a ih =>
      obtain ⟨f, hnode, hf, hargs⟩ := hid.of_append
      have hstrict : Coincide (fun n => (calls n).eval id env) ev
          (fun n => do
            let fn ← (calls n).eval f env
            let v ← (calls n).eval a env
            (calls n).apply fn v) ev := by
        refine .of_succ fun n => ?_
        rw [heval id ⟨_, List.prefix_rfl, hid⟩ n, evalNode, hnode]
        dsimp only
        rw [evalApp, hargs]
      have hhead := ih hf fun p hp => heval p (hp.append a)
      refine hstrict.trans ?_
      have hlast := hhead.bind (fun hle => (happrox hle).eval f env)
        (fun hle => .bind ((happrox hle).evalConditional env ty c t e) fun fn =>
          (happrox hle).applyTerms env fn rest)
        (fun n fn => do
          let v ← (calls n).eval a env
          (calls n).apply fn v)
      simpa only [applyTerms, List.foldlM_append, List.foldlM_cons, List.foldlM_nil, bind_pure,
        bind_assoc] using hlast

/-- So is an application of it, in the state that the condition leaves. -/
theorem coincide_branch {cond : Value β} {b : Bool} (rest : List TermId)
    (hc : Converges (fun n => (calls n).eval c env) ev (.ok cond, ev₁))
    (hlit : cond.asBit?.bind BitLike.asLit? = some b) :
    Coincide
      (fun n => do
        let fn ← evalConditional (calls n) env ty c t e
        applyTerms (calls n) env fn rest) ev
      (fun n => evalApplied (calls n) env (if b then t else e) rest) ev₁ := by
  obtain ⟨k, hk⟩ := hc
  exact .of_eventually fun n hn =>
    EvalM.exec_bind_congr (exec_evalConditional_picked (hk n hn) hlit) _

end Lazy

/-! ## All four arguments -/

section Strict

variable {c : Setting β} {s : Store} {S T : Side c} {σ σ' τ τ' : Sources β} {v : Value β}

/-- A value is similar to what a computation gives from whatever state of a side in which some
streams are there. -/
def DenotesAt (s : Store) (T : Side c) (σ τ : Sources β) (m' : Nat → EvalM β (Value β))
    (v : Value β) : Prop :=
  ∀ ev', T.At τ ev' → ∃ w ev₁', Converges m' ev' (.ok w, ev₁') ∧ T.Later ev' ev₁' ∧
    Similar s σ (T.sources ev₁') v w

/-- What has been computed on one side is what the other side computes at any time. -/
theorem Follows.of_ok {m : EvalM β (Value β)} {m' : Nat → EvalM β (Value β)}
    {ev ev₁ ev' : Evaluator β} (h : Follows S T σ τ m m' (Similar s)) (hev : S.At σ ev)
    (hev' : T.At τ ev') (hrun : m.exec ev = (.ok v, ev₁)) :
    S.Later ev ev₁ ∧ DenotesAt s T (S.sources ev₁) τ m' v := by
  refine ⟨(h ev ev' hev hev' _ _ hrun nofun).1, fun ev' hev' => ?_⟩
  obtain ⟨-, r', ev₁', hconv, hlater, hagree⟩ := h ev ev' hev hev' _ _ hrun nofun
  cases hagree with
  | ok hvw => exact ⟨_, ev₁', hconv, hlater, hvw⟩

namespace DenotesAt

variable {m m' : Nat → EvalM β (Value β)} {f : Nat → Value β → EvalM β (Value β)} {u : Value β}

theorem mono (h : DenotesAt s T σ τ m v) (hσ : σ.Le σ') (hτ : τ.Le τ') :
    DenotesAt s T σ' τ' m v := by
  intro ev hev
  obtain ⟨w, ev₁, hconv, hlater, hvw⟩ := h ev (hev.of_le hτ)
  exact ⟨w, ev₁, hconv, hlater, hvw.mono hσ (.refl _)⟩

theorem of_succ (h : DenotesAt s T σ τ (fun n => m (n + 1)) v) : DenotesAt s T σ τ m v := by
  intro ev hev
  obtain ⟨w, ev₁, hconv, hlater, hvw⟩ := h ev hev
  exact ⟨w, ev₁, hconv.of_succ, hlater, hvw⟩

theorem congr (hsame : ∀ ev, T.At τ ev → ∀ n, (m n).exec ev = (m' n).exec ev)
    (h : DenotesAt s T σ τ m' v) : DenotesAt s T σ τ m v := by
  intro ev hev
  obtain ⟨w, ev₁, ⟨k, hk⟩, hlater, hvw⟩ := h ev hev
  exact ⟨w, ev₁, ⟨k, fun n hn => (hsame ev hev n).trans (hk n hn)⟩, hlater, hvw⟩

theorem bind (h : DenotesAt s T σ τ m v)
    (hf : ∀ τ₁ w, τ.Le τ₁ → Similar s σ τ₁ v w → DenotesAt s T σ' τ₁ (fun n => f n w) u) :
    DenotesAt s T σ' τ (fun n => m n >>= f n) u := by
  intro ev hev
  obtain ⟨w, ev₁, hconv, hlater, hvw⟩ := h ev hev
  obtain ⟨w', ev₂, hconv', hlater', huw⟩ := hf _ w (hlater.at hev).sources_le hvw ev₁ hlater.self
  exact ⟨w', ev₂, hconv.bind hconv', hlater.trans hlater', huw⟩

end DenotesAt

variable [BitLike β] [DecidableEq β]

/-- A conditional that evaluates all four arguments and applies the primitive to their
values. -/
def evalStrict (calls : Calls β) (env : Env β) (ty c t e : TermId) : EvalM β (Value β) := do
  let ty ← calls.eval ty env
  let c ← calls.eval c env
  let t ← calls.eval t env
  let e ← calls.eval e env
  callPrimitive calls (.prelude "ite") [ty, c, t, e]

variable {calls : Calls β} {calls' : Nat → Calls β} {env env' : Env β} {ty cond t e : TermId}

namespace DenotesAt

/-- A conditional stands for the branch that its condition picks. -/
theorem picked {vc : Value β} {b : Bool}
    (hcond : DenotesAt s T σ τ (fun n => (calls' n).eval cond env') vc)
    (hlit : vc.asBit?.bind BitLike.asLit? = some b)
    (hbranch : DenotesAt s T σ τ (fun n => (calls' n).eval (if b then t else e) env') v) :
    DenotesAt s T σ τ (fun n => evalConditional (calls' n) env' ty cond t e) v := by
  refine hcond.bind fun τ₁ w hτ hw => ?_
  rw [← hw.asBit?_eq, hlit]
  exact hbranch.mono (.refl _) hτ

/-- When the condition is not known, it stands for the merge of the branches. -/
theorem merged {vty vt ve : Value β} {b : β} {ev ev₁ : Evaluator β}
    (hstep : ∀ n fn arg, (calls' (n + 1)).apply fn arg = applyStep s (calls' n) fn arg)
    (hite : c.primitives[Ident.prelude "ite"]? = some ⟨4, .builtin .ite⟩)
    (hnone : c.overrides[Ident.prelude "ite"]? = none)
    (hty : DenotesAt s T σ τ (fun n => (calls' n).eval ty env') vty)
    (hcond : DenotesAt s T σ τ (fun n => (calls' n).eval cond env') (.bool b))
    (ht : DenotesAt s T σ τ (fun n => (calls' n).eval t env') vt)
    (he : DenotesAt s T σ τ (fun n => (calls' n).eval e env') ve)
    (hlit : BitLike.asLit? b = none) (hev : S.At σ ev)
    (hmerge : (EvalM.ofMerge (Value.mux b vt ve)).exec ev = (.ok v, ev₁)) :
    DenotesAt s T (S.sources ev₁) τ (fun n => evalConditional (calls' n) env' ty cond t e) v := by
  have hprims {τ : Sources β} {ev : Evaluator β} (hev : T.At τ ev) :
      ev.primitives[Ident.prelude "ite"]? = some ⟨4, .builtin .ite⟩ := by
    rw [hev.primitives_eq]
    exact hite
  refine hcond.bind fun τ₁ w hτ hw => ?_
  obtain rfl := hw.eq_of_isAtom rfl
  simp only [Value.asBit?, Option.bind_some, hlit]
  refine .congr (fun ev hev n => EvalM.exec_bind_ok (exec_evalGlobal_ite (hprims hev) ?_ _) _) ?_
  · rw [hev.overrides_eq]
    exact hnone
  -- The condition is not evaluated again; it is the same bit in both runs.
  refine (hty.mono (.refl _) hτ).bind fun τ₂ wty hτ₂ hwty => ?_
  refine (ht.mono (.refl _) (hτ.trans hτ₂)).bind fun τ₃ wt hτ₃ hwt => ?_
  refine (he.mono (.refl _) ((hτ.trans hτ₂).trans hτ₃)).bind fun τ₄ we hτ₄ hwe => .of_succ ?_
  refine .congr (fun ev hev n => exec_applyArgs_ite (hstep n) (hprims hev) wty wt we b) ?_
  intro ev' hev'
  exact ((Follows.ofMerge ((hwt.mono (.refl _) hτ₄).mux hwe)).of_ok hev hev' hmerge).2 ev' hev'

end DenotesAt

namespace CallsFollow

variable {ev ev₁ ev' : Evaluator β}

/-- Where the strict conditional succeeds on one side, the lazy one does on the other. -/
theorem of_evalStrict (h : CallsFollow s S T calls calls')
    (hstep : ∀ n fn arg, (calls' (n + 1)).apply fn arg = TermGraph.applyStep s (calls' n) fn arg)
    (hite : c.primitives[Ident.prelude "ite"]? = some ⟨4, .builtin .ite⟩)
    (hnone : c.overrides[Ident.prelude "ite"]? = none)
    (henv : ∀ p ∈ [ty, cond, t, e], SimilarOn s σ τ (s.looseVars p) env env')
    (hev : S.At σ ev) (hev' : T.At τ ev')
    (hrun : (evalStrict calls env ty cond t e).exec ev = (.ok v, ev₁)) :
    S.Later ev ev₁ ∧ DenotesAt s T (S.sources ev₁) τ
      (fun n => TermGraph.evalConditional (calls' n) env' ty cond t e) v := by
  obtain ⟨vty, ev_ty, hty, hrun⟩ := EvalM.exec_bind_eq_ok hrun
  obtain ⟨vc, ev_c, hcond, hrun⟩ := EvalM.exec_bind_eq_ok hrun
  obtain ⟨vt, ev_t, ht, hrun⟩ := EvalM.exec_bind_eq_ok hrun
  obtain ⟨ve, ev_e, he, hrun⟩ := EvalM.exec_bind_eq_ok hrun
  obtain ⟨hlater, hty⟩ := (h.eval (henv ty (by simp))).of_ok hev hev' hty
  obtain ⟨hlater_c, hcond⟩ := (h.eval (henv cond (by simp))).of_ok (hlater.at hev) hev' hcond
  replace hlater := hlater.trans hlater_c
  obtain ⟨hlater_t, ht⟩ := (h.eval (henv t (by simp))).of_ok (hlater.at hev) hev' ht
  replace hlater := hlater.trans hlater_t
  obtain ⟨hlater_e, he⟩ := (h.eval (henv e (by simp))).of_ok (hlater.at hev) hev' he
  replace hlater := hlater.trans hlater_e
  -- All values still stand for what they stood for where they are merged.
  replace ht := ht.mono hlater_e.sources_le (.refl _)
  replace hcond := hcond.mono (hlater_t.trans hlater_e).sources_le (.refl _)
  replace hty := hty.mono (hlater_c.trans (hlater_t.trans hlater_e)).sources_le (.refl _)
  have hprims : ev_e.primitives[Ident.prelude "ite"]? = some ⟨4, .builtin .ite⟩ := by
    rw [hlater.self.primitives_eq]
    exact hite
  rw [exec_callPrimitive_ite hprims] at hrun
  -- A merge only succeeds when the condition is a bit.
  obtain ⟨b, ev_b, hb, hmerge⟩ := EvalM.exec_bind_eq_ok hrun
  obtain ⟨rfl, rfl⟩ : vc = .bool b ∧ ev_b = ev_e := by
    cases vc <;> cases hb
    exact ⟨rfl, rfl⟩
  have hadds : S.Later ev_b ev₁ := by
    rw [EvalM.exec_ofMerge] at hmerge
    split at hmerge
    · next v' heap hmux =>
        cases hmerge
        have hadds := addsOnly_mux b vt ve _ _ _ hmux
        exact ⟨S.adds hlater.holds hadds, hadds.sources_le _⟩
    · cases hmerge
  refine ⟨hlater.trans hadds, ?_⟩
  cases hlit : BitLike.asLit? b with
  | none => exact .merged hstep hite hnone hty hcond ht he hlit hlater.self hmerge
  | some known =>
      rw [Value.mux_of_lit hlit] at hmerge
      cases hmerge
      refine .picked (b := known) hcond hlit ?_
      cases known
      · exact he
      · exact ht

theorem applyTerms (h : CallsFollow s S T calls calls') {fn fn' : Value β} {args : List TermId}
    (hfn : Similar s σ τ fn fn')
    (henv : ∀ p ∈ args, SimilarOn s σ τ (s.looseVars p) env env') :
    Follows S T σ τ (TermGraph.applyTerms calls env fn args)
      (fun n => TermGraph.applyTerms (calls' n) env' fn' args) (Similar s) := by
  induction args generalizing fn fn' σ τ with
  | nil => exact value hfn
  | cons a args ih =>
      obtain ⟨ha, hargs⟩ := List.forall_mem_cons.mp henv
      simp only [TermGraph.applyTerms, List.foldlM_cons]
      refine .bind (.bind (h.eval ha) fun σ₁ τ₁ v v' hσ hτ hv => h.apply (hfn.mono hσ hτ) hv) ?_
      exact fun σ₁ τ₁ v v' hσ hτ hv => ih hv fun p hp => (hargs p hp).mono hσ hτ

theorem evalApplied (h : CallsFollow s S T calls calls') {id : TermId} {args : List TermId}
    (henv : ∀ p ∈ id :: args, SimilarOn s σ τ (s.looseVars p) env env') :
    Follows S T σ τ (TermGraph.evalApplied calls env id args)
      (fun n => TermGraph.evalApplied (calls' n) env' id args) (Similar s) := by
  obtain ⟨hid, hargs⟩ := List.forall_mem_cons.mp henv
  exact .bind (h.eval hid) fun σ₁ τ₁ v v' hσ hτ hv =>
    h.applyTerms hv fun p hp => (hargs p hp).mono hσ hτ

end CallsFollow

end Strict

/-! ## Agreement -/

variable [BitLike β] [DecidableEq β] {s : Store} {ev₀ ev : Evaluator β} {env : Env β}

theorem calls_approximate (s : Store) {fuel fuel' : Nat} (h : fuel ≤ fuel') :
    (Evaluator.calls s fuel : Calls β).Approximate (Evaluator.calls s fuel') := by
  simpa only [Evaluator.callsBy_everything] using callsBy_approximate ⟨true, true⟩ s h

theorem calls_apply_succ (s : Store) (fuel : Nat) (fn arg : Value β) :
    (Evaluator.calls s (fuel + 1)).apply fn arg = applyStep s (Evaluator.calls s fuel) fn arg :=
  rfl

/-- An application is evaluated alike by an evaluator in one state and by the reference in
another. -/
theorem sameEnd_evalApplied (h₀ : Coherent s ev₀) {σ : Sources β} {ev ev' : Evaluator β}
    (hev : ((ev₀.reference s).keeper ev₀.view).At σ ev) (hev' : ev₀.side.At σ ev') {id : TermId}
    {args : List TermId} (henv : ∀ p ∈ id :: args, SimilarOn s σ σ (s.looseVars p) env env) :
    SameEnd (fun fuel => evalApplied (Evaluator.calls s fuel) env id args) ev
      (fun fuel => evalApplied ((ev₀.reference s).calls fuel) env id args) ev' :=
  Follows.sameEnd (fun fuel => (h₀.follows fuel).evalApplied henv)
    (fun fuel => (h₀.followed fuel).evalApplied henv)
    (fun hle => ((ev₀.reference s).approximate hle).evalApplied env id args) hev hev'

omit [BitLike β] [DecidableEq β] in
theorem evalApplied_nil (calls : Calls β) (env : Env β) (id : TermId) :
    evalApplied calls env id [] = calls.eval id env :=
  bind_pure _

section Conditional

variable {id ty c t e : TermId} {rest : List TermId} {fuel : Nat} {b : β} {known : Bool}
  {ev₁ ev' : Evaluator β}

/-- The reference evaluates a conditional first, and applies it then, when it is given no
value on the way. -/
theorem coincide_reference (hid : s.AppliesConditional id ty c t e rest)
    (hnone : ev.overrides[Ident.prelude "ite"]? = none)
    (hgiven : ∀ p, s.StartsConditional p ty c t e rest → ev₀.given.nodes p = none) :
    Coincide (fun n => ((ev₀.reference s).calls n).eval id env) ev
      (fun n => do
        let fn ← evalConditional ((ev₀.reference s).calls n) env ty c t e
        applyTerms ((ev₀.reference s).calls n) env fn rest) ev := by
  refine coincide_conditional (fun hle => (ev₀.reference s).approximate hle) hid hnone
    fun p hp n => ?_
  have hgiven := hgiven p hp
  obtain ⟨rest', -, hp⟩ := hp
  obtain ⟨f, a, hnode⟩ := hp.node_app
  rw [Reference.eval_succ, Given.step]
  simp only [Evaluator.reference, hgiven, hnode]

/-- What evaluating all arguments and merging the branches gives is what the evaluator
gives, if it is data. -/
theorem converges_of_evalStrict (h₀ : Coherent s ev₀) (hev : (ev₀.reference s).Sound ev₀.view ev)
    (hid : s.AppliesConditional id ty c t e rest)
    (hite : ev.primitives[Ident.prelude "ite"]? = some ⟨4, .builtin .ite⟩)
    (hnone : ev.overrides[Ident.prelude "ite"]? = none)
    (hfits : env.Fits s (ev.heap.sources ev₀.view) id)
    (hgiven : ∀ p, s.StartsConditional p ty c t e rest → ev₀.given.nodes p = none) {v : Value β}
    (hrun : (do
      let fn ← evalStrict (Evaluator.calls s fuel) env ty c t e
      applyTerms (Evaluator.calls s fuel) env fn rest).exec ev = (.ok v, ev'))
    (hv : v.isData = true) :
    ∃ ev'', Converges (fun n => Evaluator.eval s n id env) ev (.ok v, ev'') := by
  have hkeeper : ((ev₀.reference s).keeper ev₀.view).At (ev.heap.sources ev₀.view) ev :=
    ⟨hev, .refl _⟩
  have hside : (ev₀.reference s).side.At (ev.heap.sources ev₀.view) ev := ⟨hev.base, .refl _⟩
  have hself := hfits.similarOn (.refl _) (.refl _)
  have henv := hid.part hself
  obtain ⟨u, ev_u, hstrict, hrest⟩ := EvalM.exec_bind_eq_ok hrun
  -- The reference succeeds too, and then the evaluator does as the reference.
  obtain ⟨hlater, hdenotes⟩ := (h₀.follows fuel).of_evalStrict (ev₀.reference s).apply_succ
    (hev.setting_eq ▸ hite) (hev.setting_eq ▸ hnone)
    (fun p hp => henv p (List.mem_append_left rest hp)) hkeeper hside hstrict
  obtain ⟨w, ev_w, hconv, hlater', huw⟩ := hdenotes ev hside
  obtain ⟨-, hdenotes⟩ := ((h₀.follows fuel).applyTerms huw fun p hp =>
    (henv p (by simp [hp])).mono hlater.sources_le hlater'.sources_le).of_ok hlater.self
      hlater'.self hrest
  obtain ⟨w, ev_w, hconv', -, hvw⟩ := hdenotes _ hlater'.self
  obtain rfl := hvw.eq_of_isData _ hv
  -- No value on the way is given to the reference, so it evaluates the conditional first.
  have hlazy : Converges (fun n => ((ev₀.reference s).calls n).eval id env) ev (.ok w, ev_w) :=
    (coincide_reference hid hnone hgiven _ (by simp)).mpr (hconv.bind hconv')
  obtain ⟨k, hk⟩ := hlazy
  obtain ⟨-, hdenotes⟩ := ((h₀.followed k).eval hself).of_ok hside hkeeper (hk k le_rfl)
  obtain ⟨w, ev'', hconv'', -, hvw⟩ := hdenotes ev hkeeper
  obtain rfl := hvw.eq_of_isData _ hv
  exact ⟨ev'', hconv''⟩

/-- When the condition is known, a conditional comes to the same end as the branch that it
picks, whenever that is evaluated. -/
theorem sameEnd_branch (h₀ : Coherent s ev₀) (hev : (ev₀.reference s).Sound ev₀.view ev)
    (hid : s.AppliesConditional id ty c t e rest)
    (hnone : ev.overrides[Ident.prelude "ite"]? = none)
    (hfits : env.Fits s (ev.heap.sources ev₀.view) id)
    (hgiven : ∀ p, s.StartsConditional p ty c t e rest → ev₀.given.nodes p = none)
    (hrun : (Evaluator.eval s fuel c env).exec ev = (.ok (.bool b), ev₁))
    (hlit : BitLike.asLit? b = some known)
    (hlater : ((ev₀.reference s).keeper ev₀.view).Later ev ev') :
    SameEnd (fun n => Evaluator.eval s n id env) ev
      (fun n => evalApplied (Evaluator.calls s n) env (if known then t else e) rest) ev' := by
  have hkeeper : ((ev₀.reference s).keeper ev₀.view).At (ev.heap.sources ev₀.view) ev :=
    ⟨hev, .refl _⟩
  have hside : ev₀.side.At (ev.heap.sources ev₀.view) ev := ⟨hev.base, .refl _⟩
  have hself := hfits.similarOn (.refl _) (.refl _)
  have henv := hid.part hself
  obtain ⟨-, hdenotes⟩ :=
    ((h₀.follows fuel).eval (henv c (by simp))).of_ok hkeeper hside hrun
  obtain ⟨w, ev_w, hconv, hlater', hbw⟩ := hdenotes ev hside
  obtain rfl := hbw.eq_of_isAtom rfl
  -- The evaluator may have kept values on the way, so the two are compared in the reference,
  -- which is given none.
  have hpicked := (coincide_reference hid hnone hgiven).trans
    (coincide_branch rest hconv hlit)
  have happrox {n n' : Nat} (hle : n ≤ n') := (ev₀.reference s).approximate hle
  have hwhole := sameEnd_evalApplied h₀ hkeeper hside (List.forall_mem_singleton.mpr hself)
  have hparts : ∀ p ∈ (if known then t else e) :: rest, p ∈ ty :: c :: t :: e :: rest := by
    cases known <;> simp +contextual
  have hbranch := sameEnd_evalApplied h₀ (hlater.at hkeeper) (hlater'.at hside)
    fun p hp => henv p (hparts p hp)
  simp only [evalApplied_nil] at hwhole
  refine (hwhole.trans (hpicked.sameEnd ?_ ?_)).trans hbranch.symm
  · exact fun hle => (happrox hle).eval id env
  · exact fun hle => (happrox hle).evalApplied env _ rest

/-- So it does, in the same state, when none of the values on the way is kept. -/
theorem coincide_unshared (hid : s.AppliesConditional id ty c t e rest)
    (hnone : ev.overrides[Ident.prelude "ite"]? = none)
    (hshared : ∀ p, s.StartsConditional p ty c t e rest → ev.shared.contains p = false)
    (hrun : (Evaluator.eval s fuel c env).exec ev = (.ok (.bool b), ev₁))
    (hlit : BitLike.asLit? b = some known) :
    Coincide (fun n => Evaluator.eval s n id env) ev
      (fun n => evalApplied (Evaluator.calls s n) env (if known then t else e) rest) ev₁ := by
  have hcond : Converges (fun n => (Evaluator.calls s n).eval c env) ev (.ok (.bool b), ev₁) :=
    ⟨fuel, fun n hn => ((calls_approximate s hn).eval c env).exec_eq hrun nofun⟩
  have hwhole := coincide_conditional (calls_approximate s) hid hnone fun p hp n =>
    exec_eval_of_not_shared n env (hshared p hp)
  exact hwhole.trans (coincide_branch rest hcond hlit)

/-- When its value is kept but is not there yet, that of the branch is kept for it. -/
theorem coincide_kept (hid : s.AppliesConditional id ty c t e [])
    (hnone : ev.overrides[Ident.prelude "ite"]? = none)
    (hshared : ev.shared.contains id = true) (hmemo : ev.memo[id]? = none)
    (hrun : (Evaluator.eval s fuel c env).exec ev = (.ok (.bool b), ev₁))
    (hlit : BitLike.asLit? b = some known) :
    Coincide (fun n => Evaluator.eval s n id env) ev
      (fun n => do
        let v ← Evaluator.eval s n (if known then t else e) env
        modifyThe (Evaluator β) fun ev => { ev with memo := ev.memo.insert id v }
        return v) ev₁ := by
  refine (Coincide.of_succ fun n => rfl).trans (.of_eventually (k := fuel) fun n hn => ?_)
  have hcond := ((calls_approximate s hn).eval c env).exec_eq hrun nofun
  have hnode := (exec_evalNode_conditional hid hnone (Evaluator.calls s n)).trans
    (exec_evalConditional_picked hcond hlit)
  rw [Evaluator.eval, evalStep, EvalM.exec_bind_ok (EvalM.exec_get _), if_pos hshared, hmemo]
  exact EvalM.exec_bind_congr hnode _

end Conditional

/-- Two conditionals between functions on booleans that are applied.  One has a variable for its
condition.  The other has a known condition and, for the branch that is not picked, a variable
without a value. -/
def lazyNodes : List (Node TermId) :=
  [.global (.prelude "ite"), .global (.prelude "Bool"), .pi "_" 1 1, .free "x" 1, .bound 0,
    .lam "y" 1 4, .bool false, .lam "y" 1 6, .bool true, .app 0 2, .app 9 3, .app 10 5, .app 11 7,
    .app 12 8, .free "f" 2, .app 9 8, .app 15 5, .app 16 14, .app 17 8]

def lazyStore : Store :=
  Store.ofNodes lazyNodes

set_option maxRecDepth 4000 in
theorem lazyStore_node (id : TermId) : lazyStore.node id = lazyNodes.getD id .unit := by
  have hnodes : lazyStore.nodes = lazyNodes.toArray := by rfl
  rw [Store.node, hnodes, Array.getD_eq_getD_getElem?, List.getElem?_toArray,
    List.getD_eq_getElem?_getD]

theorem lazyStore_appliesConditional : lazyStore.AppliesConditional 13 2 3 5 7 [8] ∧
    lazyStore.AppliesConditional 18 2 8 5 14 [8] := by
  have hite : lazyStore.spine 0 = (0, []) :=
    Store.spine_of_not_app fun f a h => by rw [lazyStore_node] at h; cases h
  have htyped : lazyStore.spine 9 = (0, [2]) := by
    rw [Store.spine_app (lazyStore_node 9), hite]
    rfl
  have hhead : lazyStore.asGlobal? 0 = some (.prelude "ite") := by
    rw [Store.asGlobal?, lazyStore_node]
    rfl
  refine ⟨⟨0, ?_, hhead⟩, ⟨0, ?_, hhead⟩⟩
  · rw [Store.spine_app (lazyStore_node 13), Store.spine_app (lazyStore_node 12),
      Store.spine_app (lazyStore_node 11), Store.spine_app (lazyStore_node 10), htyped]
    rfl
  · rw [Store.spine_app (lazyStore_node 18), Store.spine_app (lazyStore_node 17),
      Store.spine_app (lazyStore_node 16), Store.spine_app (lazyStore_node 15), htyped]
    rfl

/-- An evaluator that knows the first variable, but not the second. -/
def lazyStart : Evaluator Anf :=
  .configured ⟨Evaluator.defaultPrimitives, ∅, (∅ : Std.HashMap _ _).insert 3 (.bool (.var 0))⟩

theorem coherent_lazyStart : Coherent lazyStore lazyStart := by
  refine coherent_configured _ (fun i p fn hp hfn => ?_) (by simp) (fun id v hv => ?_)
  · obtain ⟨op, hop⟩ := builtin_of_defaultPrimitives i p hp
    rw [hop] at hfn
    cases hfn
  · rw [Std.HashMap.getElem?_insert] at hv
    split at hv
    · cases hv
      rfl
    · simp at hv

section

variable (fuel : Nat) (env : Env Anf)

theorem not_shared_lazyStart (id : TermId) : lazyStart.shared.contains id = false := by
  simp [lazyStart, Evaluator.configured, Evaluator.new]

theorem exec_eval_lazyStart (id : TermId) :
    (Evaluator.eval lazyStore (fuel + 1) id env).exec lazyStart =
      (evalNode lazyStore (Evaluator.calls lazyStore fuel) id env).exec lazyStart :=
  exec_eval_of_not_shared fuel env (not_shared_lazyStart id)

theorem exec_true_lazyStart :
    ((Evaluator.calls lazyStore (fuel + 1)).eval 8 env).exec lazyStart =
      (.ok (.bool .one), lazyStart) := by
  refine (exec_eval_lazyStart fuel env 8).trans ?_
  rw [evalNode, lazyStore_node]
  rfl

theorem exec_free_lazyStart {id ty : TermId} {x : String}
    (hnode : lazyStore.node id = .free x ty) :
    ((Evaluator.calls lazyStore (fuel + 1)).eval id env).exec lazyStart =
      match lazyStart.freeValues[id]? with
      | some v => (.ok v, lazyStart)
      | none => (.error (.fault (.unboundVariable x)), lazyStart) := by
  refine (exec_eval_lazyStart fuel env id).trans ?_
  rw [evalNode, hnode]
  dsimp only
  rw [EvalM.exec_bind_ok (EvalM.exec_get _)]
  cases lazyStart.freeValues[id]? <;> rfl

theorem exec_lam_lazyStart {id ty body : TermId} {x : String}
    (hnode : lazyStore.node id = .lam x ty body) :
    ((Evaluator.calls lazyStore (fuel + 1)).eval id env).exec lazyStart =
      (.ok (.closure id env), lazyStart) := by
  refine (exec_eval_lazyStart fuel env id).trans ?_
  rw [evalNode, hnode]
  rfl

theorem exec_apply_lazyStart {id ty body : TermId} {x : String} (arg : Value Anf)
    (hnode : lazyStore.node id = .lam x ty body) :
    ((Evaluator.calls lazyStore (fuel + 2)).apply (.closure id env) arg).exec lazyStart =
      (evalNode lazyStore (Evaluator.calls lazyStore fuel) body (arg :: env)).exec lazyStart := by
  rw [calls_apply_succ, applyStep, hnode]
  exact exec_eval_lazyStart fuel (arg :: env) body

/-- The first function gives its argument, and the second one is never true. -/
theorem exec_identity_lazyStart (arg : Value Anf) :
    ((Evaluator.calls lazyStore (fuel + 2)).apply (.closure 5 env) arg).exec lazyStart =
      (.ok arg, lazyStart) := by
  rw [exec_apply_lazyStart fuel env arg (lazyStore_node 5), evalNode, lazyStore_node]
  rfl

theorem exec_never_lazyStart (arg : Value Anf) :
    ((Evaluator.calls lazyStore (fuel + 2)).apply (.closure 7 env) arg).exec lazyStart =
      (.ok (.bool .zero), lazyStart) := by
  rw [exec_apply_lazyStart fuel env arg (lazyStore_node 7), evalNode, lazyStore_node]
  rfl

end

end TermGraph
