import Mathlib
import TermGraph.Proofs.Eval.Primitives

/-!
# Terms in similar environments

What a node evaluates to depends on its environment at the free indices of the node only.
Constants are left out here: whether the value of a body is kept is what evaluators differ
in.
-/

namespace TermGraph

open Value (Similar SimilarOn)

variable {β : Type}

/-- The primitives of the Prelude with values of globals and free variables that hold no
functions and no streams. -/
structure Setting.Plain (c : Setting β) : Prop where
  builtin : ∀ (i : Ident) p, c.primitives[i]? = some p → ∃ op, p.implementation = .builtin op
  overrides : ∀ (i : Ident) v, c.overrides[i]? = some v → v.isData = true
  freeValues : ∀ (id : TermId) v, c.freeValues[id]? = some v → v.isData = true

/-- A function from outside that does not tell similar values apart: on similar arguments it
fails with the same error or gives similar results. -/
def RespectsSimilar (s : Store) (fn : List (Value β) → Except EvalError (Value β)) : Prop :=
  ∀ ⦃σ τ : Sources β⦄ ⦃args args' : List (Value β)⦄, List.Forall₂ (Similar s σ τ) args args' →
    (∀ e, fn args = .error e → fn args' = .error e) ∧
      ∀ v, fn args = .ok v → ∃ w, fn args' = .ok w ∧ Similar s σ τ v w

/-- Streams that are kept from before have sources that are alike for two sides. -/
inductive SourcesAlike (s : Store) (σ τ : Sources β) :
    Option (StreamSource β) → Option (StreamSource β) → Prop where
  | missing : SourcesAlike s σ τ none none
  | generator {f g : Value β} (fn : Similar s σ τ f g) :
      SourcesAlike s σ τ (some (.generator f)) (some (.generator g))
  | mux {c : β} {a b a' b' : StreamId} (left : Similar s σ τ (.stream a) (.stream a'))
      (right : Similar s σ τ (.stream b) (.stream b')) :
      SourcesAlike s σ τ (some (.mux c a b)) (some (.mux c a' b'))

theorem SourcesAlike.symm {s : Store} {σ τ : Sources β} {src src' : Option (StreamSource β)}
    (h : SourcesAlike s σ τ src src') : SourcesAlike s τ σ src' src := by
  cases h with
  | missing => exact .missing
  | generator fn => exact .generator fn.symm
  | mux left right => exact .mux left.symm right.symm

/-- What evaluation reads and never changes is alike for two sides. -/
structure Setting.Alike (c : Setting β) (s : Store) (S T : Side c) : Prop where
  host : ∀ (i : Ident) p fn, c.primitives[i]? = some p → p.implementation = .host fn →
    RespectsSimilar s fn
  overrides : ∀ (i : Ident) v, c.overrides[i]? = some v → ∀ ev ev', S.Holds ev → T.Holds ev' →
    Similar s (S.sources ev) (T.sources ev') v v
  freeValues : ∀ (id : TermId) v, c.freeValues[id]? = some v → ∀ ev ev', S.Holds ev →
    T.Holds ev' → Similar s (S.sources ev) (T.sources ev') v v
  kept : ∀ i ev ev', S.Holds ev → T.Holds ev' → (S.sources ev).kept i → (T.sources ev').kept i →
    SourcesAlike s (S.sources ev) (T.sources ev') (ev.heap.source? i) (ev'.heap.source? i)

theorem Setting.Alike.symm {c : Setting β} {s : Store} {S T : Side c} (h : c.Alike s S T) :
    c.Alike s T S :=
  ⟨h.host, fun i v hv ev ev' hev hev' => (h.overrides i v hv ev' ev hev' hev).symm,
    fun id v hv ev ev' hev hev' => (h.freeValues id v hv ev' ev hev' hev).symm,
    fun i ev ev' hev hev' hi hi' => (h.kept i ev' ev hev' hev hi' hi).symm⟩

/-- A plain setting is alike for two sides of which one keeps no streams from before. -/
theorem Setting.Plain.alike {c : Setting β} (hc : c.Plain) (s : Store) (S : Side c) {T : Side c}
    (hT : ¬ T.view.keeps) : c.Alike s S T where
  host i p fn hp hfn := by
    obtain ⟨op, hop⟩ := hc.builtin i p hp
    rw [hop] at hfn
    cases hfn
  overrides i v hv _ _ _ _ := Value.similar_self_of_isData v (hc.overrides i v hv)
  freeValues id v hv _ _ _ _ := Value.similar_self_of_isData v (hc.freeValues id v hv)
  kept _ _ _ _ _ _ hi := absurd hi.1 hT

section Elements

variable [BitLike β] [DecidableEq β]

/-- The element of a stream at an index, from the source of the stream. -/
def sourceElement (calls : Calls β) (id : StreamId) (n : Nat) : EvalM β (Value β) := do
  match (← getThe (Evaluator β)).heap.source? id with
  | some (.generator fn) => calls.apply fn (.nat n)
  | some (.mux c t e) => do
      let t ← calls.element t n
      let e ← calls.element e n
      EvalM.ofMerge (Value.mux c t e)
  | none => EvalM.fail (.notAFunction .stream)

/-- An element that is not remembered comes from the source. -/
theorem elementStep_eq (calls : Calls β) (id : StreamId) (n : Nat) :
    elementStep calls id n = (do
      match (← getThe (Evaluator β)).heap.element? id n with
      | some v => return v
      | none =>
          let v ← sourceElement calls id n
          modifyThe (Evaluator β) fun ev => { ev with heap := ev.heap.remember id n v }
          return v) := by
  refine EvalM.ext fun ev => ?_
  unfold elementStep sourceElement
  rw [EvalM.exec_bind_ok (EvalM.exec_get ev), EvalM.exec_bind_ok (EvalM.exec_get ev)]
  dsimp only
  cases ev.heap.element? id n with
  | some v => rfl
  | none =>
      dsimp only
      rw [bind_assoc, EvalM.exec_bind_ok (EvalM.exec_get ev)]
      rcases ev.heap.source? id with _ | _ | _
      · rfl
      · rfl
      · simp only [bind_assoc]

end Elements

namespace CallsFollow

variable [BitLike β] [DecidableEq β] {c : Setting β} {s : Store} {S T : Side c}
  {calls : Calls β} {calls' : Nat → Calls β} {σ τ : Sources β}

theorem callPrimitive (h : CallsFollow s S T calls calls') (hc : c.Alike s S T) (prim : Ident)
    {args args' : List (Value β)} (hargs : List.Forall₂ (Similar s σ τ) args args') :
    Follows S T σ τ (TermGraph.callPrimitive calls prim args)
      (fun n => TermGraph.callPrimitive (calls' n) prim args') (Similar s) := by
  refine .ask fun ev ev' hev hev' => ?_
  rw [hev.primitives_eq, hev'.primitives_eq]
  cases hp : c.primitives[prim]? with
  | none => exact .fail _
  | some p =>
      simp only [hargs.length_eq]
      split
      · exact value (Value.similar_partialApp hargs)
      · cases himpl : p.implementation with
        | builtin op => exact h.run op hargs
        | host fn =>
            obtain ⟨herror, hok⟩ := hc.host prim p fn hp himpl hargs
            refine .counted (.ofExcept herror fun v hv => ?_)
            obtain ⟨w, hw, hvw⟩ := hok v hv
            exact ⟨w, hw, fun _ _ hσ hτ => hvw.mono hσ hτ⟩

theorem evalGlobal (h : CallsFollow s S T calls calls') (hc : c.Alike s S T) (ident : Ident) :
    Follows S T σ τ (TermGraph.evalGlobal calls ident)
      (fun n => TermGraph.evalGlobal (calls' n) ident) (Similar s) := by
  refine .ask fun ev ev' hev hev' => ?_
  rw [hev.overrides_eq, hev'.overrides_eq]
  cases hv : c.overrides[ident]? with
  | none => exact h.callPrimitive hc ident .nil
  | some v =>
      exact .pureAt fun ev ev' hev hev' => hc.overrides ident v hv ev ev' hev.holds hev'.holds

theorem applyArgs (h : CallsFollow s S T calls calls') {fn fn' : Value β}
    {args args' : List (Value β)} (hfn : Similar s σ τ fn fn')
    (hargs : List.Forall₂ (Similar s σ τ) args args') :
    Follows S T σ τ (TermGraph.applyArgs calls fn args)
      (fun n => TermGraph.applyArgs (calls' n) fn' args') (Similar s) := by
  induction args generalizing args' fn fn' σ τ with
  | nil =>
      cases hargs
      exact value hfn
  | cons a args ih =>
      cases hargs with
      | cons ha hrest =>
          simp only [TermGraph.applyArgs, List.foldlM_cons]
          refine .bind (h.apply hfn ha) fun σ₁ τ₁ v v' hσ hτ hv => ?_
          exact ih hv (hrest.imp fun _ _ h => h.mono hσ hτ)

omit [BitLike β] [DecidableEq β] in
/-- Environments that are similar for a node are similar for a part under no binder. -/
theorem part {id p : TermId} {env env' : Env β}
    (henv : SimilarOn s σ τ (s.looseVars id) env env')
    (hp : (p, 0) ∈ (s.node id).childrenWithDepth) : SimilarOn s σ τ (s.looseVars p) env env' :=
  henv.within (.of_part hp) .nil rfl

theorem evalConditional (h : CallsFollow s S T calls calls') (hc : c.Alike s S T)
    {ty cond t e : TermId} {env env' : Env β}
    (hty : SimilarOn s σ τ (s.looseVars ty) env env')
    (hcond : SimilarOn s σ τ (s.looseVars cond) env env')
    (ht : SimilarOn s σ τ (s.looseVars t) env env')
    (he : SimilarOn s σ τ (s.looseVars e) env env') :
    Follows S T σ τ (TermGraph.evalConditional calls env ty cond t e)
      (fun n => TermGraph.evalConditional (calls' n) env' ty cond t e) (Similar s) := by
  refine .bind (h.eval hcond) fun σ₁ τ₁ v v' hσ hτ hv => ?_
  rw [hv.asBit?_eq]
  cases v'.asBit?.bind BitLike.asLit? with
  | some b =>
      cases b
      · exact h.eval (he.mono hσ hτ)
      · exact h.eval (ht.mono hσ hτ)
  | none =>
      refine .bind (h.evalGlobal hc _) fun σ₂ τ₂ ite ite' hσ₂ hτ₂ hite => ?_
      replace hty := (hty.mono hσ hτ).mono hσ₂ hτ₂
      replace ht := (ht.mono hσ hτ).mono hσ₂ hτ₂
      replace he := (he.mono hσ hτ).mono hσ₂ hτ₂
      replace hv := hv.mono hσ₂ hτ₂
      refine .bind (h.eval hty) fun σ₃ τ₃ vty vty' hσ₃ hτ₃ hvty => ?_
      replace ht := ht.mono hσ₃ hτ₃
      replace he := he.mono hσ₃ hτ₃
      replace hv := hv.mono hσ₃ hτ₃
      replace hite := hite.mono hσ₃ hτ₃
      refine .bind (h.eval ht) fun σ₄ τ₄ vt vt' hσ₄ hτ₄ hvt => ?_
      refine .bind (h.eval (he.mono hσ₄ hτ₄)) fun σ₅ τ₅ ve ve' hσ₅ hτ₅ hve => ?_
      have hσ := hσ₄.trans hσ₅
      have hτ := hτ₄.trans hτ₅
      exact h.applyArgs (hite.mono hσ hτ)
        (.cons (hvty.mono hσ hτ) (.cons (hv.mono hσ hτ) (.cons (hvt.mono hσ₅ hτ₅)
          (.cons hve .nil))))

omit [BitLike β] [DecidableEq β] in
/-- The arguments that a spine collects stand in its term under no binder. -/
theorem part_of_spine {id head : TermId} {args : List TermId} {env env' : Env β}
    (hspine : s.spine id = (head, args)) (henv : SimilarOn s σ τ (s.looseVars id) env env') :
    ∀ p ∈ args, SimilarOn s σ τ (s.looseVars p) env env' := by
  intro p hp
  have hmem : p ∈ (s.spineOnto (fun _ => false) id []).2 := by
    rw [show s.spineOnto (fun _ => false) id [] = (head, args) from hspine]
    exact hp
  obtain hnil | hwithin := (Store.within_spineOnto (fun _ => false) id []).2 p hmem
  · cases hnil
  · exact henv.within hwithin .nil rfl

omit [BitLike β] [DecidableEq β] in
/-- So do those of a conditional. -/
theorem part_of_conditional {id ty cond t e : TermId} {env env' : Env β}
    (hargs : conditionalArgs? s id = some (ty, cond, t, e))
    (henv : SimilarOn s σ τ (s.looseVars id) env env') :
    ∀ p ∈ [ty, cond, t, e], SimilarOn s σ τ (s.looseVars p) env env' := by
  unfold conditionalArgs? at hargs
  split at hargs
  case h_2 => cases hargs
  case h_1 head ty' cond' t' e' hspine =>
    split at hargs
    · obtain ⟨rfl, rfl, rfl, rfl⟩ : ty' = ty ∧ cond' = cond ∧ t' = t ∧ e' = e := by
        simpa using hargs
      exact part_of_spine hspine henv
    · cases hargs

theorem evalApp (h : CallsFollow s S T calls calls') (hc : c.Alike s S T) {id fn arg : TermId}
    {env env' : Env β} (hnode : s.node id = .app fn arg)
    (henv : SimilarOn s σ τ (s.looseVars id) env env') :
    Follows S T σ τ (TermGraph.evalApp s calls id fn arg env)
      (fun n => TermGraph.evalApp s (calls' n) id fn arg env') (Similar s) := by
  have hstrict : Follows S T σ τ
      (do let v ← calls.eval fn env; let w ← calls.eval arg env; calls.apply v w)
      (fun n => do
        let v ← (calls' n).eval fn env'; let w ← (calls' n).eval arg env'; (calls' n).apply v w)
      (Similar s) := by
    have hfn := part (p := fn) henv (by simp [hnode, Node.childrenWithDepth])
    have harg := part (p := arg) henv (by simp [hnode, Node.childrenWithDepth])
    refine .bind (h.eval hfn) fun σ₁ τ₁ v v' hσ hτ hv => ?_
    refine .bind (h.eval (harg.mono hσ hτ)) fun σ₂ τ₂ w w' hσ₂ hτ₂ hw => ?_
    exact h.apply (hv.mono hσ₂ hτ₂) hw
  unfold TermGraph.evalApp
  cases hargs : conditionalArgs? s id with
  | none => exact hstrict
  | some args =>
      obtain ⟨ty, cond, t, e⟩ := args
      have hparts := part_of_conditional hargs henv
      refine .ask fun ev ev' hev hev' => ?_
      rw [hev.overrides_eq, hev'.overrides_eq]
      split
      · exact hstrict
      · exact h.evalConditional hc (hparts ty (by simp)) (hparts cond (by simp))
          (hparts t (by simp)) (hparts e (by simp))

omit [BitLike β] [DecidableEq β] in
theorem projection (op : String) {part : Value β × Value β → Value β} {v w : Value β}
    (hpart : ∀ {σ τ : Sources β} {a b a' b' : Value β}, Similar s σ τ a a' → Similar s σ τ b b' →
      Similar s σ τ (part (a, b)) (part (a', b')))
    (h : Similar s σ τ v w) :
    Follows S T σ τ (EvalM.ofExcept (evalProjection op part v))
      (fun _ => EvalM.ofExcept (evalProjection op part w)) (Similar s) := by
  cases v with
  | pair a b =>
      obtain ⟨a', b', rfl, ha, hb⟩ := h.of_pair
      exact value (hpart ha hb)
  | _ =>
      have hkind := h.kind_eq
      cases w <;> first | exact .fail _ | cases hkind

omit [BitLike β] [DecidableEq β] in
theorem field (x : String) {v w : Value β} (h : Similar s σ τ v w) :
    Follows S T σ τ (EvalM.ofExcept (evalField x v))
      (fun _ => EvalM.ofExcept (evalField x w)) (Similar s) := by
  cases v with
  | record fs =>
      obtain ⟨gs, rfl, hfg⟩ := h.of_record
      simp only [evalField]
      obtain ⟨hf, hg⟩ | ⟨f, g, hf, hg, hab⟩ := Value.find?_fields hfg x <;> rw [hf, hg]
      · exact .fail _
      · exact value hab
  | _ =>
      have hkind := h.kind_eq
      cases w <;> first | exact .fail _ | cases hkind

/-- The terms of a list, each in the same similar environments. -/
theorem evalAll (h : CallsFollow s S T calls calls') {ids : List TermId} {env env' : Env β}
    (henv : ∀ p ∈ ids, SimilarOn s σ τ (s.looseVars p) env env') :
    Follows S T σ τ (ids.mapM fun p => calls.eval p env)
      (fun n => ids.mapM fun p => (calls' n).eval p env')
      fun σ τ => List.Forall₂ (Similar s σ τ) := by
  refine .mapM (P := fun p q => p = q ∧ p ∈ ids) (R := Similar s) (Value.persistent_similar s)
    (List.forall₂_same.mpr fun p hp => ⟨rfl, hp⟩) ?_
  rintro p _ ⟨rfl, hp⟩
  exact h.eval (henv p hp)

omit [BitLike β] [DecidableEq β] in
theorem arrayValue (elemType : TermId) {vs ws : List (Value β)}
    (h : List.Forall₂ (Similar s σ τ) vs ws) :
    Similar s σ τ (TermGraph.arrayValue s elemType vs) (TermGraph.arrayValue s elemType ws) := by
  have hempty : vs.isEmpty = ws.isEmpty := by cases h <;> rfl
  unfold TermGraph.arrayValue
  rw [hempty]
  split
  · exact .atom rfl
  · exact Value.similar_ofElems h

/-- A node that is no constant does alike in environments that are similar at its free
indices. -/
theorem evalNode (h : CallsFollow s S T calls calls') (hc : c.Alike s S T) {id : TermId}
    {env env' : Env β} (hconst : ∀ ident ty body, s.node id ≠ .constant ident ty body)
    (henv : SimilarOn s σ τ (s.looseVars id) env env') :
    Follows S T σ τ (TermGraph.evalNode s calls id env)
      (fun n => TermGraph.evalNode s (calls' n) id env') (Similar s) := by
  unfold TermGraph.evalNode
  have hpart (p : TermId) (hp : (p, 0) ∈ (s.node id).childrenWithDepth) :
      SimilarOn s σ τ (s.looseVars p) env env' := part henv hp
  cases hnode : s.node id with
  | constant ident ty body => exact absurd hnode (hconst ident ty body)
  | global ident => exact h.evalGlobal hc ident
  | free x ty =>
      refine .ask fun ev ev' hev hev' => ?_
      rw [hev.freeValues_eq, hev'.freeValues_eq]
      cases hv : c.freeValues[id]? with
      | none => exact .fail _
      | some v =>
          exact .pureAt fun ev ev' hev hev' => hc.freeValues id v hv ev ev' hev.holds hev'.holds
  | bound i =>
      obtain ⟨hn, hn'⟩ | ⟨a, b, ha, hb, hab⟩ :=
        henv i (by rw [Store.looseVars_of_node_bound hnode]; exact List.mem_singleton_self i)
      · simp only [hn, hn']
        exact .fail _
      · simp only [ha, hb]
        exact value hab
  | sort _ _ | unitType | pairType _ _ | recordType _ | data _ _ _ | pi _ _ _ | nat _ | string _
  | bool _ | unit => exact value (.atom rfl)
  | app fn arg => exact h.evalApp hc hnode henv
  | pair a b =>
      rw [hnode] at hpart
      refine .bind (h.eval (hpart a (by simp [Node.childrenWithDepth]))) ?_
      intro σ₁ τ₁ v v' hσ hτ hv
      refine .bind (h.eval ((hpart b (by simp [Node.childrenWithDepth])).mono hσ hτ)) ?_
      intro σ₂ τ₂ w w' hσ₂ hτ₂ hw
      exact value (.pair (hv.mono hσ₂ hτ₂) hw)
  | pairLeft p =>
      rw [hnode] at hpart
      refine .bind (h.eval (hpart p (by simp [Node.childrenWithDepth]))) ?_
      exact fun σ₁ τ₁ v v' _ _ hv => projection _ (fun ha _ => ha) hv
  | pairRight p =>
      rw [hnode] at hpart
      refine .bind (h.eval (hpart p (by simp [Node.childrenWithDepth]))) ?_
      exact fun σ₁ τ₁ v v' _ _ hv => projection _ (fun _ hb => hb) hv
  | record fields =>
      rw [hnode] at hpart
      refine .bind (.mapM (P := fun p q => p = q ∧ p ∈ fields)
        (R := fun σ τ (f g : String × Value β) => f.1 = g.1 ∧ Similar s σ τ f.2 g.2)
        (fun _ _ _ _ _ _ hσ hτ h => ⟨h.1, h.2.mono hσ hτ⟩)
        (List.forall₂_same.mpr fun p hp => ⟨rfl, hp⟩) ?_) ?_
      · rintro p _ ⟨rfl, hp⟩
        refine .bind (h.eval (hpart p.2 ?_)) fun σ₁ τ₁ v v' _ _ hv => ?_
        · simpa [Node.childrenWithDepth] using ⟨p.1, hp⟩
        · exact .pure fun _ _ hσ hτ => ⟨rfl, hv.mono hσ hτ⟩
      · exact fun σ₁ τ₁ fs gs _ _ hfg => value (Value.similar_ofFields hfg)
  | proj r x =>
      rw [hnode] at hpart
      refine .bind (h.eval (hpart r (by simp [Node.childrenWithDepth]))) ?_
      exact fun σ₁ τ₁ v v' _ _ hv => field x hv
  | array elemType elems =>
      rw [hnode] at hpart
      refine .bind (h.evalAll fun p hp => hpart p ?_) ?_
      · simp [Node.childrenWithDepth, hp]
      · exact fun σ₁ τ₁ vs ws _ _ hvs => value (arrayValue elemType hvs)
  | ctor ident params args =>
      rw [hnode] at hpart
      refine .bind (h.evalAll fun p hp => hpart p ?_) ?_
      · simp [Node.childrenWithDepth, hp]
      · exact fun σ₁ τ₁ vs ws _ _ hvs => value (Value.similar_ctor hvs)
  | lam x ty body => exact value (Value.similar_closure henv)
  | letIn x ty v body =>
      rw [hnode] at hpart
      refine .bind (h.eval (hpart v (by simp [Node.childrenWithDepth]))) ?_
      intro σ₁ τ₁ w w' hσ hτ hw
      have hbody : s.Within id 1 body := .of_part (by simp [hnode, Node.childrenWithDepth])
      exact h.eval ((henv.mono hσ hτ).within hbody (.cons hw .nil) rfl)
  | recursor _ _ _ _ _ | fix _ _ _ => exact .fail _

/-! ## Function values -/

/-- Similar functions give similar results, when the calls of the right side apply functions
by the same rule. -/
theorem applyStep (h : CallsFollow s S T calls calls') (hc : c.Alike s S T)
    (hstep : ∀ n fn arg, (calls' (n + 1)).apply fn arg = TermGraph.applyStep s (calls' n) fn arg)
    {fn fn' arg arg' : Value β} (hfn : Similar s σ τ fn fn') (harg : Similar s σ τ arg arg') :
    Follows S T σ τ (TermGraph.applyStep s calls fn arg)
      (fun n => (calls' n).apply fn' arg') (Similar s) := by
  -- A function merged on the right only is met with the same call on the left again.
  induction hfn with
  | @atom v hv =>
      refine .of_succ ?_
      simp only [hstep]
      cases v <;> first | exact .fail _ | exact value (.atom rfl) | cases hv
  | vector _ _ _ | pair _ _ _ _ | record _ _ _ | ctor _ _ _ | stream _ _ _ _
  | streamMux _ _ _ _ _ _ | streamLeft _ _ _ _ _ | streamRight _ _ _ _ _ | streamKept _ _ =>
      refine .of_succ ?_
      simp only [hstep]
      exact .fail _
  | @closure lambda env env' bound elems _ =>
      refine .of_succ ?_
      simp only [hstep, TermGraph.applyStep]
      cases hnode : s.node lambda with
      | lam x ty body =>
          have hbody : s.Within lambda 1 body :=
            .of_part (by simp [hnode, Node.childrenWithDepth])
          have henv := Value.similarOn_iff.mpr ⟨bound, elems⟩
          exact h.eval (henv.within hbody (.cons harg .nil) rfl)
      | _ => exact .fail _
  | partialApp length elems _ =>
      refine .of_succ ?_
      simp only [hstep, TermGraph.applyStep]
      refine h.callPrimitive hc _ (List.rel_append ?_ (.cons harg .nil))
      exact Value.forall₂_iff_getElem?.mpr ⟨length, elems⟩
  | funMux left right _ _ =>
      refine .of_succ ?_
      simp only [hstep, TermGraph.applyStep]
      refine .bind (h.apply left harg) fun σ₁ τ₁ v v' hσ hτ hv => ?_
      refine .bind (h.apply (right.mono hσ hτ) (harg.mono hσ hτ)) fun σ₂ τ₂ w w' hσ₂ hτ₂ hw => ?_
      exact .ofMerge ((hv.mono hσ₂ hτ₂).mux hw)
  | mergedLeft _ left right _ _ =>
      simp only [TermGraph.applyStep]
      refine .join (h.apply left harg) (h.apply right harg) (Value.persistent_similar s) ?_
      exact fun σ₁ τ₁ a b a' ha hb => .ofMergeLeft (ha.mux_left hb)
  | mergedRight _ _ _ ihl ihr =>
      refine .of_succ ?_
      simp only [hstep]
      refine .fork ihl ihr (Value.persistent_similar s) ?_
      exact fun σ₁ τ₁ a a' b' ha hb => .ofMergeRight (ha.mux_right hb)

/-! ## Stream elements -/

/-- The merge of the elements of two streams. -/
theorem muxedElement (h : CallsFollow s S T calls calls') {cond : β} {a b a' b' : StreamId}
    (n : Nat) (left : Similar s σ τ (.stream a) (.stream a'))
    (right : Similar s σ τ (.stream b) (.stream b')) :
    Follows S T σ τ
      (do
        let t ← calls.element a n
        let e ← calls.element b n
        EvalM.ofMerge (Value.mux cond t e))
      (fun k => do
        let t ← (calls' k).element a' n
        let e ← (calls' k).element b' n
        EvalM.ofMerge (Value.mux cond t e)) (Similar s) := by
  refine .bind (h.element n left) fun σ₁ τ₁ v v' hσ hτ hv => ?_
  refine .bind (h.element n (right.mono hσ hτ)) fun σ₂ τ₂ w w' hσ₂ hτ₂ hw => ?_
  exact .ofMerge ((hv.mono hσ₂ hτ₂).mux hw)

/-- A stream that is kept from before gives similar elements on both sides. -/
theorem sourceElement_of_kept (h : CallsFollow s S T calls calls') (hc : c.Alike s S T)
    {i : StreamId} (n : Nat) (hi : σ.kept i) (hi' : τ.kept i) :
    Follows S T σ τ (TermGraph.sourceElement calls i n)
      (fun k => TermGraph.sourceElement (calls' k) i n) (Similar s) := by
  refine .askAt fun ev hev => .askRightAt fun ev' hev' => ?_
  have halike := hc.kept i ev ev' hev.holds hev'.holds (hev.sources_le.kept i hi)
    (hev'.sources_le.kept i hi')
  generalize ev.heap.source? i = src, ev'.heap.source? i = src' at halike
  cases halike with
  | missing => exact .fail _
  | generator fn => exact h.apply fn (.atom rfl)
  | mux left right => exact h.muxedElement n left right

/-- So does every stream whose parts are there on both sides. -/
theorem sourceElement_of_fits (h : CallsFollow s S T calls calls') (hc : c.Alike s S T)
    {υ : Sources β} {i : StreamId} (n : Nat) (hi : Value.Fits s υ (.stream i)) (hσ : υ.Le σ)
    (hτ : υ.Le τ) :
    Follows S T σ τ (TermGraph.sourceElement calls i n)
      (fun k => TermGraph.sourceElement (calls' k) i n) (Similar s) := by
  cases hi with
  | atom hi => cases hi
  | streamKept hi => exact h.sourceElement_of_kept hc n (hσ.kept i hi) (hτ.kept i hi)
  | stream hi fn =>
      refine .ask fun ev ev' hev hev' => ?_
      rw [hev.source? (hσ.source i _ hi), hev'.source? (hτ.source i _ hi)]
      exact h.apply (similar_of_fits_both fn hσ hτ) (.atom rfl)
  | streamMux hi left right =>
      refine .ask fun ev ev' hev hev' => ?_
      rw [hev.source? (hσ.source i _ hi), hev'.source? (hτ.source i _ hi)]
      exact h.muxedElement n (similar_of_fits_both left hσ hτ) (similar_of_fits_both right hσ hτ)

/-- A similar stream gives similar elements, when the calls of the right side give what its
source gives. -/
theorem sourceElement (h : CallsFollow s S T calls calls') (hc : c.Alike s S T)
    {i j : StreamId} (n : Nat)
    (hrule : ∀ j, (i = j ∨ ∃ src, τ j = some src) → Similar s σ τ (.stream i) (.stream j) →
      Follows S T σ τ (TermGraph.sourceElement calls i n)
        (fun k => TermGraph.sourceElement (calls' k) j n) (Similar s) →
      Follows S T σ τ (TermGraph.sourceElement calls i n)
        (fun k => (calls' k).element j n) (Similar s))
    (hij : Similar s σ τ (.stream i) (.stream j)) :
    Follows S T σ τ (TermGraph.sourceElement calls i n) (fun k => (calls' k).element j n)
      (Similar s) := by
  induction hij using Similar.stream_induction with
  | generator hi hj fn =>
      refine hrule _ (.inr ⟨_, hj⟩) (.stream hi hj fn) (.ask fun ev ev' hev hev' => ?_)
      rw [hev.source? hi, hev'.source? hj]
      exact h.apply fn (.atom rfl)
  | mux hi hj left right =>
      refine hrule _ (.inr ⟨_, hj⟩) (.streamMux hi hj left right) (.ask fun ev ev' hev hev' => ?_)
      rw [hev.source? hi, hev'.source? hj]
      exact h.muxedElement n left right
  | muxLeft hi left right =>
      refine .askLeft fun ev hev => ?_
      rw [hev.source? hi]
      refine .join (h.element n left) (h.element n right) (Value.persistent_similar s) ?_
      exact fun σ₁ τ₁ a b a' ha hb => .ofMergeLeft (ha.mux_left hb)
  | muxRight hj left right ihl ihr =>
      refine hrule _ (.inr ⟨_, hj⟩) (.streamRight hj left right) (.askRight fun ev' hev' => ?_)
      rw [hev'.source? hj]
      refine .fork (ihl hrule) (ihr hrule) (Value.persistent_similar s) ?_
      exact fun σ₁ τ₁ a a' b' ha hb => .ofMergeRight (ha.mux_right hb)
  | kept hi hj => exact hrule _ (.inl rfl) (.streamKept hi hj) (h.sourceElement_of_kept hc n hi hj)

end CallsFollow

end TermGraph
