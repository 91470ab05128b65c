import Mathlib
import TermGraph.Proofs.Translate.Distinct
import TermGraph.Proofs.Translate.Guarded

/-!
# Translations that are run again

What is emitted for a term does not depend on the names around it.  From one emission, runs
in two scopes at the same place come to the same emission, and they succeed both or fail
both.  This still holds if one run enters parameters, each of them named, and the other one
enters the binders of a function type, some of which have no name.

A run that has succeeded succeeds again later on.  By then all constants that it refers to
have been dealt with, so it emits nothing the second time, and gives the same value.
-/

namespace TermGraph

open Target Store

/-! ## Other names around a place -/

section Names

variable {cfg : Config} {s : Store} {same : Prop} {α : Type}

theorem alike_self (m : Emit α) : Alike False m m (EqualIf same) := by
  intro e
  rcases hrun : m.exec e with ⟨err | a, e'⟩
  · exact Or.inr ⟨err, e', rfl, rfl, False.elim⟩
  · exact Or.inl ⟨a, a, e', rfl, rfl, equalIf_refl a⟩

/-- Whether a node is translated, and what is emitted for it, does not depend on names.  With
the same names it is translated to the same value. -/
theorem alike_translateNode (id : TermId) {scope scope' : Scope}
    (h : Scope.Level same scope scope') :
    Alike False (cfg.translateNode s scope id) (cfg.translateNode s scope' id) (EqualIf same) := by
  induction id using Nat.strong_induction_on generalizing scope scope' with
  | _ id ih =>
      rw [translateNode_eq, translateNode_eq]
      refine rel_step (J := alike False) (fun {scope scope'} h {c} hc => ?_) h rfl
        False.elim fun _ _ _ _ _ _ => alike_self _
      rw [renderBelow_eq hc.lt, renderBelow_eq hc.lt]
      exact ih c hc.lt h

/-- Nodes are translated alike in scopes that no translation tells apart. -/
theorem translateNode_congr {scope scope' : Scope} (h : Scope.Level True scope scope')
    (id : TermId) : cfg.translateNode s scope' id = cfg.translateNode s scope id :=
  funext (alike_translateNode id h).exec_eq

/-- A parameter without marks has no hypotheses. -/
theorem constraintClasses_of_isEmpty {flags : SortFlags} (h : flags.isEmpty = true) :
    constraintClasses flags = [] := by
  simp only [SortFlags.isEmpty, Bool.and_eq_true, Bool.not_eq_true'] at h
  simp [constraintClasses, h]

/-- Parameters and the binders of a function type that have the same types.  A binder has
hypotheses only if it has a name. -/
theorem rel_bindParams_bindPis {J : Pairing False} {render render' : Render} {limit : TermId}
    (hrender : ∀ {scope scope'}, Scope.Level False scope scope' →
      ∀ {c}, s.Enclosed False limit scope.depth c →
        J.Rel (render scope c) (render' scope' c) (EqualIf False))
    {scope scope' : Scope} (h : Scope.Level False scope scope')
    {params : List (String × TermId)} {layers : List Layer}
    (htypes : params.map (·.2) = layers.map (·.type)) (hparams : ∀ p ∈ params, p.2 < limit) :
    J.Rel (bindParams s render scope params) (bindPis s render' scope' layers) fun r r' =>
      Scope.Level False r.2 r'.2 := by
  have hplace : ∀ {c depth}, c < limit → s.Enclosed False limit depth c :=
    fun hc => ⟨hc, False.elim⟩
  induction params generalizing scope scope' layers with
  | nil =>
      rw [List.map_nil, eq_comm, List.map_eq_nil_iff] at htypes
      subst htypes
      exact J.rel_pure h
  | cons p rest ih =>
      obtain ⟨l, layers, rfl⟩ : ∃ l rest', layers = l :: rest' :=
        List.exists_cons_of_ne_nil fun hnil => by simp [hnil] at htypes
      rw [List.map_cons, List.map_cons, List.cons.injEq] at htypes
      obtain ⟨hp, hrest⟩ := List.forall_mem_cons.mp hparams
      refine J.rel_bind (Q := EqualIf False) ?_ fun _ _ _ => ?_
      · rw [← htypes.1]
        exact rel_term hrender h (hplace hp)
      split
      · -- The binder of the function type is named as well.
        rw [← htypes.1]
        refine J.rel_bind (rel_bindNamed hrender h False.elim (hplace hp)) fun r r' hr => ?_
        exact Pairing.rel_map (ih hr.2.level htypes.2 hrest) fun _ _ hlevel => hlevel
      · -- It has no name, so its type has no marks, and the parameter has no hypotheses.
        rename_i hunused
        rw [← htypes.1, Bool.or_eq_true, not_or, Bool.not_eq_true', Bool.not_eq_false] at hunused
        have hbind : bindNamed s render scope p.1 p.2 =
            pure ((scope.fresh p.1).1, [],
              (scope.fresh p.1).2.bind (scope.fresh p.1).1) := by
          rw [bindNamed, constraintClasses_of_isEmpty hunused.2]
          rfl
        have hinside : Scope.Level False ((scope.fresh p.1).2.bind (scope.fresh p.1).1)
            (scope'.bind "_") := ⟨h.shared, congrArg (· + 1) h.depth, False.elim⟩
        rw [hbind, pure_bind]
        exact Pairing.rel_map (ih hinside htypes.2 hrest) fun _ _ hlevel => hlevel

end Names

/-! ## A second time -/

/-- No identifier that has been dealt with is forgotten. -/
def Remembers (e e' : Emission) : Prop :=
  ∀ ident, e.isHandled ident = true → e'.isHandled ident = true

theorem Remembers.trans {e e₁ e₂ : Emission} (h : Remembers e e₁) (h' : Remembers e₁ e₂) :
    Remembers e e₂ :=
  fun ident hident => h' ident (h ident hident)

/-- A computation forgets nothing.  Once it has succeeded, the other one succeeds from every
emission that knows at least as much as was known by then, emits nothing, and gives a value
that is related. -/
def Repeats {α β : Type} (m : Emit α) (m' : Emit β) (Q : α → β → Prop) : Prop :=
  ∀ e a e₁, m.run e = .ok (a, e₁) → Remembers e e₁ ∧
    ∀ e₂, Remembers e₁ e₂ → ∃ b, m'.run e₂ = .ok (b, e₂) ∧ Q a b

/-- Pieces that can be run again can be run again together. -/
def repeats : Pairing False where
  Rel := Repeats
  rel_pure := by
    intro α β Q a b h e a' e₁ hrun
    cases hrun
    exact ⟨fun _ h => h, fun e₂ _ => ⟨b, rfl, h⟩⟩
  rel_throw := by
    intro α β Q err _ e a e₁ hrun
    cases hrun
  rel_bind := by
    intro α β γ δ m m' f f' Q P hm hf e c e' hrun
    obtain ⟨a, e₁, hfirst, hsecond⟩ := run_bind_eq_ok.mp hrun
    obtain ⟨hkeeps, hagain⟩ := hm e a e₁ hfirst
    -- That the second piece forgets nothing is said at a value of the other run, so the first
    -- one is run again at once.
    have hkeeps' : Remembers e₁ e' := by
      obtain ⟨b, -, hQ⟩ := hagain e₁ fun _ h => h
      exact (hf a b hQ e₁ c e' hsecond).1
    refine ⟨hkeeps.trans hkeeps', fun e₂ hlater => ?_⟩
    obtain ⟨b, hfirst', hQ⟩ := hagain e₂ (hkeeps'.trans hlater)
    obtain ⟨d, hsecond', hP⟩ := (hf a b hQ e₁ c e' hsecond).2 e₂ hlater
    exact ⟨d, run_bind_eq_ok.mpr ⟨b, e₂, hfirst', hsecond'⟩, hP⟩

section Again

variable {cfg : Config} {s : Store} {same : Prop}

/-- A constant that has been declared has been dealt with. -/
theorem isHandled_of_declareConstant {render : Render} {limit : TermId} {ident : Ident}
    {ty : TermId} {body : Option TermId}
    (hlt : ∀ c ∈ ty :: body.toList, c < limit)
    (hrender : ∀ scope, ∀ c < limit,
      Visits (OnlyConstants cfg) (fun _ => True) (render scope c) fun _ => True)
    {e e' : Emission} {u : Unit}
    (hrun : (declareConstant cfg s render ident ty body).run e = .ok (u, e')) :
    e'.isHandled ident = true := by
  by_cases hhandled : e.isHandled ident = true
  · obtain rfl := declareConstant_of_handled hrun hhandled
    exact hhandled
  obtain ⟨site, -, hrun⟩ := run_declareConstant hrun hhandled
  have hnoted : (e.handle ident).isHandled ident = true :=
    (isHandled_handle e ident ident).mpr (Or.inl rfl)
  have hdeclared {name : String} (hrun : (do
      let d ← declaration cfg s render name ty body
      modify (Emission.push d)).run (e.handle ident) = .ok (u, e')) :
      e'.isHandled ident = true := by
    obtain ⟨d, e₁, hd, hpush⟩ := run_bind_eq_ok.mp hrun
    cases hpush
    obtain ⟨honly, -⟩ := visits_declaration (F := fun _ => True)
      (accumulates_onlyConstants cfg) (fun scope c hc => (hrender scope c hc).imp
        fun _ _ _ => covered_univ s c) name hlt _ _ _ hd
    have hkept : e₁.isHandled ident = true :=
      (accumulates_onlyConstants cfg).keeps honly hnoted
    exact hkept
  cases site with
  | skip | replace text =>
      cases hrun
      exact hnoted
  | preserve | rename name => exact hdeclared hrun

theorem run_declareConstant_of_handled {render : Render} {ident : Ident} {ty : TermId}
    {body : Option TermId} {e : Emission} (h : e.isHandled ident = true) :
    (declareConstant cfg s render ident ty body).run e = .ok ((), e) := by
  unfold declareConstant
  refine run_bind_eq_ok.mpr ⟨e, e, rfl, ?_⟩
  rw [if_pos h]
  rfl

/-- A node that has been translated can be translated again. -/
theorem repeats_translateNode (id : TermId) {scope scope' : Scope}
    (h : Scope.Level True scope scope') :
    Repeats (cfg.translateNode s scope id) (cfg.translateNode s scope' id) (EqualIf True) := by
  induction id using Nat.strong_induction_on generalizing scope scope' with
  | _ id ih =>
      rw [translateNode_eq, translateNode_eq]
      refine rel_step (J := repeats) (fun {scope scope'} h {c} hc => ?_) h rfl
        False.elim fun c ident ty body hnode hle e u e₁ hrun => ?_
      · rw [renderBelow_eq hc.lt, renderBelow_eq hc.lt]
        exact ih c hc.lt h
      · have hlt : ∀ part ∈ ty :: body.toList, part < id := fun part hpart =>
          (lt_of_node_constant hnode part hpart).trans_le hle
        have hbelow : ∀ scope, ∀ c < id, Visits (OnlyConstants cfg) (fun _ => True)
            (cfg.renderBelow s id scope c) fun _ => True := by
          intro scope c hc
          rw [renderBelow_eq hc]
          exact onlyConstants_translateNode cfg s c scope
        refine ⟨fun other hother => ?_, fun e₂ hkeeps => ⟨(), ?_, fun _ => rfl⟩⟩
        · exact (accumulates_onlyConstants cfg).keeps
            (onlyConstants_declareConstant hlt hbelow e u e₁ hrun).1 hother
        · exact run_declareConstant_of_handled
            (hkeeps ident (isHandled_of_declareConstant hlt hbelow hrun))

theorem repeats_term (scope : Scope) (id : TermId) :
    Repeats (translateTerm (cfg.translateNode s) scope id)
      (translateTerm (cfg.translateNode s) scope id) (EqualIf True) := by
  unfold translateTerm
  split
  · exact repeats.rel_pure fun _ => rfl
  · exact repeats_translateNode id scope.level_refl

end Again

end TermGraph
