import Mathlib
import TermGraph.Proofs.Translate.Pairing

/-!
# Closed terms have no unbound variables

The store keeps the loose variables of every node, and the translator keeps the names of
the binders around every place.  A guarded translation compares the two at each node that
it renders: it fails at once where a loose variable of the node has no name.

For closed terms the guards make no difference.  The guarded translation gives the same
outcome and emits the same declarations, and neither of the two fails because a variable
is unbound.
-/

namespace TermGraph

open Target Store

/-! ## Computations that do the same -/

/-- Two computations do the same.  From every emission they come to the same emission, and
either they give values that are related or they fail with the same error. -/
def Alike (closed : Prop) {α β : Type} (m : Emit α) (m' : Emit β) (Q : α → β → Prop) : Prop :=
  ∀ e, (∃ a b e', m.exec e = (.ok a, e') ∧ m'.exec e = (.ok b, e') ∧ Q a b) ∨
    ∃ err e', m.exec e = (.error err, e') ∧ m'.exec e = (.error err, e') ∧ err.Possible closed

/-- Computations that do the same, put together in the same way, do the same. -/
def alike (closed : Prop) : Pairing closed where
  Rel := Alike closed
  rel_pure := fun h e => Or.inl ⟨_, _, e, rfl, rfl, h⟩
  rel_throw := fun h e => Or.inr ⟨_, e, rfl, rfl, h⟩
  rel_bind := by
    intro α β γ δ m m' f f' Q P hm hf e
    rw [Emit.exec_bind, Emit.exec_bind]
    rcases hm e with ⟨a, b, e₁, hrun, hrun', hQ⟩ | ⟨err, e₁, hrun, hrun', herr⟩
    · rw [hrun, hrun']
      exact hf a b hQ e₁
    · rw [hrun, hrun']
      exact Or.inr ⟨err, e₁, rfl, rfl, herr⟩

section Alike

variable {closed : Prop} {α : Type} {m m' : Emit α}

theorem Alike.exec_eq (h : Alike closed m m' (EqualIf True)) (e : Emission) :
    m'.exec e = m.exec e := by
  rcases h e with ⟨a, b, e', hrun, hrun', hab⟩ | ⟨err, e', hrun, hrun', -⟩
  · rw [hrun, hrun', hab trivial]
  · rw [hrun, hrun']

/-- No variable is found to be unbound. -/
theorem Alike.ne_unboundVariable {Q : α → α → Prop} (h : Alike True m m' Q) (e : Emission)
    (i d : Nat) : (m.exec e).1 ≠ .error (.unboundVariable i d) := by
  rcases h e with ⟨a, b, e', hrun, -, -⟩ | ⟨err, e', hrun, -, herr⟩
  · simp [hrun]
  · rw [hrun]
    exact fun heq => herr trivial i d (Except.error.inj heq)

theorem alike_get {f f' : Emission → Emit α} {Q : α → α → Prop}
    (hf : ∀ e, Alike closed (f e) (f' e) Q) : Alike closed (get >>= f) (get >>= f') Q := by
  intro e
  rw [Emit.exec_bind, Emit.exec_bind]
  exact hf e e

theorem alike_modify {Q : Unit → Unit → Prop} (f : Emission → Emission) (h : Q () ()) :
    Alike closed (modify f : Emit Unit) (modify f) Q :=
  fun e => Or.inl ⟨(), (), f e, rfl, rfl, h⟩

end Alike

/-! ## Declarations -/

/-- The types and the bodies of constants are closed. -/
def Store.ConstantsClosed (s : Store) : Prop :=
  ∀ c ident ty body, s.node c = .constant ident ty body →
    ∀ part ∈ ty :: body.toList, s.isClosed part = true

section Declarations

variable {cfg : Config} {s : Store} {closed same : Prop} {render render' : Render}
  {limit : TermId}
  (hrender : ∀ {scope scope'}, Scope.Level True scope scope' →
    ∀ {c}, s.Enclosed closed limit scope.depth c →
      Alike closed (render scope c) (render' scope' c) (EqualIf True))

include hrender

/-- A declaration is a unit of its own, without binders around it. -/
theorem alike_declareConstant {ident : Ident} {ty : TermId} {body : Option TermId}
    (hparts : ∀ part ∈ ty :: body.toList, ∀ d, s.Enclosed closed limit d part) :
    Alike closed (declareConstant cfg s render ident ty body)
      (declareConstant cfg s render' ident ty body) (EqualIf same) := by
  have hdeclaration : ∀ name, Alike closed (declaration cfg s render name ty body)
      (declaration cfg s render' name ty body) (EqualIf True) := by
    intro name
    refine alike_get fun e => ?_
    have hty := hparts ty (List.mem_cons_self ..)
    cases body with
    | some body =>
        exact rel_definition (J := alike closed) hrender (Scope.level_refl _) name (hty _)
          (hparts body (by simp) _)
    | none =>
        exact Pairing.rel_map (J := alike closed)
          (rel_term hrender (Scope.level_refl _) (hty _)) fun _ _ hty =>
            hty.map (Decl.postulate name)
  have hpush : ∀ name, Alike closed
      (do
        let d ← declaration cfg s render name ty body
        modify (Emission.push d))
      (do
        let d ← declaration cfg s render' name ty body
        modify (Emission.push d)) (EqualIf same) := fun name =>
    (alike closed).rel_bind (hdeclaration name) fun d d' hd => by
      obtain rfl := hd trivial
      exact alike_modify _ (equalIf_refl _)
  rw [declareConstant_eq, declareConstant_eq]
  refine alike_get fun e => ?_
  split
  · exact (alike closed).rel_pure (equalIf_refl _)
  · cases cfg.defSite? ident with
    | none => exact (alike closed).rel_throw fun _ => by simp
    | some site =>
        refine (alike closed).rel_bind (alike_modify (Q := Eq) _ rfl) fun _ _ _ => ?_
        cases site with
        | skip => exact (alike closed).rel_pure (equalIf_refl _)
        | replace text => exact alike_modify _ (equalIf_refl _)
        | preserve => exact hpush _
        | rename name => exact hpush _

end Declarations

/-! ## Guards -/

namespace Config

variable (cfg : Config) (s : Store)

/-- The structural form of a node, if each of its loose variables has a name. -/
def guardedNode (scope : Scope) (id : TermId) : Emit Expr :=
  let render (scope : Scope) (c : TermId) : Emit Expr :=
    if _ : c < id then guardedNode scope c else return default
  match (s.looseVars id).find? fun i => (scope.local? i).isNone with
  | some i => throw (.unboundVariable i scope.depth)
  | none => translateStep cfg s render scope id
termination_by id

/-- What guards the parts of a node. -/
def guardedBelow (id : TermId) : Render :=
  fun scope c => if _ : c < id then cfg.guardedNode s scope c else pure default

/-- Translates a term in a unit of its own, with a guard at each node. -/
def guardedRoot (root : TermId) : Emit Expr := do
  let scope := Scope.ofUnit cfg (← get) s [root]
  translateLifted cfg s (cfg.guardedNode s) scope root

/-- Translates a definition of a name in a unit of its own, with a guard at each node, and
emits it. -/
def guardedDefinition (name : String) (ty body : TermId) : Emit Decl := do
  let scope := Scope.ofUnit cfg (← get) s [ty, body]
  let d ← translateDefinition cfg s (cfg.guardedNode s) scope (escape name) ty body
  modify (Emission.push d)
  return d

variable {cfg s}

/-- Where the binders around a place bind all variables of a node, its guard is met. -/
theorem guardedNode_eq {scope : Scope} {id : TermId}
    (hbound : ∀ i ∈ s.looseVars id, i < scope.depth) :
    cfg.guardedNode s scope id = translateStep cfg s (cfg.guardedBelow s id) scope id := by
  have hnone : (s.looseVars id).find? (fun i => (scope.local? i).isNone) = none := by
    rw [List.find?_eq_none]
    intro i hi
    obtain ⟨x, hx⟩ := Scope.exists_local? (hbound i hi)
    simp [hx]
  rw [guardedNode, hnone]
  rfl

end Config

section Guards

variable {cfg : Config} {s : Store}

/-- The guarded translation of a node whose variables are bound does what the plain one
does. -/
theorem alike_guardedNode (hconstants : s.ConstantsClosed) (id : TermId) {scope scope' : Scope}
    (h : Scope.Level True scope scope') (hbound : ∀ i ∈ s.looseVars id, i < scope.depth) :
    Alike True (cfg.translateNode s scope id) (cfg.guardedNode s scope' id) (EqualIf True) := by
  induction id using Nat.strong_induction_on generalizing scope scope' with
  | _ id ih =>
      have hrender : ∀ {scope scope'}, Scope.Level True scope scope' →
          ∀ {c}, s.Enclosed True id scope.depth c →
            Alike True (cfg.renderBelow s id scope c) (cfg.guardedBelow s id scope' c)
              (EqualIf True) := by
        intro scope scope' h c hc
        rw [renderBelow_eq hc.lt, Config.guardedBelow, dif_pos hc.lt]
        exact ih c hc.lt h (hc.bound trivial)
      rw [translateNode_eq, Config.guardedNode_eq (h.depth ▸ hbound)]
      -- The parts of a constant stand under no binder, so they have to be closed themselves.
      refine rel_step (J := alike True) hrender h rfl (fun _ => hbound)
        fun c ident ty body hnode hle => ?_
      refine alike_declareConstant hrender fun part hpart d => enclosed_of_closed ?_ fun _ => ?_
      · exact (lt_of_node_constant hnode part hpart).trans_le hle
      · simpa [isClosed] using hconstants c ident ty body hnode part hpart

/-- What stands in a unit of its own is rendered alike with guards. -/
theorem alike_guarded (hconstants : s.ConstantsClosed) (limit : TermId) {scope scope' : Scope}
    (h : Scope.Level True scope scope') {c : TermId}
    (hc : s.Enclosed True limit scope.depth c) :
    Alike True (cfg.translateNode s scope c) (cfg.guardedNode s scope' c) (EqualIf True) :=
  alike_guardedNode hconstants c h (hc.bound trivial)

theorem alike_guardedRoot (hconstants : s.ConstantsClosed) {root : TermId}
    (hroot : s.isClosed root = true) :
    Alike True (cfg.translateRoot s root) (cfg.guardedRoot s root) (EqualIf True) := by
  refine alike_get fun e => ?_
  refine rel_lifted (J := alike True) (alike_guarded hconstants (root + 1))
    (Scope.level_refl _) (enclosed_of_closed (Nat.lt_succ_self root) fun _ => ?_)
  simpa [isClosed] using hroot

theorem alike_guardedDefinition (hconstants : s.ConstantsClosed) (name : String)
    {ty body : TermId} (hty : s.isClosed ty = true) (hbody : s.isClosed body = true) :
    Alike True (cfg.emitDefinition s name ty body) (cfg.guardedDefinition s name ty body)
      (EqualIf True) := by
  refine alike_get fun e => ?_
  refine (alike True).rel_bind (rel_definition (J := alike True)
    (alike_guarded hconstants (max ty body + 1)) (Scope.level_refl _) (escape name)
    (enclosed_of_closed (Nat.lt_succ_of_le (le_max_left ty body)) fun _ => ?_)
    (enclosed_of_closed (Nat.lt_succ_of_le (le_max_right ty body)) fun _ => ?_))
    fun d d' hd => ?_
  · simpa [isClosed] using hty
  · simpa [isClosed] using hbody
  · obtain rfl := hd trivial
    exact (alike True).rel_bind (alike_modify (Q := Eq) _ rfl) fun _ _ _ =>
      (alike True).rel_pure (equalIf_refl _)

/-- An attempt fails with the error of the computation. -/
theorem attempt_fst {α : Type} (e : Emission) (m : Emit α) :
    (e.attempt m).1 = (m.exec e).1 := by
  rw [Emission.attempt]
  rcases m.exec e with ⟨err | a, e'⟩ <;> rfl

end Guards

/-- A constant that is a function, and a function that applies it to its own argument. -/
def boundArgument : Store :=
  ofNodes [.unitType, .bound 0, .pair 1 1, .lam "x" 0 2, .pi "x" 0 0,
    .constant ⟨⟨["M"]⟩, "twice"⟩ 4 (some 3), .app 5 1, .lam "y" 0 6]

theorem boundArgument_isClosed : boundArgument.isClosed 4 = true ∧
    boundArgument.isClosed 3 = true ∧ boundArgument.isClosed 7 = true := by
  decide +kernel

theorem boundArgument_constantsClosed : boundArgument.ConstantsClosed := by
  obtain ⟨h4, h3, -⟩ := boundArgument_isClosed
  intro c ident ty body hnode
  match c, hnode with
  | 0, hnode | 1, hnode | 2, hnode | 3, hnode | 4, hnode | 6, hnode | 7, hnode => cases hnode
  | 5, hnode =>
      cases hnode
      simp [h4, h3]
  | c + 8, hnode => cases hnode

end TermGraph
