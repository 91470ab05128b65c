import Mathlib
import TermGraph.Proofs.Translate.Decides
import TermGraph.Proofs.Translate.Lifting

/-!
# Naming shared subterms introduces no errors

The definition of a constant is translated at the first reference to it, and whether this
succeeds is the only thing that a translation could learn from what has been emitted
before.  Where identifiers are unambiguous, an identifier that has been dealt with belongs
to a constant whose definition can be provided, or to one that is being declared and that
no older node refers to.  So the same condition decides the translation of a term with and
without names for its shared subterms.
-/

namespace TermGraph

open Target Store

section Declares

variable {cfg : Config} {s : Store} {known : Ident → Bool} {top : TermId}

/-- Nothing stands in the way of the definition of any constant with an identifier. -/
def Providable (cfg : Config) (s : Store) (known : Ident → Bool) (top : TermId)
    (ident : Ident) : Prop :=
  ∀ c ty body, s.Reaches top c → s.node c = .constant ident ty body →
    cfg.CanProvide s known ident ty body

/-- What has been dealt with is known, or can be provided, or belongs to no node below a
limit. -/
structure Accounted (cfg : Config) (s : Store) (known : Ident → Bool) (top limit : TermId)
    (e : Emission) : Prop where
  knows : ∀ ident, known ident = true → e.isHandled ident = true
  only : ∀ ident, e.isHandled ident = true → known ident = true ∨
    Providable cfg s known top ident ∨
      ∀ c ty body, s.Reaches top c → s.node c = .constant ident ty body → limit ≤ c

/-- A run deals with more identifiers, all of which can be provided. -/
structure Provides (cfg : Config) (s : Store) (known : Ident → Bool) (top : TermId)
    (e e' : Emission) : Prop where
  keeps : ∀ ident, e.isHandled ident = true → e'.isHandled ident = true
  only : ∀ ident, e'.isHandled ident = true → e.isHandled ident = true ∨
    Providable cfg s known top ident

theorem composes_provides (limit : TermId) :
    Composes (Accounted cfg s known top limit) (Provides cfg s known top) where
  refl := fun _ => ⟨fun _ h => h, fun _ h => Or.inl h⟩
  trans := by
    intro a b c hab hbc
    refine ⟨fun ident h => hbc.keeps ident (hab.keeps ident h), fun ident h => ?_⟩
    exact (hbc.only ident h).elim (hab.only ident) Or.inr
  stable := by
    intro a b hab ha
    refine ⟨fun ident h => hab.keeps ident (ha.knows ident h), fun ident h => ?_⟩
    exact (hab.only ident h).elim (ha.only ident) fun h => Or.inr (Or.inl h)

theorem Accounted.mono {limit limit' : TermId} {e : Emission}
    (h : Accounted cfg s known top limit e) (hle : limit' ≤ limit) :
    Accounted cfg s known top limit' e where
  knows := h.knows
  only := fun ident hident => (h.only ident hident).imp_right fun h => h.imp_right
    fun hfar c ty body hreach hnode => hle.trans (hfar c ty body hreach hnode)

theorem Accounted.not_known {limit : TermId} {e : Emission} {ident : Ident}
    (h : Accounted cfg s known top limit e) (hnot : ¬e.isHandled ident = true) :
    known ident = false := by
  rw [Bool.eq_false_iff]
  exact fun hk => hnot (h.knows ident hk)

/-- A constant that has been dealt with is known or can be provided. -/
theorem Accounted.of_isHandled {id : TermId} {ident : Ident} {ty : TermId}
    {body : Option TermId} {e : Emission} (h : Accounted cfg s known top (id + 1) e)
    (hreach : s.Reaches top id) (hnode : s.node id = .constant ident ty body)
    (hhandled : e.isHandled ident = true) :
    known ident = true ∨ cfg.CanProvide s known ident ty body := by
  rcases h.only ident hhandled with hk | hp | hfar
  · exact Or.inl hk
  · exact Or.inr (hp id ty body hreach hnode)
  · exact absurd (hfar id ty body hreach hnode) (Nat.not_succ_le_self id)

section Constant

variable (hunique : s.Unambiguous known top) {id : TermId} (hreach : s.Reaches top id)
  {ident : Ident} {ty : TermId} {body : Option TermId}
  (hnode : s.node id = .constant ident ty body) (hunknown : known ident = false)

include hunique hreach hnode hunknown

/-- The constant that is being declared is not below itself. -/
theorem Accounted.handle {e : Emission} (he : Accounted cfg s known top (id + 1) e) :
    Accounted cfg s known top id (e.handle ident) where
  knows := fun other h => (isHandled_handle e ident other).mpr (Or.inr (he.knows other h))
  only := by
    intro other hother
    rcases hunique.of_isHandled_handle hreach hnode hunknown hother with hother | hsame
    · exact (he.mono (Nat.le_succ id)).only other hother
    · exact Or.inr (Or.inr fun c ty' body' hc hnode' => (hsame c ty' body' hc hnode').ge)

/-- A constant whose definition can be provided may be noted beforehand. -/
theorem Provides.of_handle (hcan : cfg.CanProvide s known ident ty body) {e e' : Emission}
    (h : Provides cfg s known top (e.handle ident) e') : Provides cfg s known top e e' where
  keeps := fun other hother =>
    h.keeps other ((isHandled_handle e ident other).mpr (Or.inr hother))
  only := by
    intro other hother
    rcases h.only other hother with hother | hother
    · refine (hunique.of_isHandled_handle hreach hnode hunknown hother).imp_right fun hsame => ?_
      intro c ty' body' hc hnode'
      obtain rfl := hsame c ty' body' hc hnode'
      cases hnode.symm.trans hnode'
      exact hcan
    · exact Or.inr hother

end Constant

theorem declareConstant_run (render : Render) (ident : Ident) (ty : TermId)
    (body : Option TermId) (e : Emission) :
    (declareConstant cfg s render ident ty body).run e =
      if e.isHandled ident then .ok ((), e)
      else match cfg.defSite? ident with
        | some site => (provide cfg s render ident ty body site).run (e.handle ident)
        | none => .error (.unspecifiedTreatment ident) := by
  rw [declareConstant_eq, Emit.run_bind, Emit.run_get, pure_bind]
  split
  · rfl
  · cases cfg.defSite? ident with
    | none => rfl
    | some site => exact Emit.run_bind _ _ e

/-- A translation succeeds exactly if its term fits, wherever nothing of what the term
refers to is being declared. -/
def RendersFit (cfg : Config) (s : Store) (known : Ident → Bool) (top : TermId)
    (render : Render) (id : TermId) : Prop :=
  ∀ scope, Stocked cfg s known scope id →
    Decides (Accounted cfg s known top (id + 1)) (Provides cfg s known top) (render scope id)
      (cfg.Fits s known ⟨id, scope.depth, 0⟩) fun _ => True

/-- What is emitted for a constant can be emitted exactly if the definition can be
provided. -/
theorem decides_provide (hcases : s.ListsCasesOnce top) {render : Render} {id : TermId}
    (hreach : s.Reaches top id)
    (hrender : ∀ c < id, s.Reaches top c → RendersFit cfg s known top render c)
    {ident : Ident} {ty : TermId} {body : Option TermId}
    (hnode : s.node id = .constant ident ty body) {site : DefSite}
    (hsite : cfg.defSite? ident = some site) :
    Decides (Accounted cfg s known top id) (Provides cfg s known top)
      (provide cfg s render ident ty body site) (cfg.CanProvide s known ident ty body)
      fun _ => True := by
  have hR : Composes (Accounted cfg s known top id) (Provides cfg s known top) :=
    composes_provides id
  have hparts : ∀ c ∈ ty :: body.toList, c < id ∧ s.Reaches top c := fun c hc =>
    ⟨lt_of_node_constant hnode c hc,
      hreach.trans (reaches_of_mem_children (mem_children_of_node_constant hnode c hc))⟩
  have hpush : ∀ d, ∀ e : Emission, Provides cfg s known top e (e.push d) :=
    fun d e => ⟨fun _ h => h, fun _ h => Or.inl h⟩
  have hdeclaration : ∀ name, Decides (Accounted cfg s known top id) (Provides cfg s known top)
      (do
        let d ← declaration cfg s render name ty body
        modify (Emission.push d))
      (∀ p ∈ s.unitPlaces ty body, cfg.Fits s known p) fun _ => True := fun name =>
    (decides_bind hR (decides_declaration hR (fun scope c hc hcreach hstock =>
      (hrender c hc hcreach scope hstock).assume fun e he => he.mono hc) hcases name hparts)
      fun _ d _ => decides_modify (hpush d)).congr (iff_of_eq (and_true _))
  have hcan : cfg.CanProvide s known ident ty body ↔
      ∀ p ∈ cfg.declaredPlaces s ident ty body, cfg.Fits s known p :=
    and_iff_right (by rw [hsite]; rfl)
  rw [hcan, Config.declaredPlaces, hsite]
  cases site with
  | skip => exact (decides_pure hR trivial).congr (by simp)
  | replace text => exact (decides_modify (hpush _)).congr (by simp)
  | preserve => exact hdeclaration _
  | rename name => exact hdeclaration name

/-- A constant is declared exactly if it is known or its definition can be provided. -/
theorem decides_declareConstant (hunique : s.Unambiguous known top)
    (hcases : s.ListsCasesOnce top) {render : Render} {id : TermId} (hreach : s.Reaches top id)
    (hrender : ∀ c < id, s.Reaches top c → RendersFit cfg s known top render c)
    {ident : Ident} {ty : TermId} {body : Option TermId}
    (hnode : s.node id = .constant ident ty body) :
    Decides (Accounted cfg s known top (id + 1)) (Provides cfg s known top)
      (declareConstant cfg s render ident ty body)
      (known ident = true ∨ cfg.CanProvide s known ident ty body) fun _ => True := by
  -- The constant is noted first, and its definition is provided after that.
  constructor
  · intro e u e' he hrun
    rw [declareConstant_run] at hrun
    split at hrun
    · rename_i hhandled
      cases hrun
      exact ⟨⟨fun _ h => h, fun _ h => Or.inl h⟩, he.of_isHandled hreach hnode hhandled,
        trivial⟩
    · rename_i hhandled
      have hunknown := he.not_known hhandled
      cases hsite : cfg.defSite? ident with
      | none =>
          rw [hsite] at hrun
          cases hrun
      | some site =>
          rw [hsite] at hrun
          obtain ⟨hmore, hcan, -⟩ := (decides_provide hcases hreach hrender hnode hsite).ensures
            _ u e' (he.handle hunique hreach hnode hunknown) hrun
          exact ⟨hmore.of_handle hunique hreach hnode hunknown hcan, Or.inr hcan, trivial⟩
  · intro hdealt e he
    rw [declareConstant_run]
    split
    · exact ⟨(), e, rfl⟩
    · rename_i hhandled
      have hunknown := he.not_known hhandled
      have hcan := hdealt.resolve_left (by simp [hunknown])
      obtain ⟨site, hsite⟩ := Option.isSome_iff_exists.mp hcan.1
      rw [hsite]
      exact (decides_provide hcases hreach hrender hnode hsite).succeeds hcan _
        (he.handle hunique hreach hnode hunknown)

/-- A node is translated exactly if it fits. -/
theorem rendersFit_translateNode (hunique : s.Unambiguous known top)
    (hcases : s.ListsCasesOnce top) (id : TermId) (hreach : s.Reaches top id) :
    RendersFit cfg s known top (cfg.translateNode s) id := by
  induction id using Nat.strong_induction_on with
  | _ id ih =>
      intro scope hstock
      rw [translateNode_eq]
      have hrender : ∀ c < id, s.Reaches top c →
          RendersFit cfg s known top (cfg.renderBelow s id) c := by
        intro c hc hcreach scope hstock
        rw [renderBelow_eq hc]
        exact ih c hc hcreach scope hstock
      refine decides_step (composes_provides (id + 1)) (fun scope c hc hcreach hstock => ?_)
        hstock rfl hreach fun c ident ty body hnode hle hcreach => ?_
      · exact (hrender c hc hcreach scope hstock).assume
          fun e he => he.mono (Nat.succ_le_succ (le_of_lt hc))
      · exact (decides_declareConstant hunique hcases (hreach.trans hcreach)
          (fun b hb hbreach => hrender b (hb.trans_le hle) hbreach) hnode).assume
            fun e he => he.mono (Nat.succ_le_succ hle)

end Declares

/-! ## Terms with and without names for their shared subterms -/

section Lifting

variable {cfg : Config} {s : Store} {known : Ident → Bool} {scope : Scope} {root : TermId}

/-- With and without names for its shared subterms, a term is translated exactly if it
fits. -/
theorem decides_with_and_without_names (hscope : ∀ k, k ∉ scope.shared)
    (hunique : s.Unambiguous known root) (hcases : s.ListsCasesOnce root) :
    Decides (Accounted cfg s known root (root + 1)) (Provides cfg s known root)
      (translateTerm (cfg.translateNode s) scope root)
      (cfg.Fits s known ⟨root, scope.depth, 0⟩) (fun _ => True) ∧
    Decides (Accounted cfg s known root (root + 1)) (Provides cfg s known root)
      (translateLifted cfg s (cfg.translateNode s) scope root)
      (cfg.Fits s known ⟨root, scope.depth, 0⟩) (fun _ => True) := by
  have hR : Composes (Accounted cfg s known root (root + 1)) (Provides cfg s known root) :=
    composes_provides (root + 1)
  have hrender : ∀ scope, ∀ c < root + 1, s.Reaches root c → Stocked cfg s known scope c →
      Decides (Accounted cfg s known root (root + 1)) (Provides cfg s known root)
        (cfg.translateNode s scope c) (cfg.Fits s known ⟨c, scope.depth, 0⟩) fun _ => True :=
    fun scope c hc hreach hstock =>
      (rendersFit_translateNode hunique hcases c hreach scope hstock).assume
        fun e he => he.mono (Nat.succ_le_of_lt hc)
  have hroot : root < root + 1 ∧ s.Reaches root root := ⟨Nat.lt_succ_self root, .refl root⟩
  exact ⟨decides_term hR hrender (fun k hk => absurd hk (hscope k)) hroot,
    decides_lifted hR hrender hcases hscope hroot⟩

end Lifting

/-- A pair that refers to both constants, the one without a definition last. -/
def ambiguousLast : Store :=
  ofNodes [.unitType, .unit, .constant ambiguousIdent 0 (some 1), .bound 0, .fix "f" 0 3,
    .constant ambiguousIdent 0 (some 4), .pair 5 5, .pair 6 6, .pair 2 7]

theorem ambiguousLast_node : ambiguousLast.node 0 = .unitType ∧ ambiguousLast.node 1 = .unit ∧
    ambiguousLast.node 2 = .constant ambiguousIdent 0 (some 1) ∧
    ambiguousLast.node 3 = .bound 0 ∧ ambiguousLast.node 4 = .fix "f" 0 3 ∧
    ambiguousLast.node 5 = .constant ambiguousIdent 0 (some 4) ∧
    ambiguousLast.node 6 = .pair 5 5 ∧ ambiguousLast.node 7 = .pair 6 6 ∧
    ambiguousLast.node 8 = .pair 2 7 :=
  ⟨rfl, rfl, rfl, rfl, rfl, rfl, rfl, rfl, rfl⟩

theorem ambiguousLast_namedTerms : untreated.namedTerms ambiguousLast 1 = [] ∧
    untreated.namedTerms ambiguousLast 4 = [] ∧ untreated.namedTerms ambiguousLast 8 = [6] := by
  obtain ⟨h0, h1, h2, h3, h4, h5, h6, h7, h8⟩ := ambiguousLast_node
  have hsize : ambiguousLast.size = 9 := rfl
  have hshould : untreated.shouldName ambiguousLast 6 = true ∧
      untreated.shouldName ambiguousLast 5 = false := by decide +kernel
  refine ⟨sharedTermsBy_eq (by simp) fun t => ?_, sharedTermsBy_eq (by simp) fun t => ?_,
    sharedTermsBy_eq (by simp) fun t => ?_⟩
  · simp [hsize, tally, h1, renderedChildren, Node.children, Node.childrenWithDepth,
      Std.HashMap.getElem?_insert]
  · simp [hsize, tally, tallyOne, h4, h3, h0, renderedChildren, Node.children,
      Node.childrenWithDepth, Std.HashMap.getElem?_insert]
    grind
  · simp [hsize, tally, tallyOne, h8, h7, h6, h5, h2, renderedChildren, Node.children,
      Node.childrenWithDepth, Std.HashMap.getElem?_insert]
    grind

/-- The datatype of the recursor, and its constructor. -/
def repeatedIdents : Ident × Ident :=
  (⟨⟨["M"]⟩, "D"⟩, ⟨⟨["M"]⟩, "C"⟩)

/-- A recursor with three cases for one constructor. -/
def repeatedCase : Store :=
  ofNodes [.unitType, .unit, .bound 0, .fix "f" 0 2,
    .recursor repeatedIdents.1 [] 0 [repeatedIdents.2]
      [(repeatedIdents.2, 1), (repeatedIdents.2, 3), (repeatedIdents.2, 3)]]

theorem repeatedCase_node : repeatedCase.node 0 = .unitType ∧ repeatedCase.node 1 = .unit ∧
    repeatedCase.node 2 = .bound 0 ∧ repeatedCase.node 3 = .fix "f" 0 2 ∧
    repeatedCase.node 4 = .recursor repeatedIdents.1 [] 0 [repeatedIdents.2]
      [(repeatedIdents.2, 1), (repeatedIdents.2, 3), (repeatedIdents.2, 3)] :=
  ⟨rfl, rfl, rfl, rfl, rfl⟩

theorem repeatedCase_namedTerms : untreated.namedTerms repeatedCase 4 = [3] := by
  obtain ⟨h0, h1, h2, h3, h4⟩ := repeatedCase_node
  have hsize : repeatedCase.size = 5 := rfl
  have hshould : untreated.shouldName repeatedCase 3 = true ∧
      untreated.shouldName repeatedCase 0 = false := by decide +kernel
  refine sharedTermsBy_eq (by simp) fun t => ?_
  rcases eq_or_ne t 3 with rfl | ht
  · simp [hsize, tally, tallyOne, h4, h3, h2, h1, h0, renderedChildren, Node.children,
      Node.childrenWithDepth, Std.HashMap.getElem_insert, hshould.1]
  · simp [hsize, tally, tallyOne, h4, h3, h2, h1, h0, renderedChildren, Node.children,
      Node.childrenWithDepth, Std.HashMap.getElem?_insert]
    grind

end TermGraph
