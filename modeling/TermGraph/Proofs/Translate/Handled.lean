import Mathlib
import TermGraph.Proofs.Translate.Scoping

/-!
# Nodes that are translated have an outline

A constant is declared once, by the first reference to it, and another constant of the
same identifier is then taken as dealt with whether it can be declared or not.  Where
identifiers are unambiguous this makes no difference: whatever a run has dealt with is
a constant that can be dealt with, or one that is being declared and that no older
node refers to.  So what is translated has an outline that takes no more constants as
known than the run started with.
-/

namespace TermGraph

open Target Store

/-- No two constants that are still to be dealt with share an identifier. -/
def Store.Unambiguous (s : Store) (known : Ident → Bool) (top : TermId) : Prop :=
  ∀ c c' ident ty body ty' body', s.Reaches top c → s.Reaches top c' →
    s.node c = .constant ident ty body → s.node c' = .constant ident ty' body' →
    known ident = false → c = c'

/-- Noting that an unambiguous constant is being declared notes nothing of any other node. -/
theorem Store.Unambiguous.of_isHandled_handle {s : Store} {known : Ident → Bool} {top : TermId}
    (hunique : s.Unambiguous known top) {id : TermId} (hreach : s.Reaches top id)
    {ident other : Ident} {ty : TermId} {body : Option TermId}
    (hnode : s.node id = .constant ident ty body) (hunknown : known ident = false)
    {e : Emission} (h : (e.handle ident).isHandled other = true) :
    e.isHandled other = true ∨ ∀ c ty' body', s.Reaches top c →
      s.node c = .constant other ty' body' → c = id := by
  rcases (isHandled_handle e ident other).mp h with rfl | h
  · exact .inr fun c ty' body' hc hnode' =>
      (hunique id c other ty body ty' body' hreach hc hnode hnode' hunknown).symm
  · exact .inl h

/-- Nothing is ambiguous among nodes that hold their own parts and one constant only. -/
theorem Store.unambiguous_of_parts {s : Store} {known : Ident → Bool} {top : TermId}
    {nodes : List TermId} (single : TermId) (htop : top ∈ nodes)
    (hparts : ∀ b ∈ nodes, ∀ c ∈ (s.node b).children, c ∈ nodes)
    (hsingle : ∀ c ∈ nodes, ∀ ident ty body, s.node c = .constant ident ty body → c = single) :
    s.Unambiguous known top := by
  have hreach : ∀ c, s.Reaches top c → c ∈ nodes := by
    intro c hc
    induction hc with
    | refl => exact htop
    | tail _ hpart ih => exact hparts _ ih _ hpart
  intro c c' ident ty body ty' body' hc hc' hnode hnode' _
  rw [hsingle c (hreach c hc) ident ty body hnode,
    hsingle c' (hreach c' hc') ident ty' body' hnode']

section Handled

variable {cfg : Config} {s : Store} {known : Ident → Bool} {top : TermId}

/-- The definition of each constant with an identifier can be dealt with. -/
def Declarable (cfg : Config) (s : Store) (known : Ident → Bool) (top : TermId)
    (ident : Ident) : Prop :=
  ∀ c ty body, s.Reaches top c → s.node c = .constant ident ty body →
    canDeclare cfg s (cfg.outline s known) ident ty body = true

/-- What has been dealt with besides the known constants can be dealt with, or belongs to
no node below a limit. -/
structure Deals (cfg : Config) (s : Store) (known : Ident → Bool) (top limit : TermId)
    (e : Emission) : Prop where
  knows : ∀ ident, known ident = true → e.isHandled ident = true
  only : ∀ ident, e.isHandled ident = true → known ident = true ∨
    Declarable cfg s known top ident ∨
      ∀ c ty body, s.Reaches top c → s.node c = .constant ident ty body → limit ≤ c

/-- A run deals with more constants, all of which can be dealt with. -/
structure DealsMore (cfg : Config) (s : Store) (known : Ident → Bool) (top : TermId)
    (e e' : Emission) : Prop where
  keeps : ∀ ident, e.isHandled ident = true → e'.isHandled ident = true
  only : ∀ ident, e'.isHandled ident = true → e.isHandled ident = true ∨
    Declarable cfg s known top ident

theorem composes_deals (limit : TermId) :
    Composes (Deals cfg s known top limit) (DealsMore cfg s known top) where
  refl := fun _ => ⟨fun _ h => h, fun _ h => Or.inl h⟩
  trans := by
    intro a b c hab hbc
    refine ⟨fun ident h => hbc.keeps ident (hab.keeps ident h), fun ident h => ?_⟩
    rcases hbc.only ident h with h | h
    · exact hab.only ident h
    · exact Or.inr h
  stable := by
    intro a b hab ha
    refine ⟨fun ident h => hab.keeps ident (ha.knows ident h), fun ident h => ?_⟩
    rcases hab.only ident h with h | h
    · exact ha.only ident h
    · exact Or.inr (Or.inl h)

theorem Deals.mono {limit limit' : TermId} {e : Emission}
    (h : Deals cfg s known top limit e) (hle : limit' ≤ limit) :
    Deals cfg s known top limit' e where
  knows := h.knows
  only := by
    intro ident hident
    rcases h.only ident hident with hk | hd | hfar
    · exact Or.inl hk
    · exact Or.inr (Or.inl hd)
    · exact Or.inr (Or.inr fun c ty body hreach hnode => hle.trans (hfar c ty body hreach hnode))

/-- A node of the term, rendered where nothing of what it refers to is being declared. -/
def RendersBelow (cfg : Config) (s : Store) (known : Ident → Bool) (top : TermId)
    (render : Render) (id : TermId) : Prop :=
  RendersAt cfg s (cfg.outline s known) (Deals cfg s known top (id + 1))
    (DealsMore cfg s known top) render id

/-- Noting that a constant is being declared. -/
theorem deals_handle (hunique : s.Unambiguous known top) {id : TermId}
    (hreach : s.Reaches top id) {ident : Ident} {ty : TermId} {body : Option TermId}
    (hnode : s.node id = .constant ident ty body) (hunknown : known ident = false)
    {e : Emission} (he : Deals cfg s known top (id + 1) e) :
    Deals cfg s known top id (e.handle ident) where
  knows := fun other h => (isHandled_handle e ident other).mpr (Or.inr (he.knows other h))
  only := by
    intro other hother
    rcases hunique.of_isHandled_handle hreach hnode hunknown hother with hother | hsame
    · exact (he.mono (Nat.le_succ id)).only other hother
    · exact Or.inr (Or.inr fun c ty' body' hc hnode' => (hsame c ty' body' hc hnode').ge)

/-- Dealing with a constant that can be declared, from when this was noted. -/
theorem dealsMore_of_handle (hunique : s.Unambiguous known top) {id : TermId}
    (hreach : s.Reaches top id) {ident : Ident} {ty : TermId} {body : Option TermId}
    (hnode : s.node id = .constant ident ty body) (hunknown : known ident = false)
    (hcan : canDeclare cfg s (cfg.outline s known) ident ty body = true) {e e' : Emission}
    (h : DealsMore cfg s known top (e.handle ident) e') : DealsMore cfg s known top e e' where
  keeps := fun other hother =>
    h.keeps other ((isHandled_handle e ident other).mpr (Or.inr hother))
  only := by
    intro other hother
    rcases h.only other hother with hother | hother
    · refine (hunique.of_isHandled_handle hreach hnode hunknown hother).imp_right fun hsame => ?_
      intro c ty' body' hc hnode'
      obtain rfl := hsame c ty' body' hc hnode'
      cases hnode.symm.trans hnode'
      exact hcan
    · exact Or.inr hother

/-- A constant whose definition has been dealt with is known or can be dealt with. -/
theorem deals_declareConstant (htable : cfg.table.BindsNothing)
    (hunique : s.Unambiguous known top) {render : Render} {id : TermId}
    (hreach : s.Reaches top id)
    (hrender : ∀ c < id, s.Reaches top c → RendersBelow cfg s known top render c)
    {ident : Ident} {ty : TermId} {body : Option TermId}
    (hnode : s.node id = .constant ident ty body) :
    Ensures (Deals cfg s known top (id + 1)) (DealsMore cfg s known top)
      (declareConstant cfg s render ident ty body) fun _ =>
        known ident || canDeclare cfg s (cfg.outline s known) ident ty body := by
  have hparts := lt_of_node_constant hnode
  have hR : Composes (Deals cfg s known top id) (DealsMore cfg s known top) :=
    composes_deals id
  have hrender' : ∀ c < id, (∃ root ∈ ty :: body.toList, s.Reaches root c) →
      RendersAt cfg s (cfg.outline s known) (Deals cfg s known top id)
        (DealsMore cfg s known top) render c := by
    rintro c hc ⟨root, hmem, hroot⟩
    have hpart : s.Reaches id root :=
      reaches_of_mem_children (mem_children_of_node_constant hnode root hmem)
    exact (hrender c hc (hreach.trans (hpart.trans hroot))).assume fun e he => he.mono hc
  have hpush : ∀ name, Ensures (Deals cfg s known top id) (DealsMore cfg s known top)
      (do
        let d ← declaration cfg s render name ty body
        modify (Emission.push d)) fun _ =>
        (outlineDeclaration cfg s (cfg.outline s known) ty body).isSome = true := by
    intro name
    refine ensures_bind hR
      (ensures_declaration hR (unitsSafe_scoped htable) hrender' hparts name) ?_
    rintro d ⟨c, -, r, hr, -⟩
    exact (ensures_modify fun e => ⟨fun _ h => h, fun _ h => Or.inl h⟩).imp
      fun _ _ => by rw [hr]; rfl
  intro e u e' he hrun
  unfold declareConstant at hrun
  obtain ⟨_, _, hget, hrun⟩ := run_bind_eq_ok.mp hrun
  cases hget
  split at hrun
  · rename_i hhandled
    cases hrun
    refine ⟨⟨fun _ h => h, fun _ h => Or.inl h⟩, ?_⟩
    rw [Bool.or_eq_true]
    rcases he.only ident hhandled with hk | hd | hfar
    · exact Or.inl hk
    · exact Or.inr (hd id ty body hreach hnode)
    · exact absurd (hfar id ty body hreach hnode) (Nat.not_succ_le_self id)
  · rename_i hhandled
    have hunknown : known ident = false := by
      by_contra hk
      exact hhandled (he.knows ident (by simpa using hk))
    have hdeals := deals_handle hunique hreach hnode hunknown he
    -- What follows the note deals with this constant, by its declaration or without it.
    have hfinish : ∀ {m : Emit Unit},
        Ensures (Deals cfg s known top id) (DealsMore cfg s known top) m (fun _ =>
          canDeclare cfg s (cfg.outline s known) ident ty body = true) →
        (do modify (Emission.handle ident); m).run e = .ok (u, e') →
        DealsMore cfg s known top e e' ∧
          (known ident || canDeclare cfg s (cfg.outline s known) ident ty body) = true := by
      intro m hm hrun
      obtain ⟨_, _, hmodify, hrun⟩ := run_bind_eq_ok.mp hrun
      cases hmodify
      obtain ⟨hmore, hcan⟩ := hm _ u e' hdeals hrun
      exact ⟨dealsMore_of_handle hunique hreach hnode hunknown hcan hmore, by simp [hcan]⟩
    unfold canDeclare at hfinish ⊢
    split at hrun
    · rename_i hfind
      rw [hfind] at hfinish ⊢
      exact hfinish (hpush _) hrun
    · rename_i site useSite hfind
      rw [hfind] at hfinish ⊢
      cases site with
      | skip => exact hfinish (ensures_pure hR rfl) hrun
      | replace text =>
          exact hfinish ((ensures_modify fun e => ⟨fun _ h => h, fun _ h => Or.inl h⟩).imp
            fun _ _ => rfl) hrun
      | preserve | rename name => exact hfinish (hpush _) hrun
    · cases hrun

/-- A node that is translated has an outline. -/
theorem rendersBelow_translateNode (htable : cfg.table.BindsNothing)
    (hunique : s.Unambiguous known top) (id : TermId) (hreach : s.Reaches top id) :
    RendersBelow cfg s known top (cfg.translateNode s) id := by
  induction id using Nat.strong_induction_on with
  | _ id ih =>
      intro avoid P scope ctx names hsafe hsp hcovers
      rw [translateNode_eq]
      have hrender : ∀ c < id, s.Reaches top c →
          RendersBelow cfg s known top (cfg.renderBelow s id) c :=
        fun c hc hcreach => (ih c hc hcreach).renderBelow hc
      refine ensures_step (composes_deals (id + 1)) hsafe (fun c hc hcreach => ?_)
        (fun c ident ty body hnode hle hcreach => ?_) hsp hcovers
      · exact (hrender c hc (hreach.trans hcreach)).assume
          fun e he => he.mono (Nat.succ_le_succ (le_of_lt hc))
      · exact (deals_declareConstant htable hunique (hreach.trans hcreach)
          (fun b hb hb' => hrender b (lt_of_lt_of_le hb hle) hb') hnode).assume
          fun e he => he.mono (Nat.succ_le_succ hle)

end Handled

end TermGraph
