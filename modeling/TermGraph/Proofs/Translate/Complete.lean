import Mathlib
import TermGraph.Proofs.Translate.Scoping
import TermGraph.Proofs.Translate.Succeed

/-!
# Units that have an outline are translated

A term or a definition that has an outline is translated in a unit of its own, whatever
has been emitted before, as long as the constants taken as known have been dealt with.
-/

namespace TermGraph

open Target Store

section Units

variable {cfg : Config} {s : Store} {look look' : Outliner} {render : Render}
  {I : Emission → Prop} {R : Emission → Emission → Prop}
  {avoid : String → Prop} {P : List String → String → Prop} {top limit : TermId}
  (hR : Composes I R) (hsafe : Safe cfg s avoid P top)
  (hrender : ∀ c < limit, s.Reaches top c → RendersAt cfg s look I R render c)
  (hsucceed : ∀ c < limit, s.Reaches top c → SucceedsAt cfg s look' I render c)
  {scope : Scope}

include hR hsafe hrender hsucceed

theorem succeeds_shareBindings (named : List (TermId × String)) :
    ∀ {ctx names inner r}, Shares avoid limit scope ctx names named →
      (named.map (·.1)).Pairwise (· < ·) →
      (∀ p ∈ named, p.1 < limit ∧ s.Reaches top p.1 ∧ s.looseVars p.1 = []) →
      outlineShared look' ctx inner (named.map (·.1)) = some r →
      Succeeds I (shareBindings render scope named) := by
  induction named with
  | nil => exact fun _ _ _ _ => succeeds_pure _
  | cons p rest ih =>
      obtain ⟨t, x⟩ := p
      intro ctx names inner r h hsorted husable hr
      obtain ⟨hlt, hreaches, hclosed⟩ := husable (t, x) (by simp)
      rw [List.map_cons, List.pairwise_cons] at hsorted
      obtain ⟨rv, hrv, htail⟩ := Option.bind_eq_some_iff.mp hr
      obtain ⟨rest', hrest', _⟩ := Option.bind_eq_some_iff.mp htail
      have hfits : Spells avoid t scope ctx names := h.spells_oldest (le_of_lt hlt) hsorted.1
      have hcovers : ctx.Covers (s.looseVars t) := by simp [Context.Covers, hclosed]
      have hrest : ∀ p ∈ rest, p.1 < limit ∧ s.Reaches top p.1 ∧ s.looseVars p.1 = [] :=
        fun p hp => husable p (by simp [hp])
      rw [shareBindings]
      refine succeeds_bind hR
        (hsucceed t hlt hreaches avoid P scope ctx names rv (hsafe.of_reaches hreaches) hfits
          hcovers hrv)
        (hrender t hlt hreaches avoid P scope ctx names (hsafe.of_reaches hreaches) hfits
          hcovers) fun v _ => ?_
      exact succeeds_bind hR (ih h.next hsorted.2 hrest hrest')
        (ensures_shareBindings hR hsafe hrender rest h.next hsorted.2 hrest)
        fun bs _ => succeeds_pure _

theorem succeeds_lifted {ctx : Context} {names : List String}
    (hsp : Spells avoid limit scope ctx names) {root : TermId}
    (hroot : Usable s top limit ctx 0 root) {r : Resolved}
    (hr : outlineLifted cfg s look' ctx root = some r) :
    Succeeds I (translateLifted cfg s render scope root) := by
  unfold outlineLifted at hr
  unfold translateLifted
  have hnamed := hroot.of_mem_namedTerms cfg
  have hsorted : (cfg.namedTerms s root).Pairwise (· < ·) := ascending_sharedTermsBy root _
  generalize cfg.namedTerms s root = ids at hr hnamed hsorted ⊢
  dsimp only
  split
  · rename_i hempty
    rw [List.isEmpty_iff.mp hempty] at hr
    exact succeeds_term hsafe hsucceed hsp hroot hr
  · obtain ⟨xs, scope', hfresh, hids, hshares⟩ := hsp.shareMany
      (hsorted.imp ne_of_lt) cfg.options.sharedNameBase
    rw [hfresh]
    dsimp only
    have hsorted' : ((ids.zip xs).map (·.1)).Pairwise (· < ·) := by rwa [hids]
    have hnamed' : ∀ p ∈ ids.zip xs, p.1 < limit ∧ s.Reaches top p.1 ∧
        s.looseVars p.1 = [] := fun p hp => hnamed p.1 (List.of_mem_zip hp).1
    rw [← hids] at hr
    refine succeeds_bind hR
      (succeeds_shareBindings hR hsafe hrender hsucceed _ hshares hsorted' hnamed' hr)
      (ensures_shareBindings hR hsafe hrender _ hshares hsorted' hnamed') ?_
    rintro bs ⟨ctx', names', hshares', hsame, hsome, -⟩
    obtain ⟨rb, hrb⟩ := hsome look' _ r hr
    have hbody : Usable s top limit ctx' 0 root :=
      ⟨hroot.lt, hroot.reaches, fun i hi => (hsame i).trans (hroot.covered i hi)⟩
    have hfits := hshares'.spells le_rfl (by simp)
    exact succeeds_bind hR (succeeds_term hsafe hsucceed hfits hbody hrb)
      (ensures_term hR hsafe hrender hfits hbody) fun e _ => succeeds_pure _

end Units

/-! ## Definitions and declarations -/

section Declarations

variable {cfg : Config} {s : Store} {look look' : Outliner} {render : Render}
  {I : Emission → Prop} {R : Emission → Emission → Prop}
  {avoid : String → Prop} {P : List String → String → Prop} {limit : TermId} {scope : Scope}

theorem succeeds_definition (hR : Composes I R) {ty body : TermId}
    (hrender : ∀ c < limit, s.Reaches ty c ∨ s.Reaches body c →
      RendersAt cfg s look I R render c)
    (hsucceed : ∀ c < limit, s.Reaches ty c ∨ s.Reaches body c →
      SucceedsAt cfg s look' I render c)
    (hty : Safe cfg s avoid P ty) (hbody : Safe cfg s avoid P body) (htylt : ty < limit)
    (hbodylt : body < limit) (hsp : Spells avoid limit scope [] []) (name : String)
    {r : Resolved} (hr : outlineDefinition cfg s look' ty body = some r) :
    Succeeds I (translateDefinition cfg s render scope name ty body) := by
  have hrenderty : ∀ c < limit, s.Reaches ty c → RendersAt cfg s look I R render c :=
    fun c hc h => hrender c hc (Or.inl h)
  have hrenderbody : ∀ c < limit, s.Reaches body c → RendersAt cfg s look I R render c :=
    fun c hc h => hrender c hc (Or.inr h)
  have hsucceedty : ∀ c < limit, s.Reaches ty c → SucceedsAt cfg s look' I render c :=
    fun c hc h => hsucceed c hc (Or.inl h)
  have hsucceedbody : ∀ c < limit, s.Reaches body c → SucceedsAt cfg s look' I render c :=
    fun c hc h => hsucceed c hc (Or.inr h)
  unfold outlineDefinition at hr
  unfold translateDefinition
  dsimp only at hr ⊢
  split at hr
  · rename_i hplain
    rw [if_pos hplain]
    obtain ⟨rty, hrty, hr⟩ := Option.bind_eq_some_iff.mp hr
    obtain ⟨rbody, hrbody, _⟩ := Option.bind_eq_some_iff.mp hr
    refine succeeds_bind hR (succeeds_term hty hsucceedty hsp (usable_top htylt) hrty)
      (ensures_term hR hty hrenderty hsp (usable_top htylt)) fun type _ => ?_
    exact succeeds_bind hR
      (succeeds_lifted hR hbody hrenderbody hsucceedbody hsp (usable_top hbodylt) hrbody)
      (ensures_lifted hR hbody hrenderbody hsp (usable_top hbodylt)) fun e _ => succeeds_pure _
  · rename_i hplain
    rw [if_neg hplain]
    have hlength := length_eq_of_params hplain
    obtain ⟨hparams, hcodomain, hinner⟩ := usable_params htylt hbodylt hlength
    obtain ⟨rs, hrs, hr⟩ := Option.bind_eq_some_iff.mp hr
    obtain ⟨rty, hrty, hr⟩ := Option.bind_eq_some_iff.mp hr
    obtain ⟨rbody, hrbody, _⟩ := Option.bind_eq_some_iff.mp hr
    rw [← map_snd_zipWith_params hlength] at hrs
    refine succeeds_bind hR
      (succeeds_bindParams hR hty hrenderty hsucceedty _ hsp hparams hrs)
      (ensures_bindParams hR hty hrenderty _ hsp hparams) ?_
    rintro ⟨params, scope'⟩ ⟨names', -, -, -, hsp'⟩
    rw [map_snd_zipWith_params hlength] at hsp'
    refine succeeds_bind hR (succeeds_term hty hsucceedty hsp' hcodomain hrty)
      (ensures_term hR hty hrenderty hsp' hcodomain) fun type _ => ?_
    exact succeeds_bind hR
      (succeeds_lifted hR hbody hrenderbody hsucceedbody hsp' hinner hrbody)
      (ensures_lifted hR hbody hrenderbody hsp' hinner) fun e _ => succeeds_pure _

theorem succeeds_declaration (hR : Composes I R) (hunits : UnitsSafe cfg s P) {ty : TermId}
    {body : Option TermId}
    (hrender : ∀ c < limit, RendersAt cfg s look I R render c)
    (hsucceed : ∀ c < limit, SucceedsAt cfg s look' I render c)
    (hlt : ∀ c ∈ ty :: body.toList, c < limit) (name : String) {r : Resolved}
    (hr : outlineDeclaration cfg s look' ty body = some r) :
    Succeeds I (declaration cfg s render name ty body) := by
  unfold declaration
  refine succeeds_bind hR succeeds_get (ensures_get hR) fun e _ => ?_
  have hty := hunits e (ty :: body.toList) ty (by simp)
  have hsp : Spells (cfg.Avoided e s (ty :: body.toList)) limit
      (Scope.ofUnit cfg e s (ty :: body.toList)) [] [] := spells_ofUnit limit
  cases body with
  | none =>
      have husable : Usable s ty limit [] 0 ty := usable_top (hlt ty (by simp))
      exact succeeds_bind hR
        (succeeds_term hty (fun c hc _ => hsucceed c hc) hsp husable hr)
        (ensures_term hR hty (fun c hc _ => hrender c hc) hsp husable)
        fun type _ => succeeds_pure _
  | some body =>
      exact succeeds_definition hR (fun c hc _ => hrender c hc) (fun c hc _ => hsucceed c hc)
        hty (hunits e _ body (by simp)) (hlt ty (by simp)) (hlt body (by simp)) hsp name hr

end Declarations

/-! ## Nodes -/

section Nodes

variable {cfg : Config} {s : Store} {P : List String → String → Prop} {known : Ident → Bool}

/-- The constants that are known have been dealt with. -/
def Knows (known : Ident → Bool) (e : Emission) : Prop :=
  ∀ ident, known ident = true → e.isHandled ident = true

theorem composes_knows : Composes (Knows known) (Emits cfg s P) :=
  composes_emits fun hemits hknows ident h => hemits.keeps ident (hknows ident h)

/-- The definition of a constant is dealt with if it is known or can be dealt with. -/
theorem succeeds_declareConstant {render : Render} (hunits : UnitsSafe cfg s P) {id : TermId}
    (hrender : ∀ c < id, RendersAt cfg s (cfg.meaning s) (Knows known) (Emits cfg s P) render c)
    (hsucceed : ∀ c < id, SucceedsAt cfg s (cfg.outline s known) (Knows known) render c)
    {ident : Ident} {ty : TermId} {body : Option TermId}
    (hnode : s.node id = .constant ident ty body)
    (hdealt : known ident || canDeclare cfg s (cfg.outline s known) ident ty body) :
    Succeeds (Knows known) (declareConstant cfg s render ident ty body) := by
  have hR : Composes (Knows known) (Emits cfg s P) := composes_knows
  have hlt := lt_of_node_constant hnode
  have hpush : (outlineDeclaration cfg s (cfg.outline s known) ty body).isSome = true →
      ∀ name, Succeeds (Knows known) (do
        let d ← declaration cfg s render name ty body
        modify (Emission.push d)) := by
    intro hsome name
    obtain ⟨r, hr⟩ := Option.isSome_iff_exists.mp hsome
    exact succeeds_bind hR (succeeds_declaration hR hunits hrender hsucceed hlt name hr)
      (ensures_declaration hR hunits (fun c hc _ => hrender c hc) hlt name)
      fun d _ => succeeds_modify _
  unfold declareConstant
  refine succeeds_bind hR succeeds_get (ensures_get hR) fun e he => ?_
  split
  · exact succeeds_pure _
  · rename_i hhandled
    have hcan : canDeclare cfg s (cfg.outline s known) ident ty body = true := by
      rw [Bool.or_eq_true] at hdealt
      exact hdealt.resolve_left fun h => hhandled (he ident h)
    unfold canDeclare at hcan
    extract_lets declare
    have hdeclare : ∀ site, ((∃ text, site = .replace text) ∨ site = .skip ∨
        (outlineDeclaration cfg s (cfg.outline s known) ty body).isSome = true) →
        Succeeds (Knows known) (declare site) := by
      intro site hsite
      refine succeeds_bind hR (succeeds_modify _) (ensures_modify (emits_handle ident))
        fun _ _ => ?_
      cases site with
      | skip => exact succeeds_pure _
      | replace text => exact succeeds_modify _
      | preserve | rename name =>
          exact hpush (hsite.resolve_left (by simp) |>.resolve_left (by simp)) _
    have hsite : ∀ site, Succeeds (Knows known) (declare site) →
        Succeeds (Knows known) (pure site >>= declare) := fun site h => by
      rwa [pure_bind]
    split
    · rename_i hfind
      rw [hfind] at hcan
      exact hsite .preserve (hdeclare .preserve (Or.inr (Or.inr hcan)))
    · rename_i site useSite hfind
      rw [hfind] at hcan
      refine hsite site (hdeclare site ?_)
      cases site with
      | skip => exact Or.inr (Or.inl rfl)
      | replace text => exact Or.inl ⟨text, rfl⟩
      | preserve | rename name => exact Or.inr (Or.inr hcan)
    · rename_i useSite hfind
      rw [hfind] at hcan
      cases hcan

/-- Every node that has an outline is translated. -/
theorem succeedsAt_translateNode (hunits : UnitsSafe cfg s P) (id : TermId) :
    SucceedsAt cfg s (cfg.outline s known) (Knows known) (cfg.translateNode s) id := by
  induction id using Nat.strong_induction_on with
  | _ id ih =>
      intro avoid P' scope ctx names r hsafe hsp hcovers hr
      have hR : Composes (Knows known) (Emits cfg s P) := composes_knows
      rw [translateNode_eq]
      have hrender : ∀ c < id, RendersAt cfg s (cfg.meaning s) (fun _ => True) (Emits cfg s P)
          (cfg.renderBelow s id) c :=
        fun c hc => (rendersAt_translateNode hunits c).renderBelow hc
      have hrender' : ∀ c < id, RendersAt cfg s (cfg.meaning s) (Knows known) (Emits cfg s P)
          (cfg.renderBelow s id) c := fun c hc => (hrender c hc).assume fun _ _ => trivial
      have hsucceed : ∀ c < id, SucceedsAt cfg s (cfg.outline s known) (Knows known)
          (cfg.renderBelow s id) c := by
        intro c hc avoid P' scope ctx names r
        rw [renderBelow_eq hc]
        exact ih c hc avoid P' scope ctx names r
      refine succeeds_step hR hsafe (fun c hc _ => hrender' c hc) (fun c hc _ => hsucceed c hc)
        (fun c ident ty body hnode hle _ => ⟨fun hdealt => ?_, ?_⟩) hsp hcovers hr
      · exact succeeds_declareConstant hunits
          (fun b hb => hrender' b (lt_of_lt_of_le hb hle))
          (fun b hb => hsucceed b (lt_of_lt_of_le hb hle)) hnode hdealt
      · exact (ensures_declareConstant hunits
          (fun b hb => hrender b (lt_of_lt_of_le hb hle)) hnode).assume fun _ _ => trivial

/-- A closed term that has an outline is translated. -/
theorem translate_succeeds (htable : cfg.table.BindsNothing) {root : TermId} {e : Emission}
    {r : Resolved}
    (hr : outlineLifted cfg s (cfg.outline s e.isHandled) [] root = some r) :
    ∃ t e', cfg.translate s root e = (.ok t, e') := by
  have hunits : UnitsSafe cfg s fun _ _ => True := unitsSafe_scoped htable
  have hR : Composes (Knows e.isHandled) (Emits cfg s fun _ _ => True) := composes_knows
  have hsafe := hunits e [root] root (by simp)
  have hsucceed : ∀ c < root + 1, s.Reaches root c → SucceedsAt cfg s
      (cfg.outline s e.isHandled) (Knows e.isHandled) (cfg.translateNode s) c :=
    fun c _ _ => succeedsAt_translateNode hunits c
  obtain ⟨t, e', hrun⟩ := succeeds_lifted hR hsafe
    (fun c _ _ => (rendersAt_translateNode hunits c).assume fun _ _ => trivial) hsucceed
    (spells_ofUnit (root + 1)) (usable_top (Nat.lt_succ_self root)) hr e fun _ h => h
  refine ⟨⟨e'.declarationsFrom e.declarations.size, t⟩, e', ?_⟩
  have hroot : (cfg.translateRoot s root).run e = .ok (t, e') :=
    run_bind_eq_ok.mpr ⟨e, e, rfl, hrun⟩
  have hterm : (cfg.termWithDeclarations s root).run e =
      .ok (⟨e'.declarationsFrom e.declarations.size, t⟩, e') :=
    run_bind_eq_ok.mpr ⟨e, e, rfl, run_bind_eq_ok.mpr ⟨t, e', hroot, rfl⟩⟩
  exact Emission.attempt_eq_ok.mpr hterm

end Nodes

end TermGraph
