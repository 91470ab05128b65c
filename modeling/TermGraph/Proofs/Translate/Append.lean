import Mathlib
import TermGraph.Proofs.Translate.Run

/-!
# Emitting only adds

A translation adds declarations after those that are there, through however many nested
units, and no matter where it fails.  So the declarations at any point of a module pass are
the first ones at every later point, and going back to the point only has to forget the
others.
-/

namespace TermGraph

open Target

/-! ## Computations that only add -/

namespace Emit

variable {α β : Type}

/-- A computation keeps the declarations that are there, whatever comes of it. -/
def Appends (m : Emit α) : Prop :=
  ∀ e, e.declarations.toList <+: (m.exec e).2.declarations.toList

namespace Appends

variable {m : Emit α} {f : α → Emit β}

theorem pure (a : α) : Appends (Pure.pure a : Emit α) :=
  fun _ => List.prefix_refl _

theorem throw (err : TranslateError) : Appends (MonadExcept.throw err : Emit α) :=
  fun _ => List.prefix_refl _

theorem get : Appends (MonadState.get : Emit Emission) :=
  fun _ => List.prefix_refl _

theorem bind (hm : Appends m) (hf : ∀ a, Appends (f a)) : Appends (m >>= f) := by
  intro e
  have hfirst := hm e
  rw [exec_bind]
  rcases hrun : m.exec e with ⟨err | a, e₁⟩ <;> rw [hrun] at hfirst
  · exact hfirst
  · exact hfirst.trans (hf a e₁)

theorem mapM {as : List α} (h : ∀ a ∈ as, Appends (f a)) : Appends (as.mapM f) := by
  induction as with
  | nil => exact .pure _
  | cons a as ih =>
      obtain ⟨ha, has⟩ := List.forall_mem_cons.mp h
      rw [List.mapM_cons]
      exact .bind ha fun _ => .bind (ih has) fun _ => .pure _

theorem handle (ident : Ident) : Appends (modify (Emission.handle ident)) :=
  fun _ => List.prefix_refl _

theorem push (d : Decl) : Appends (modify (Emission.push d)) := by
  intro e
  rw [exec_modify, Emission.push, Array.toList_push]
  exact List.prefix_append _ _

end Appends

end Emit

open Emit (Appends)

/-! ## The steps of a translation -/

section Steps

variable {cfg : Config} {s : Store} {render : Render}
  (hrender : ∀ scope id, Appends (render scope id))

include hrender

theorem appends_term (scope : Scope) (id : TermId) :
    Appends (translateTerm render scope id) := by
  unfold translateTerm
  split
  · exact .pure _
  · exact hrender scope id

theorem appends_terms (scope : Scope) (ids : List TermId) :
    Appends (translateTerms render scope ids) :=
  .mapM fun id _ => appends_term hrender scope id

theorem appends_bindDomains (scope : Scope) (domains : List (String × TermId)) :
    Appends (bindDomains render scope domains) := by
  induction domains generalizing scope with
  | nil => exact .pure _
  | cons p rest ih =>
      exact .bind (appends_term hrender scope p.2) fun _ => .bind (ih _) fun _ => .pure _

theorem appends_hypotheses (scope : Scope) (param : String) (ty : TermId)
    (classes : List (String × String)) :
    Appends (hypotheses s render scope param ty classes) := by
  induction classes generalizing scope with
  | nil => exact .pure _
  | cons cls rest ih =>
      have htype : Appends (hypothesisType s render scope param ty cls.2) := by
        refine .bind (appends_bindDomains hrender scope _) fun _ => ?_
        dsimp only
        split <;> exact .pure _
      exact .bind htype fun _ => .bind (ih _) fun _ => .pure _

theorem appends_bindNamed (scope : Scope) (x : String) (ty : TermId) :
    Appends (bindNamed s render scope x ty) :=
  .bind (appends_hypotheses hrender _ _ ty _) fun _ => .pure _

theorem appends_bindParams (scope : Scope) (params : List (String × TermId)) :
    Appends (bindParams s render scope params) := by
  induction params generalizing scope with
  | nil => exact .pure _
  | cons p rest ih =>
      refine .bind (appends_term hrender scope p.2) fun _ => ?_
      exact .bind (appends_bindNamed hrender scope p.1 p.2) fun _ =>
        .bind (ih _) fun _ => .pure _

theorem appends_bindPis (scope : Scope) (layers : List Layer) :
    Appends (bindPis s render scope layers) := by
  induction layers generalizing scope with
  | nil => exact .pure _
  | cons l rest ih =>
      refine .bind (appends_term hrender scope l.type) fun _ => ?_
      split
      · exact .bind (appends_bindNamed hrender scope l.name l.type) fun _ =>
          .bind (ih _) fun _ => .pure _
      · exact .bind (ih _) fun _ => .pure _

theorem appends_lam (scope : Scope) (id : TermId) :
    Appends (translateLam s render scope id) :=
  .bind (appends_bindParams hrender scope _) fun _ =>
    .bind (appends_term hrender _ _) fun _ => .pure _

theorem appends_pi (scope : Scope) (id : TermId) :
    Appends (translatePi s render scope id) :=
  .bind (appends_bindPis hrender scope _) fun _ =>
    .bind (appends_term hrender _ _) fun _ => .pure _

theorem appends_let (scope : Scope) (x : String) (ty value body : TermId) :
    Appends (translateLet render scope x ty value body) := by
  refine .bind (appends_term hrender scope ty) fun _ => ?_
  refine .bind (appends_term hrender scope value) fun _ => ?_
  refine .bind (appends_term hrender _ body) fun inner => ?_
  cases inner <;> exact .pure _

theorem appends_shareBindings (scope : Scope) (named : List (TermId × String)) :
    Appends (shareBindings render scope named) := by
  induction named with
  | nil => exact .pure _
  | cons p rest ih => exact .bind (hrender scope p.1) fun _ => .bind ih fun _ => .pure _

theorem appends_lifted (scope : Scope) (root : TermId) :
    Appends (translateLifted cfg s render scope root) := by
  unfold translateLifted
  dsimp only
  split
  · exact appends_term hrender scope root
  · exact .bind (appends_shareBindings hrender _ _) fun _ =>
      .bind (appends_term hrender _ root) fun _ => .pure _

theorem appends_definition (scope : Scope) (name : String) (ty body : TermId) :
    Appends (translateDefinition cfg s render scope name ty body) := by
  unfold translateDefinition
  dsimp only
  split
  · exact .bind (appends_term hrender scope ty) fun _ =>
      .bind (appends_lifted hrender scope body) fun _ => .pure _
  · refine .bind (appends_bindParams hrender scope _) fun _ => ?_
    exact .bind (appends_term hrender _ _) fun _ =>
      .bind (appends_lifted hrender _ _) fun _ => .pure _

theorem appends_declaration (name : String) (ty : TermId) (body : Option TermId) :
    Appends (declaration cfg s render name ty body) := by
  refine .bind .get fun e => ?_
  cases body with
  | some body => exact appends_definition hrender _ name ty body
  | none => exact .bind (appends_term hrender _ ty) fun _ => .pure _

theorem appends_declareConstant (ident : Ident) (ty : TermId) (body : Option TermId) :
    Appends (declareConstant cfg s render ident ty body) := by
  unfold declareConstant
  refine .bind .get fun e => ?_
  split
  · exact .pure _
  · have hdeclare (name : String) : Appends (do
        let d ← declaration cfg s render name ty body
        modify (Emission.push d)) :=
      .bind (appends_declaration hrender name ty body) fun d => .push d
    extract_lets declare
    have hsite (site : DefSite) : Appends (declare site) := by
      refine .bind (.handle ident) fun _ => ?_
      cases site with
      | skip => exact .pure _
      | replace text => exact .push _
      | preserve | rename name => exact hdeclare _
    split
    · exact .bind (.pure _) hsite
    · exact .bind (.pure _) hsite
    · exact .bind (.throw _) hsite

theorem appends_ident (scope : Scope) (ident : Ident) (args : List TermId) :
    Appends (translateIdent cfg render scope ident args) := by
  unfold translateIdent
  split
  · exact .bind (appends_terms hrender scope args) fun _ => .pure _
  · exact .bind (appends_terms hrender scope args) fun _ => .pure _
  · have hrest (arity : Nat) (template : Template) : Appends (do
        let front ← translateTerms render scope (args.take arity)
        let rest ← translateTerms render scope (args.drop arity)
        return Expr.mkApp (template.instantiate front) rest) :=
      .bind (appends_terms hrender scope _) fun _ =>
        .bind (appends_terms hrender scope _) fun _ => .pure _
    split
    · exact .bind (.throw _) fun _ => hrest _ _
    · exact hrest _ _

theorem appends_constant (scope : Scope) (ident : Ident) (ty : TermId) (body : Option TermId)
    (args : List TermId) : Appends (translateConstant cfg s render scope ident ty body args) :=
  .bind (appends_declareConstant hrender ident ty body) fun _ =>
    appends_ident hrender scope ident args

theorem appends_named (scope : Scope) (head : String) (args : List TermId) :
    Appends (translateNamed render scope head args) :=
  .bind (appends_terms hrender scope args) fun _ => .pure _

theorem appends_conditional (scope : Scope) (c t e : TermId) (rest : List TermId) :
    Appends (translateConditional render scope c t e rest) :=
  .bind (appends_term hrender scope c) fun _ => .bind (appends_term hrender scope t) fun _ =>
    .bind (appends_term hrender scope e) fun _ =>
      .bind (appends_terms hrender scope rest) fun _ => .pure _

theorem appends_app (scope : Scope) (id : TermId) :
    Appends (translateApp cfg s render scope id) := by
  unfold translateApp
  dsimp only
  split
  · split
    · split
      · exact appends_conditional hrender scope _ _ _ _
      · exact appends_ident hrender scope _ _
    · exact appends_ident hrender scope _ _
  · exact appends_constant hrender scope _ _ _ _
  · exact .bind (appends_term hrender scope _) fun _ =>
      .bind (appends_terms hrender scope _) fun _ => .pure _

theorem appends_fields (scope : Scope) (cons nil : String) (fields : List (String × TermId)) :
    Appends (translateFields render scope cons nil fields) := by
  induction fields with
  | nil => exact .pure _
  | cons p rest ih =>
      exact .bind (appends_term hrender scope p.2) fun _ => .bind ih fun _ => .pure _

theorem appends_array (scope : Scope) (elemType : TermId) (elems : List TermId) :
    Appends (translateArray cfg s render scope elemType elems) := by
  unfold translateArray
  split
  · exact .pure _
  · exact .bind (appends_terms hrender scope elems) fun _ => .pure _

theorem appends_case (scope : Scope) (cases : List (Ident × TermId)) (ctor : Ident) :
    Appends (translateCase cfg render scope cases ctor) := by
  unfold translateCase
  split
  · exact appends_term hrender scope _
  · split
    · exact .throw _
    · exact .pure _

theorem appends_recursor (scope : Scope) (datatype : Ident) (params : List TermId)
    (motive : TermId) (order : List Ident) (cases : List (Ident × TermId)) :
    Appends (translateRecursor cfg render scope datatype params motive order cases) := by
  unfold translateRecursor
  split
  · exact .throw _
  · exact .bind (appends_terms hrender scope params) fun _ =>
      .bind (appends_term hrender scope motive) fun _ =>
        .bind (.mapM fun ctor _ => appends_case hrender scope cases ctor) fun _ => .pure _

theorem appends_step (scope : Scope) (id : TermId) :
    Appends (translateStep cfg s render scope id) := by
  unfold translateStep
  cases s.node id with
  | global ident => exact appends_ident hrender scope ident []
  | constant ident ty body => exact appends_constant hrender scope ident ty body []
  | bound i =>
      dsimp only
      split
      · exact .pure _
      · exact .throw _
  | free _ _ | sort _ _ | nat _ | string _ | bool _ | unit | unitType => exact .pure _
  | app _ _ => exact appends_app hrender scope id
  | pair a b | pairType a b => exact appends_named hrender scope _ [a, b]
  | pairLeft a | pairRight a => exact appends_named hrender scope _ [a]
  | recordType fields | record fields => exact appends_fields hrender scope _ _ _
  | proj r field => exact .bind (appends_term hrender scope r) fun _ => .pure _
  | array elemType elems => exact appends_array hrender scope elemType elems
  | data ident params args | ctor ident params args =>
      exact appends_ident hrender scope ident (params ++ args)
  | recursor datatype params motive order cases =>
      exact appends_recursor hrender scope datatype params motive order cases
  | lam _ _ _ => exact appends_lam hrender scope id
  | pi _ _ _ => exact appends_pi hrender scope id
  | letIn x ty value body => exact appends_let hrender scope x ty value body
  | fix x _ _ => exact .throw _

end Steps

/-! ## Nodes, terms and definitions -/

/-- Translating a node only adds declarations. -/
theorem appends_translateNode (cfg : Config) (s : Store) (scope : Scope) (id : TermId) :
    Appends (cfg.translateNode s scope id) := by
  induction id using Nat.strong_induction_on generalizing scope with
  | _ id ih =>
      rw [Config.translateNode]
      refine appends_step (fun scope c => ?_) scope id
      split
      · exact ih c ‹_› scope
      · exact .pure _

theorem appends_termWithDeclarations (cfg : Config) (s : Store) (root : TermId) :
    Appends (cfg.termWithDeclarations s root) := by
  have hroot : Appends (cfg.translateRoot s root) :=
    .bind .get fun _ => appends_lifted (appends_translateNode cfg s) _ root
  exact .bind .get fun _ => .bind hroot fun _ => .bind .get fun _ => .pure _

theorem appends_emitDefinition (cfg : Config) (s : Store) (name : String)
    (ty body : TermId) : Appends (cfg.emitDefinition s name ty body) :=
  .bind .get fun _ =>
    .bind (appends_definition (appends_translateNode cfg s) _ _ ty body) fun d =>
      .bind (.push d) fun _ => .pure _

end TermGraph
