import Mathlib
import TermGraph.Proofs.Target.BinderNames
import TermGraph.Proofs.Translate.FreeNames

/-!
# Chosen names are valid

A name for a binder is chosen in three steps: the text that the term has for it is made an
output name, variants of it are tried until one is not taken, and the one that is chosen is
taken from then on.  Every variant of an output name is an output name again, and the words
that no binder may have are taken from the start of a unit.  So each name that is chosen is
valid, whatever the text is and wherever it comes from: the name of a variable, the option
for shared subterms, or the name of a hypothesis, which contains the name of a parameter.

The names that a template binds are its own, and they are not chosen.
-/

namespace TermGraph

open Target

/-! ## Names for binders -/

/-- A name that a binder can have: an output name that has no other meaning. -/
structure Config.IsBinderName (cfg : Config) (x : String) : Prop where
  isOutputName : IsOutputName x
  not_reservedWord : x ∉ reservedWords
  not_emittedHead : x ∉ emittedHeads
  not_extraReserved : x ∉ cfg.options.extraReserved

/-- A scope in which the words that no binder may have are taken. -/
def Scope.Guards (scope : Scope) (cfg : Config) : Prop :=
  ∀ x ∈ reservedWords ++ emittedHeads ++ cfg.options.extraReserved, x ∈ scope.unavailable

section Guards

variable {cfg : Config} {scope : Scope}

theorem guards_ofUnit (cfg : Config) (e : Emission) (s : Store) (roots : List TermId) :
    (Scope.ofUnit cfg e s roots).Guards cfg := by
  intro x hx
  apply Config.mem_unavailable
  left
  rw [Config.reserved, List.append_assoc]
  exact List.mem_append_left _ hx

theorem Scope.Guards.fresh (h : scope.Guards cfg) (base : String) :
    (scope.fresh base).2.Guards cfg := by
  intro x hx
  exact Std.HashSet.mem_insert.mpr (Or.inr (h x hx))

theorem Scope.Guards.bind (h : scope.Guards cfg) (x : String) : (scope.bind x).Guards cfg :=
  h

theorem Scope.Guards.share (h : scope.Guards cfg) (named : List (TermId × String)) :
    (scope.share named).Guards cfg :=
  h

theorem Scope.Guards.isBinderName (h : scope.Guards cfg) (base : String) :
    cfg.IsBinderName (scope.fresh base).1 := by
  have hout : IsOutputName (scope.fresh base).1 :=
    isOutputName_freshVariant _ (isOutputName_sanitize base)
  have hfree : (scope.fresh base).1 ∉
      reservedWords ++ emittedHeads ++ cfg.options.extraReserved := by
    intro hmem
    exact freshVariant_not_mem _ _ (h _ hmem)
  simp only [List.mem_append, not_or] at hfree
  obtain ⟨⟨hword, hhead⟩, hextra⟩ := hfree
  exact ⟨hout, hword, hhead, hextra⟩

theorem Scope.Guards.freshMany (h : scope.Guards cfg) (base : String) (n : Nat) :
    (∀ x ∈ (scope.freshMany base n).1, cfg.IsBinderName x) ∧
      (scope.freshMany base n).2.Guards cfg := by
  induction n generalizing scope with
  | zero => exact ⟨by simp [Scope.freshMany], h⟩
  | succ n ih =>
      obtain ⟨hnames, hscope⟩ := ih (h.fresh base)
      exact ⟨List.forall_mem_cons.mpr ⟨h.isBinderName base, hnames⟩, hscope⟩

end Guards

/-! ## Trees whose binders have chosen names -/

/-- The names of all binders of a declaration; a text has none. -/
def Target.Decl.binderNames : Decl → List String
  | .definition _ params type body =>
      Expr.binderNamesBinders params ++ Expr.binderNamesList type.toList ++ body.binderNames
  | .postulate _ type => type.binderNames
  | .snippet _ | .comment _ => []

/-- The names of all binders of what a call gives. -/
def ModuleResult.binderNames : ModuleResult → List String
  | .term t => t.term.binderNames ++ t.declarations.flatMap Decl.binderNames
  | .definition d => d.binderNames

namespace Config

variable (cfg : Config)

/-- The templates that identifiers are translated to. -/
def IsTemplate (arity : Nat) (template : Template) : Prop :=
  ∃ ident, cfg.table.useSite ident = .expand arity template

/-- A name that a template binds. -/
def IsTemplateBinder (x : String) : Prop :=
  ∃ arity template, cfg.IsTemplate arity template ∧ x ∈ template.binderNames

/-- An expression whose binders, outside of instances of templates, have valid names. -/
abbrev Writes (e : Expr) : Prop :=
  e.Written cfg.IsTemplate cfg.IsBinderName

/-- A binder with a valid name and a type in which all binders have one. -/
def WritesBinder (b : Binder Expr) : Prop :=
  cfg.IsBinderName b.name ∧ cfg.Writes b.type

/-- A binder of a function type that has, if any, a valid name. -/
def WritesPiBinder (b : PiBinder Expr) : Prop :=
  (∀ x, b.name = some x → cfg.IsBinderName x) ∧ cfg.Writes b.type

/-- A declaration in which binders have valid names; texts are kept as they are. -/
def WritesDecl : Decl → Prop
  | .definition _ params type body =>
      (∀ b ∈ params, cfg.WritesBinder b) ∧ (∀ ty, type = some ty → cfg.Writes ty) ∧
        cfg.Writes body
  | .postulate _ type => cfg.Writes type
  | .snippet _ | .comment _ => True

/-- A result of a call in which binders have valid names. -/
def WritesResult : ModuleResult → Prop
  | .term t => cfg.Writes t.term ∧ ∀ d ∈ t.declarations, cfg.WritesDecl d
  | .definition d => cfg.WritesDecl d

/-- Only declarations in which binders have valid names are added. -/
def AddsWritten (e e' : Emission) : Prop :=
  ∃ ds, e'.declarations.toList = e.declarations.toList ++ ds ∧ ∀ d ∈ ds, cfg.WritesDecl d

/-- What a computation that does not fail adds and gives. -/
abbrev Gives {α : Type} (m : Emit α) (Q : α → Prop) : Prop :=
  Ensures (fun _ => True) cfg.AddsWritten m Q

variable {cfg} {x : String}

/-- The name of a binder is valid, unless it is one that a template binds. -/
theorem WritesDecl.of_mem_binderNames {d : Decl} (h : cfg.WritesDecl d)
    (hx : x ∈ d.binderNames) : cfg.IsBinderName x ∨ cfg.IsTemplateBinder x := by
  cases d with
  | definition name params type body =>
      obtain ⟨hparams, htype, hbody⟩ := h
      simp only [Decl.binderNames, List.mem_append, Expr.mem_binderNamesBinders,
        Expr.mem_binderNamesList, Option.mem_toList] at hx
      rcases hx with (⟨b, hb, rfl | hx⟩ | ⟨ty, hty, hx⟩) | hx
      · exact Or.inl (hparams b hb).1
      · exact (hparams b hb).2.of_mem_binderNames hx
      · exact (htype ty hty).of_mem_binderNames hx
      · exact hbody.of_mem_binderNames hx
  | postulate name type => exact Expr.Written.of_mem_binderNames h hx
  | snippet _ | comment _ => cases hx

theorem WritesResult.of_mem_binderNames {r : ModuleResult} (h : cfg.WritesResult r)
    (hx : x ∈ r.binderNames) : cfg.IsBinderName x ∨ cfg.IsTemplateBinder x := by
  cases r with
  | term t =>
      obtain ⟨hterm, hdecls⟩ := h
      rcases List.mem_append.mp hx with hx | hx
      · exact hterm.of_mem_binderNames hx
      · obtain ⟨d, hd, hx⟩ := List.mem_flatMap.mp hx
        exact (hdecls d hd).of_mem_binderNames hx
  | definition d => exact WritesDecl.of_mem_binderNames h hx

end Config

/-! ## Computations -/

section Gives

variable {cfg : Config} {α β : Type} {m : Emit α} {Q : α → Prop}

theorem composes_addsWritten (cfg : Config) :
    Composes (fun _ => True) cfg.AddsWritten where
  refl := fun e => ⟨[], by simp, by simp⟩
  trans := by
    rintro a b c ⟨ds, hds, hall⟩ ⟨ds', hds', hall'⟩
    refine ⟨ds ++ ds', by rw [hds', hds, List.append_assoc], ?_⟩
    intro d hd
    rcases List.mem_append.mp hd with hd | hd
    · exact hall d hd
    · exact hall' d hd
  stable := fun _ h => h

theorem addsWritten_push {d : Decl} (hd : cfg.WritesDecl d) (e : Emission) :
    cfg.AddsWritten e (e.push d) :=
  ⟨[d], by simp [Emission.push], by simpa using hd⟩

theorem gives_pure {a : α} (h : Q a) : cfg.Gives (pure a) Q :=
  ensures_pure (composes_addsWritten cfg) h

theorem gives_bind {f : α → Emit β} {Q' : β → Prop} (hm : cfg.Gives m Q)
    (hf : ∀ a, Q a → cfg.Gives (f a) Q') : cfg.Gives (m >>= f) Q' :=
  ensures_bind (composes_addsWritten cfg) hm hf

theorem gives_get : cfg.Gives get fun _ => True :=
  ensures_get (composes_addsWritten cfg)

theorem gives_mapM {f : α → Emit β} {Q : β → Prop} {xs : List α}
    (h : ∀ x ∈ xs, cfg.Gives (f x) Q) :
    cfg.Gives (xs.mapM f) fun ys => ys.length = xs.length ∧ ∀ y ∈ ys, Q y := by
  refine (ensures_mapM (composes_addsWritten cfg) h).imp fun ys hys => ?_
  induction hys with
  | nil => exact ⟨rfl, by simp⟩
  | cons hy _ ih =>
      obtain ⟨hlength, hall⟩ := ih fun x hx => h x (List.mem_cons_of_mem _ hx)
      exact ⟨congrArg (· + 1) hlength, List.forall_mem_cons.mpr ⟨hy, hall⟩⟩

end Gives

/-! ## The steps of a translation -/

section Steps

variable {cfg : Config} {s : Store} {render : Render} {scope : Scope}
  (hrender : ∀ {scope : Scope}, scope.Guards cfg → ∀ id, cfg.Gives (render scope id) cfg.Writes)

include hrender

theorem gives_term (hscope : scope.Guards cfg) (id : TermId) :
    cfg.Gives (translateTerm render scope id) cfg.Writes := by
  unfold translateTerm
  split
  · exact gives_pure (.var _)
  · exact hrender hscope id

theorem gives_terms (hscope : scope.Guards cfg) (ids : List TermId) :
    cfg.Gives (translateTerms render scope ids) fun es =>
      es.length = ids.length ∧ ∀ e ∈ es, cfg.Writes e :=
  gives_mapM fun id _ => gives_term hrender hscope id

/-! ### Binders -/

theorem gives_bindDomains (hscope : scope.Guards cfg) (domains : List (String × TermId)) :
    cfg.Gives (bindDomains render scope domains) fun r =>
      ∀ b ∈ r.1, cfg.IsBinderName b.1 ∧ cfg.Writes b.2 := by
  induction domains generalizing scope with
  | nil => exact gives_pure (by simp)
  | cons p rest ih =>
      refine gives_bind (gives_term hrender hscope p.2) fun type htype => ?_
      refine gives_bind (ih ((hscope.fresh p.1).bind _)) ?_
      intro r hr
      exact gives_pure (List.forall_mem_cons.mpr ⟨⟨hscope.isBinderName p.1, htype⟩, hr⟩)

theorem gives_hypothesisType (hscope : scope.Guards cfg) (param : String) (ty : TermId)
    (cls : String) : cfg.Gives (hypothesisType s render scope param ty cls) cfg.Writes := by
  refine gives_bind (gives_bindDomains hrender hscope _) ?_
  intro r hr
  have hargs : ∀ a ∈ r.1.map fun b => Expr.var b.1, cfg.Writes a := by
    simp only [List.forall_mem_map]
    exact fun b _ => .var b.1
  have hparam : cfg.Writes (.mkApp (.var param) (r.1.map fun b => Expr.var b.1)) :=
    .mkApp (.var param) hargs
  have hconstraint : cfg.Writes (.mkApp (.var cls)
      [.mkApp (.var param) (r.1.map fun b => Expr.var b.1)]) :=
    .mkApp (.var cls) (by simpa using hparam)
  dsimp only
  split
  · exact gives_pure hconstraint
  · refine gives_pure (.pi ?_ ?_ hconstraint)
    · simp only [List.forall_mem_map, Option.some.injEq, forall_eq']
      exact fun b hb => (hr b hb).1
    · simp only [List.forall_mem_map]
      exact fun b hb => (hr b hb).2

theorem gives_hypotheses (hscope : scope.Guards cfg) (param : String) (ty : TermId)
    (classes : List (String × String)) :
    cfg.Gives (hypotheses s render scope param ty classes) fun r =>
      (∀ b ∈ r.1, cfg.WritesBinder b) ∧ r.2.Guards cfg := by
  induction classes generalizing scope with
  | nil => exact gives_pure ⟨by simp, hscope⟩
  | cons cls rest ih =>
      refine gives_bind (gives_hypothesisType hrender hscope param ty cls.2) ?_
      intro type htype
      -- The text of the name contains the name of the parameter, and is cleaned as a whole.
      refine gives_bind (ih (hscope.fresh (cls.1 ++ "_" ++ param))) ?_
      rintro ⟨hyps, inner⟩ ⟨hhyps, hinner⟩
      refine gives_pure ⟨List.forall_mem_cons.mpr ⟨?_, hhyps⟩, hinner⟩
      exact ⟨hscope.isBinderName _, htype⟩

theorem gives_bindNamed (hscope : scope.Guards cfg) (x : String) (ty : TermId) :
    cfg.Gives (bindNamed s render scope x ty) fun r =>
      cfg.IsBinderName r.1 ∧ (∀ b ∈ r.2.1, cfg.WritesBinder b) ∧ r.2.2.Guards cfg := by
  refine gives_bind (gives_hypotheses hrender (hscope.fresh x) _ ty _) ?_
  rintro ⟨hyps, inner⟩ ⟨hhyps, hinner⟩
  exact gives_pure ⟨hscope.isBinderName x, hhyps, hinner⟩

theorem gives_bindParams (hscope : scope.Guards cfg) (params : List (String × TermId)) :
    cfg.Gives (bindParams s render scope params) fun r =>
      (∀ b ∈ r.1, cfg.WritesBinder b) ∧ r.2.Guards cfg := by
  induction params generalizing scope with
  | nil => exact gives_pure ⟨by simp, hscope⟩
  | cons p rest ih =>
      refine gives_bind (gives_term hrender hscope p.2) fun type htype => ?_
      refine gives_bind (gives_bindNamed hrender hscope p.1 p.2) ?_
      rintro ⟨x, hyps, middle⟩ ⟨hx, hhyps, hmiddle⟩
      refine gives_bind (ih hmiddle) ?_
      rintro ⟨binders, inner⟩ ⟨hbinders, hinner⟩
      refine gives_pure ⟨?_, hinner⟩
      exact List.forall_mem_cons.mpr
        ⟨⟨hx, htype⟩, List.forall_mem_append.mpr ⟨hhyps, hbinders⟩⟩

theorem gives_bindPis (hscope : scope.Guards cfg) (layers : List Layer) :
    cfg.Gives (bindPis s render scope layers) fun r =>
      (∀ b ∈ r.1, cfg.WritesPiBinder b) ∧ r.2.Guards cfg := by
  induction layers generalizing scope with
  | nil => exact gives_pure ⟨by simp, hscope⟩
  | cons l rest ih =>
      refine gives_bind (gives_term hrender hscope l.type) fun type htype => ?_
      split
      · refine gives_bind (gives_bindNamed hrender hscope l.name l.type) ?_
        rintro ⟨x, hyps, middle⟩ ⟨hx, hhyps, hmiddle⟩
        refine gives_bind (ih hmiddle) ?_
        rintro ⟨binders, inner⟩ ⟨hbinders, hinner⟩
        have hnamed : ∀ b ∈ hyps.map namedPi, cfg.WritesPiBinder b := by
          simp only [List.forall_mem_map]
          intro b hb
          refine ⟨?_, (hhyps b hb).2⟩
          rintro y ⟨⟩
          exact (hhyps b hb).1
        refine gives_pure ⟨?_, hinner⟩
        refine List.forall_mem_cons.mpr
          ⟨⟨?_, htype⟩, List.forall_mem_append.mpr ⟨hnamed, hbinders⟩⟩
        rintro y ⟨⟩
        exact hx
      · refine gives_bind (ih (hscope.bind "_")) ?_
        rintro ⟨binders, inner⟩ ⟨hbinders, hinner⟩
        refine gives_pure ⟨List.forall_mem_cons.mpr ⟨⟨?_, htype⟩, hbinders⟩, hinner⟩
        rintro y ⟨⟩

theorem gives_lam (hscope : scope.Guards cfg) (id : TermId) :
    cfg.Gives (translateLam s render scope id) cfg.Writes := by
  refine gives_bind (gives_bindParams hrender hscope _) ?_
  rintro ⟨binders, inner⟩ ⟨hbinders, hinner⟩
  refine gives_bind (gives_term hrender hinner _) fun body hbody => ?_
  exact gives_pure (.lam (fun b hb => (hbinders b hb).1) (fun b hb => (hbinders b hb).2) hbody)

theorem gives_pi (hscope : scope.Guards cfg) (id : TermId) :
    cfg.Gives (translatePi s render scope id) cfg.Writes := by
  refine gives_bind (gives_bindPis hrender hscope _) ?_
  rintro ⟨binders, inner⟩ ⟨hbinders, hinner⟩
  refine gives_bind (gives_term hrender hinner _) fun body hbody => ?_
  exact gives_pure (.pi (fun b hb => (hbinders b hb).1) (fun b hb => (hbinders b hb).2) hbody)

theorem gives_let (hscope : scope.Guards cfg) (x : String) (ty value body : TermId) :
    cfg.Gives (translateLet render scope x ty value body) cfg.Writes := by
  refine gives_bind (gives_term hrender hscope ty) fun type htype => ?_
  refine gives_bind (gives_term hrender hscope value) fun v hv => ?_
  have hx : cfg.IsBinderName (scope.fresh x).1 := hscope.isBinderName x
  refine gives_bind (gives_term hrender ((hscope.fresh x).bind _) body) fun inner hinner => ?_
  split
  · exact gives_pure (.joinLet hx htype hv hinner)
  · exact gives_pure (.letIn (List.forall_mem_singleton.mpr hx) (by simpa using htype)
      (List.forall_mem_singleton.mpr hv) hinner)

/-! ### Shared subterms and definitions -/

theorem gives_shareBindings (hscope : scope.Guards cfg) {named : List (TermId × String)}
    (hnamed : ∀ p ∈ named, cfg.IsBinderName p.2) :
    cfg.Gives (shareBindings render scope named) fun bs =>
      ∀ b ∈ bs, cfg.IsBinderName b.name ∧ b.type = none ∧ cfg.Writes b.value := by
  induction named with
  | nil => exact gives_pure (by simp)
  | cons p rest ih =>
      obtain ⟨hp, hrest⟩ := List.forall_mem_cons.mp hnamed
      refine gives_bind (hrender hscope p.1) fun value hvalue => ?_
      refine gives_bind (ih hrest) fun bs hbs => ?_
      exact gives_pure (List.forall_mem_cons.mpr ⟨⟨hp, rfl, hvalue⟩, hbs⟩)

theorem gives_lifted (hscope : scope.Guards cfg) (root : TermId) :
    cfg.Gives (translateLifted cfg s render scope root) cfg.Writes := by
  unfold translateLifted
  dsimp only
  split
  · exact gives_term hrender hscope root
  · obtain ⟨hnames, hinner⟩ := hscope.freshMany cfg.options.sharedNameBase
      (cfg.namedTerms s root).length
    have hnamed : ∀ p ∈ (cfg.namedTerms s root).zip (scope.freshMany
        cfg.options.sharedNameBase (cfg.namedTerms s root).length).1, cfg.IsBinderName p.2 :=
      fun p hp => hnames p.2 (List.of_mem_zip hp).2
    refine gives_bind (gives_shareBindings hrender (hinner.share _) hnamed) fun bs hbs => ?_
    refine gives_bind (gives_term hrender (hinner.share _) root) fun body hbody => ?_
    refine gives_pure (.mkLet (fun b hb => (hbs b hb).1) ?_ (fun b hb => (hbs b hb).2.2) hbody)
    intro b hb ty hty
    rw [(hbs b hb).2.1] at hty
    cases hty

theorem gives_definition (hscope : scope.Guards cfg) (name : String) (ty body : TermId) :
    cfg.Gives (translateDefinition cfg s render scope name ty body) cfg.WritesDecl := by
  unfold translateDefinition
  dsimp only
  split
  · refine gives_bind (gives_term hrender hscope ty) fun type htype => ?_
    refine gives_bind (gives_lifted hrender hscope body) fun value hvalue => ?_
    exact gives_pure ⟨by simp, by simpa using htype, hvalue⟩
  · refine gives_bind (gives_bindParams hrender hscope _) ?_
    rintro ⟨params, inner⟩ ⟨hparams, hinner⟩
    refine gives_bind (gives_term hrender hinner _) fun type htype => ?_
    refine gives_bind (gives_lifted hrender hinner _) fun value hvalue => ?_
    exact gives_pure ⟨hparams, by simpa using htype, hvalue⟩

/-- A constant is declared in a unit of its own, whatever scope it is met in. -/
theorem gives_declaration (name : String) (ty : TermId) (body : Option TermId) :
    cfg.Gives (declaration cfg s render name ty body) cfg.WritesDecl := by
  refine gives_bind gives_get fun e _ => ?_
  cases body with
  | some body => exact gives_definition hrender (guards_ofUnit cfg e s _) name ty body
  | none =>
      refine gives_bind (gives_term hrender (guards_ofUnit cfg e s _) ty) fun type htype => ?_
      exact gives_pure htype

theorem gives_declareConstant (ident : Ident) (ty : TermId) (body : Option TermId) :
    cfg.Gives (declareConstant cfg s render ident ty body) fun _ => True := by
  have hdeclare : ∀ name, cfg.Gives (do
      let d ← declaration cfg s render name ty body
      modify (Emission.push d)) fun _ => True := by
    intro name
    refine gives_bind (gives_declaration hrender name ty body) fun d hd => ?_
    exact ensures_modify (addsWritten_push hd)
  rw [declareConstant_eq]
  refine gives_bind gives_get fun e _ => ?_
  split
  · exact gives_pure trivial
  · split
    · have hhandle : ∀ e, cfg.AddsWritten e (e.handle ident) :=
        (composes_addsWritten cfg).refl
      refine gives_bind (ensures_modify hhandle) fun _ _ => ?_
      unfold provide
      split
      · exact gives_pure trivial
      · exact ensures_modify (addsWritten_push trivial)
      · exact hdeclare _
      · exact hdeclare _
    · exact ensures_throw

/-! ### Names, applications and data -/

theorem gives_mkApp (hscope : scope.Guards cfg) {fn : Expr} (hfn : cfg.Writes fn)
    (args : List TermId) :
    cfg.Gives (do return .mkApp fn (← translateTerms render scope args)) cfg.Writes := by
  refine gives_bind (gives_terms hrender hscope args) ?_
  rintro es ⟨-, hes⟩
  exact gives_pure (.mkApp hfn hes)

theorem gives_ident (hscope : scope.Guards cfg) (ident : Ident) (args : List TermId) :
    cfg.Gives (translateIdent cfg render scope ident args) cfg.Writes := by
  unfold translateIdent
  split
  · exact gives_mkApp hrender hscope (.var _) args
  · refine gives_mkApp hrender hscope ?_ args
    split
    · exact .explicitVar _
    · exact .var _
  · rename_i arity template hsite
    by_cases hfew : args.length < arity
    · rw [if_pos hfew]
      exact gives_bind (Q := fun _ => False) ensures_throw fun _ h => h.elim
    · rw [if_neg hfew]
      -- The template stands on as many arguments as it asks for, the others behind it.
      refine gives_bind (gives_terms hrender hscope _) ?_
      rintro front ⟨hlength, hfront⟩
      have harity : front.length = arity := by
        rw [hlength, List.length_take]
        omega
      have hinstance : cfg.Writes (template.instantiate front) :=
        .instantiate ⟨ident, harity ▸ hsite⟩ hfront
      exact gives_mkApp hrender hscope hinstance _

theorem gives_constant (hscope : scope.Guards cfg) (ident : Ident) (ty : TermId)
    (body : Option TermId) (args : List TermId) :
    cfg.Gives (translateConstant cfg s render scope ident ty body args) cfg.Writes :=
  gives_bind (gives_declareConstant hrender ident ty body) fun _ _ =>
    gives_ident hrender hscope ident args

theorem gives_conditional (hscope : scope.Guards cfg) (c t e : TermId) (rest : List TermId) :
    cfg.Gives (translateConditional render scope c t e rest) cfg.Writes := by
  refine gives_bind (gives_term hrender hscope c) fun c' hc => ?_
  refine gives_bind (gives_term hrender hscope t) fun t' ht => ?_
  refine gives_bind (gives_term hrender hscope e) fun e' he => ?_
  exact gives_mkApp hrender hscope (.ite hc ht he) rest

theorem gives_app (hscope : scope.Guards cfg) (id : TermId) :
    cfg.Gives (translateApp cfg s render scope id) cfg.Writes := by
  unfold translateApp
  dsimp only
  split
  · split
    · split
      · exact gives_conditional hrender hscope _ _ _ _
      · exact gives_ident hrender hscope _ _
    · exact gives_ident hrender hscope _ _
  · exact gives_constant hrender hscope _ _ _ _
  · refine gives_bind (gives_term hrender hscope _) fun fn hfn => ?_
    exact gives_mkApp hrender hscope hfn _

theorem gives_fields (hscope : scope.Guards cfg) (cons nil : String)
    (fields : List (String × TermId)) :
    cfg.Gives (translateFields render scope cons nil fields) cfg.Writes := by
  induction fields with
  | nil => exact gives_pure (.var nil)
  | cons p rest ih =>
      refine gives_bind (gives_term hrender hscope p.2) fun value hvalue => ?_
      refine gives_bind ih fun tail htail => ?_
      have hargs : ∀ a ∈ [Expr.string p.1, value, tail], cfg.Writes a := by
        simpa using ⟨.string p.1, hvalue, htail⟩
      exact gives_pure (.mkApp (.var cons) hargs)

theorem gives_array (hscope : scope.Guards cfg) (elemType : TermId) (elems : List TermId) :
    cfg.Gives (translateArray cfg s render scope elemType elems) cfg.Writes := by
  unfold translateArray
  split
  · rename_i bits _
    have hargs : ∀ a ∈ [Expr.nat bits.length, .nat (bitsValue bits)], cfg.Writes a := by
      simpa using ⟨.nat bits.length, .nat (bitsValue bits)⟩
    exact gives_pure (.mkApp (.var _) hargs)
  · refine gives_bind (gives_terms hrender hscope elems) ?_
    rintro es ⟨-, hes⟩
    exact gives_pure (.mkApp (.var _) (by simpa using Expr.Written.list hes))

theorem gives_case (hscope : scope.Guards cfg) (cases : List (Ident × TermId))
    (ctor : Ident) : cfg.Gives (translateCase cfg render scope cases ctor) cfg.Writes := by
  unfold translateCase
  split
  · exact gives_term hrender hscope _
  · split
    · exact ensures_throw
    · exact gives_pure (.mkApp (.var "error") (by simpa using Expr.Written.string _))

theorem gives_recursor (hscope : scope.Guards cfg) (datatype : Ident) (params : List TermId)
    (motive : TermId) (order : List Ident) (cases : List (Ident × TermId)) :
    cfg.Gives (translateRecursor cfg render scope datatype params motive order cases)
      cfg.Writes := by
  unfold translateRecursor
  split
  · exact ensures_throw
  · refine gives_bind (gives_terms hrender hscope params) ?_
    rintro ps ⟨-, hps⟩
    refine gives_bind (gives_term hrender hscope motive) fun m hm => ?_
    refine gives_bind (gives_mapM fun ctor _ => gives_case hrender hscope cases ctor) ?_
    rintro cs ⟨-, hcs⟩
    refine gives_pure (.mkApp (.var _) ?_)
    exact List.forall_mem_append.mpr ⟨hps, List.forall_mem_cons.mpr ⟨hm, hcs⟩⟩

theorem gives_step (hscope : scope.Guards cfg) (id : TermId) :
    cfg.Gives (translateStep cfg s render scope id) cfg.Writes := by
  unfold translateStep
  cases s.node id with
  | global ident => exact gives_ident hrender hscope ident []
  | constant ident ty body => exact gives_constant hrender hscope ident ty body []
  | free x _ => exact gives_pure (.var _)
  | bound i =>
      dsimp only
      split
      · exact gives_pure (.var _)
      · exact ensures_throw
  | sort level _ => exact gives_pure (.sort level)
  | nat n => exact gives_pure (.nat n)
  | string t => exact gives_pure (.string t)
  | bool _ | unit | unitType => exact gives_pure (.var _)
  | app _ _ => exact gives_app hrender hscope id
  | pair a b | pairType a b => exact gives_mkApp hrender hscope (.var _) [a, b]
  | pairLeft a | pairRight a => exact gives_mkApp hrender hscope (.var _) [a]
  | recordType fields | record fields => exact gives_fields hrender hscope _ _ _
  | proj r field =>
      refine gives_bind (gives_term hrender hscope r) fun e he => ?_
      have hargs : ∀ a ∈ [e, .string field], cfg.Writes a := by
        simpa using ⟨he, .string field⟩
      exact gives_pure (.mkApp (.var _) hargs)
  | array elemType elems => exact gives_array hrender hscope elemType elems
  | data ident params args | ctor ident params args =>
      exact gives_ident hrender hscope ident (params ++ args)
  | recursor datatype params motive order cases =>
      exact gives_recursor hrender hscope datatype params motive order cases
  | lam _ _ _ => exact gives_lam hrender hscope id
  | pi _ _ _ => exact gives_pi hrender hscope id
  | letIn x ty value body => exact gives_let hrender hscope x ty value body
  | fix x _ _ => exact ensures_throw

end Steps

/-! ## Nodes, calls and module passes -/

section Calls

variable {cfg : Config} {s : Store} {e e' : Emission}

/-- A node is translated to an expression in which binders have valid names. -/
theorem gives_translateNode {scope : Scope} (hscope : scope.Guards cfg) (id : TermId) :
    cfg.Gives (cfg.translateNode s scope id) cfg.Writes := by
  induction id using Nat.strong_induction_on generalizing scope with
  | _ id ih =>
      rw [translateNode_eq]
      refine gives_step (fun {scope} hscope c => ?_) hscope id
      unfold Config.renderBelow
      split
      · exact ih c ‹_› hscope
      · exact gives_pure (.sort 0)

theorem Config.AddsWritten.declarationsFrom (h : cfg.AddsWritten e e') :
    ∀ d ∈ e'.declarationsFrom e.declarations.size, cfg.WritesDecl d := by
  obtain ⟨ds, hds, hall⟩ := h
  rw [Emission.declarationsFrom_eq hds]
  exact hall

/-- What a call gives and what it adds. -/
theorem perform_writes {call : ModuleCall} {r : ModuleResult}
    (h : cfg.perform e call = (.ok r, e')) : cfg.WritesResult r ∧ cfg.AddsWritten e e' := by
  cases call with
  | translate s root =>
      obtain ⟨t, hcall, rfl⟩ := perform_translate_eq_ok h
      obtain ⟨hrun, hdecls⟩ := run_of_translate_eq_ok hcall
      obtain ⟨hadds, hterm⟩ := gives_lifted gives_translateNode (guards_ofUnit cfg e s [root])
        root e t.term e' trivial hrun
      refine ⟨⟨hterm, ?_⟩, hadds⟩
      rw [hdecls]
      exact hadds.declarationsFrom
  | define s name ty body =>
      obtain ⟨d, hcall, rfl⟩ := perform_define_eq_ok h
      obtain ⟨e₂, hrun, rfl⟩ := run_of_define_eq_ok hcall
      obtain ⟨hadds, hd⟩ := gives_definition gives_translateNode
        (guards_ofUnit cfg e s [ty, body]) (escape name) ty body e d e₂ trivial hrun
      exact ⟨hd, (composes_addsWritten cfg).trans hadds (addsWritten_push hd e₂)⟩

/-- What the calls of a module pass give and what they add. -/
theorem performAll_writes (cfg : Config) (calls : List ModuleCall) (e : Emission) :
    (∀ r, .ok r ∈ (cfg.performAll e calls).1 → cfg.WritesResult r) ∧
      cfg.AddsWritten e (cfg.performAll e calls).2 := by
  induction calls generalizing e with
  | nil => exact ⟨by simp [Config.performAll], (composes_addsWritten cfg).refl e⟩
  | cons call calls ih =>
      rcases h : cfg.perform e call with ⟨err | r, e₁⟩ <;> rw [performAll_cons h]
      · -- A call that fails leaves nothing behind.
        obtain rfl := perform_error h
        obtain ⟨hresults, hadds⟩ := ih e₁
        refine ⟨?_, hadds⟩
        simpa using hresults
      · obtain ⟨hr, hfirst⟩ := perform_writes h
        obtain ⟨hresults, hrest⟩ := ih e₁
        refine ⟨?_, (composes_addsWritten cfg).trans hfirst hrest⟩
        simpa using ⟨hr, hresults⟩

end Calls

/-- Every chosen name is valid.  Any text is turned into an output name, which is left as it
is the second time, and all variants of it are output names.  So in whatever a module pass
gives and declares, each binder outside of the instances of templates has an output name that
is no reserved word, no name of a term former and no name that the options reserve.  All other
binders have names that a template binds. -/
theorem chosen_names_valid :
    (∀ text, IsOutputName (sanitize text) ∧ sanitize (sanitize text) = sanitize text ∧
      ∀ k, IsOutputName (nextVariant^[k] (sanitize text))) ∧
    ∀ (cfg : Config) (seeded : List Ident) (calls : List ModuleCall),
      let (results, e) := cfg.performAll (.startingWith seeded) calls
      (∀ r, .ok r ∈ results → cfg.WritesResult r ∧
        ∀ x ∈ r.binderNames, cfg.IsBinderName x ∨ cfg.IsTemplateBinder x) ∧
      ∀ d ∈ e.declarations, cfg.WritesDecl d ∧
        ∀ x ∈ d.binderNames, cfg.IsBinderName x ∨ cfg.IsTemplateBinder x := by
  constructor
  · intro text
    have hout := isOutputName_sanitize text
    exact ⟨hout, sanitize_eq_self hout, isOutputName_iterate hout⟩
  · intro cfg seeded calls
    obtain ⟨hresults, ds, hds, hall⟩ := performAll_writes cfg calls (.startingWith seeded)
    rcases hrun : cfg.performAll (.startingWith seeded) calls with ⟨results, e⟩
    rw [hrun] at hresults hds
    constructor
    · intro r hr
      have hwrites := hresults r hr
      exact ⟨hwrites, fun x hx => hwrites.of_mem_binderNames hx⟩
    · intro d hd
      -- A module pass starts without declarations.
      have hmem : d ∈ ds := by
        rw [← Array.mem_toList_iff, hds] at hd
        simpa [Emission.startingWith] using hd
      exact ⟨hall d hmem, fun x hx => (hall d hmem).of_mem_binderNames hx⟩

theorem untreated_not_isTemplateBinder (x : String) : ¬ untreated.IsTemplateBinder x := by
  rintro ⟨arity, template, ⟨ident, hsite⟩, -⟩
  rw [untreated_useSite] at hsite
  cases hsite

/-- Two functions whose arguments would be called like other things, and a hypothesis for the
type that one of them binds. -/
theorem namesakes_names_valid :
    ∃ t e, untreated.performAll (.startingWith []) [.translate namesakes 4] =
        ([.ok (.term t)], e) ∧ t.term.resolve [] = namesakesOutline ∧
      untreated.Writes t.term ∧ ∀ x ∈ t.term.binderNames, untreated.IsBinderName x := by
  obtain ⟨t, e, hrun⟩ := translate_succeeds untreated_bindsNothing
    (namesakes_outline Emission.empty.isHandled)
  obtain ⟨⟨r, hr, hread⟩, -⟩ :=
    translate_reads (unitsSafe_scoped untreated_bindsNothing) hrun
  rw [Config.meaning, namesakes_outline] at hr
  cases hr
  have hall : untreated.performAll (.startingWith []) [.translate namesakes 4] =
      ([.ok (.term t)], e) := by
    have hstart : Emission.startingWith [] = .empty := rfl
    simp [Config.performAll, Config.perform, hstart, hrun, Except.map]
  have h := chosen_names_valid.2 untreated [] [.translate namesakes 4]
  rw [hall] at h
  obtain ⟨hwrites, hnames⟩ := h.1 (.term t) (by simp)
  refine ⟨t, e, hall, hread.resolve_eq, hwrites.1, fun x hx => ?_⟩
  rcases hnames x (List.mem_append_left _ hx) with hvalid | htemplate
  · exact hvalid
  · exact absurd htemplate (untreated_not_isTemplateBinder x)

end TermGraph
