import Mathlib
import TermGraph.Proofs.Translate.Mentions
import TermGraph.Proofs.Translate.Units

/-!
# A run deals with what it mentions

A translation that does not fail has met every position that its target tree is built from,
so it has dealt with every constant that the term mentions.  A subterm with a name is not
looked into where the name stands; it is met where the name is bound.

`Visits R F m Q` says what a run of `m` leaves behind: emissions related by `R`, and `Q` of
the value as soon as `F` has all identifiers that are dealt with by the end.  The set is the
same for all pieces of a run, so what holds after the first piece still holds after the last.
-/

namespace TermGraph

open Target Store

/-! ## Runs -/

/-- A relation of emissions that composes along runs, and along which no identifier is
forgotten. -/
structure Accumulates (R : Emission → Emission → Prop) : Prop where
  refl : ∀ e, R e e
  trans : ∀ {a b c}, R a b → R b c → R a c
  keeps : ∀ {a b ident}, R a b → a.isHandled ident = true → b.isHandled ident = true

/-- What a run that does not fail leaves behind. -/
def Visits {α : Type} (R : Emission → Emission → Prop) (F : Ident → Prop) (m : Emit α)
    (Q : α → Prop) : Prop :=
  ∀ e a e', m.run e = .ok (a, e') →
    R e e' ∧ ((∀ ident, e'.isHandled ident = true → F ident) → Q a)

section Visits

variable {α β : Type} {R : Emission → Emission → Prop} {F : Ident → Prop} {m : Emit α}
  {Q Q' : α → Prop} {P : β → Prop}

theorem Visits.imp (h : Visits R F m Q) (hQ : ∀ a, Q a → Q' a) : Visits R F m Q' :=
  fun e a e' hrun => ⟨(h e a e' hrun).1, fun hF => hQ a ((h e a e' hrun).2 hF)⟩

theorem Visits.relax {R' : Emission → Emission → Prop} (h : Visits R F m Q)
    (hR : ∀ e e', R e e' → R' e e') : Visits R' F m Q :=
  fun e a e' hrun => ⟨hR e e' (h e a e' hrun).1, (h e a e' hrun).2⟩

theorem visits_pure (hR : Accumulates R) {a : α} (h : Q a) : Visits R F (pure a) Q := by
  intro e b e' hrun
  cases hrun
  exact ⟨hR.refl e, fun _ => h⟩

theorem visits_throw {err : TranslateError} : Visits R F (throw err : Emit α) Q := by
  intro e a e' hrun
  cases hrun

theorem visits_get (hR : Accumulates R) : Visits R F (get : Emit Emission) fun _ => True := by
  intro e a e' hrun
  cases hrun
  exact ⟨hR.refl e, fun _ => trivial⟩

/-- What the first piece leaves behind is known of the rest. -/
theorem visits_bind (hR : Accumulates R) {f : α → Emit β} (hm : Visits R F m Q)
    (hf : ∀ a, Visits R F (f a) fun b => Q a → P b) : Visits R F (m >>= f) P := by
  intro e b e' hrun
  obtain ⟨a, e₁, hfirst, hsecond⟩ := run_bind_eq_ok.mp hrun
  obtain ⟨hR₁, hQ⟩ := hm e a e₁ hfirst
  obtain ⟨hR₂, hP⟩ := hf a e₁ b e' hsecond
  refine ⟨hR.trans hR₁ hR₂, fun hF => hP hF (hQ fun ident h => hF ident (hR.keeps hR₂ h))⟩

theorem visits_mapM (hR : Accumulates R) {f : α → Emit β} {Q : α → Prop} {as : List α}
    (h : ∀ a ∈ as, Visits R F (f a) fun _ => Q a) :
    Visits R F (as.mapM f) fun _ => ∀ a ∈ as, Q a := by
  induction as with
  | nil => exact visits_pure hR (by simp)
  | cons a as ih =>
      obtain ⟨ha, has⟩ := List.forall_mem_cons.mp h
      rw [List.mapM_cons]
      refine visits_bind hR ha fun _ => visits_bind hR (ih has) fun _ => visits_pure hR ?_
      exact fun hrest hfirst => List.forall_mem_cons.mpr ⟨hfirst, hrest⟩

end Visits

/-- What the named subterms below a limit mention belongs to a set. -/
def Supplied (s : Store) (F : Ident → Prop) (scope : Scope) (limit : TermId) : Prop :=
  ∀ k ∈ scope.shared, k < limit → s.Covered F k

theorem Supplied.of_shared {s : Store} {F : Ident → Prop} {scope scope' : Scope}
    {limit : TermId} (h : Supplied s F scope limit) (heq : scope'.shared = scope.shared) :
    Supplied s F scope' limit := by
  unfold Supplied
  rw [heq]
  exact h

theorem Scope.shared_freshMany (scope : Scope) (base : String) (n : Nat) :
    (scope.freshMany base n).2.shared = scope.shared := by
  induction n generalizing scope with
  | zero => rfl
  | succ n ih => exact ih (scope.fresh base).2

theorem Scope.length_freshMany (scope : Scope) (base : String) (n : Nat) :
    (scope.freshMany base n).1.length = n := by
  induction n generalizing scope with
  | zero => rfl
  | succ n ih => exact congrArg (· + 1) (ih (scope.fresh base).2)

theorem Scope.of_mem_share {scope : Scope} {named : List (TermId × String)} {k : TermId}
    (h : k ∈ (scope.share named).shared) : k ∈ scope.shared ∨ ∃ p ∈ named, p.1 = k := by
  rw [Scope.share, Std.HashMap.mem_insertMany_list] at h
  rcases h with h | h
  · exact Or.inl h
  · exact Or.inr (by simpa using h)

/-- The elements of a word are literals. -/
theorem exists_bool_of_literalBits? {s : Store} {elemType a : TermId} {elems : List TermId}
    {bits : List Bool} (h : literalBits? s elemType elems = some bits) (ha : a ∈ elems) :
    ∃ b, s.node a = .bool b := by
  obtain ⟨values, hvalues, -⟩ := Option.bind_eq_some_iff.mp h
  have hsome : ∃ b, s.asBool? a = some b := by
    clear h
    induction elems generalizing values with
    | nil => cases ha
    | cons c rest ih =>
        rw [List.mapM_cons] at hvalues
        obtain ⟨b, hb, hrest⟩ := Option.bind_eq_some_iff.mp hvalues
        obtain ⟨bs, hbs, -⟩ := Option.bind_eq_some_iff.mp hrest
        rcases List.mem_cons.mp ha with rfl | ha
        · exact ⟨b, hb⟩
        · exact ih ha bs hbs
  obtain ⟨b, hb⟩ := hsome
  unfold asBool? at hb
  split at hb
  · exact ⟨_, ‹_›⟩
  · cases hb

/-! ## The steps of a translation -/

section Steps

variable {cfg : Config} {s : Store} {render : Render} {R : Emission → Emission → Prop}
  {F : Ident → Prop} {limit : TermId} (hR : Accumulates R)
  (hrender : ∀ scope, ∀ c < limit,
    Visits R F (render scope c) fun _ => Supplied s F scope c → s.Covered F c)

include hR hrender

theorem visits_term (scope : Scope) {id : TermId} (hlt : id < limit) :
    Visits R F (translateTerm render scope id) fun _ =>
      Supplied s F scope limit → s.Covered F id := by
  unfold translateTerm
  split
  · rename_i x hname
    refine visits_pure hR fun h => h id ?_ hlt
    rw [Std.HashMap.mem_iff_isSome_getElem?, hname]
    rfl
  · refine (hrender scope id hlt).imp fun _ hvalue h => hvalue fun k hk hkid => ?_
    exact h k hk (hkid.trans hlt)

theorem visits_terms (scope : Scope) {ids : List TermId} (hlt : ∀ id ∈ ids, id < limit) :
    Visits R F (translateTerms render scope ids) fun _ =>
      Supplied s F scope limit → ∀ id ∈ ids, s.Covered F id :=
  (visits_mapM hR fun id hid => visits_term hR hrender scope (hlt id hid)).imp
    fun _ hall h id hid => hall id hid h

/-! ### Binders -/

theorem visits_bindDomains (scope : Scope) {domains : List (String × TermId)}
    (hlt : ∀ p ∈ domains, p.2 < limit) :
    Visits R F (bindDomains render scope domains) fun _ => True := by
  induction domains generalizing scope with
  | nil => exact visits_pure hR trivial
  | cons p rest ih =>
      obtain ⟨hp, hrest⟩ := List.forall_mem_cons.mp hlt
      refine visits_bind hR (visits_term hR hrender scope hp) fun _ => ?_
      exact visits_bind hR (ih _ hrest) fun _ => visits_pure hR fun _ _ => trivial

theorem visits_hypotheses (scope : Scope) (param : String) {ty : TermId} (hty : ty < limit)
    (classes : List (String × String)) :
    Visits R F (hypotheses s render scope param ty classes) fun r =>
      r.2.shared = scope.shared := by
  induction classes generalizing scope with
  | nil => exact visits_pure hR rfl
  | cons cls rest ih =>
      have hdomains : ∀ p ∈ (s.piChain ty).1, p.2 < limit := by
        intro p hp
        obtain ⟨j, hj⟩ := List.getElem?_of_mem hp
        exact ((s.within_piChain ty).1 j p hj).2.trans hty
      -- What a hypothesis is about is met at its binder, so nothing is asked of it here.
      have htype : Visits R F (hypothesisType s render scope param ty cls.2) fun _ => True := by
        refine visits_bind hR (visits_bindDomains hR hrender scope hdomains) fun _ => ?_
        dsimp only
        split <;> exact visits_pure hR fun _ => trivial
      refine visits_bind hR htype fun _ => visits_bind hR (ih _) fun r => visits_pure hR ?_
      exact fun hshared _ => hshared

theorem visits_bindNamed (scope : Scope) (x : String) {ty : TermId} (hty : ty < limit) :
    Visits R F (bindNamed s render scope x ty) fun r => r.2.2.shared = scope.shared :=
  visits_bind hR (visits_hypotheses hR hrender _ _ hty _) fun _ => visits_pure hR fun h => h

theorem visits_bindParams (scope : Scope) {params : List (String × TermId)}
    (hlt : ∀ p ∈ params, p.2 < limit) :
    Visits R F (bindParams s render scope params) fun r => r.2.shared = scope.shared ∧
      (Supplied s F scope limit → ∀ p ∈ params, s.Covered F p.2) := by
  induction params generalizing scope with
  | nil => exact visits_pure hR ⟨rfl, by simp⟩
  | cons p rest ih =>
      obtain ⟨hp, hrest⟩ := List.forall_mem_cons.mp hlt
      refine visits_bind hR (visits_term hR hrender scope hp) fun _ => ?_
      refine visits_bind hR (visits_bindNamed hR hrender scope p.1 hp) fun named => ?_
      -- A binder shadows names but names no subterm, so the supply stays the same.
      refine visits_bind hR (ih named.2.2 hrest) fun _ => visits_pure hR ?_
      rintro ⟨hinner, hall⟩ hshared hfirst
      refine ⟨hinner.trans hshared, fun h => List.forall_mem_cons.mpr ⟨hfirst h, ?_⟩⟩
      exact hall (h.of_shared hshared)

theorem visits_bindPis (scope : Scope) {layers : List Layer}
    (hlt : ∀ l ∈ layers, l.type < limit) :
    Visits R F (bindPis s render scope layers) fun r => r.2.shared = scope.shared ∧
      (Supplied s F scope limit → ∀ l ∈ layers, s.Covered F l.type) := by
  induction layers generalizing scope with
  | nil => exact visits_pure hR ⟨rfl, by simp⟩
  | cons l rest ih =>
      obtain ⟨hl, hrest⟩ := List.forall_mem_cons.mp hlt
      refine visits_bind hR (visits_term hR hrender scope hl) fun _ => ?_
      split
      · refine visits_bind hR (visits_bindNamed hR hrender scope l.name hl) fun named => ?_
        refine visits_bind hR (ih named.2.2 hrest) fun _ => visits_pure hR ?_
        rintro ⟨hinner, hall⟩ hshared hfirst
        refine ⟨hinner.trans hshared, fun h => List.forall_mem_cons.mpr ⟨hfirst h, ?_⟩⟩
        exact hall (h.of_shared hshared)
      · refine visits_bind hR (ih (scope.bind "_") hrest) fun _ => visits_pure hR ?_
        rintro ⟨hinner, hall⟩ hfirst
        exact ⟨hinner, fun h => List.forall_mem_cons.mpr ⟨hfirst h, hall h⟩⟩

theorem visits_lam (scope : Scope) {x : String} {ty b : TermId} {id : TermId}
    (hnode : s.node id = .lam x ty b) (hle : id ≤ limit) :
    Visits R F (translateLam s render scope id) fun _ =>
      Supplied s F scope limit → s.Covered F id := by
  have hplaces := lt_of_lamLayers hnode scope.isShared
  unfold translateLam
  generalize hlayers : s.lamLayers scope.isShared id = chain at hplaces
  obtain ⟨layers, body⟩ := chain
  refine visits_bind hR (visits_bindParams hR hrender scope ?_) fun inner => ?_
  · intro p hp
    obtain ⟨l, hl, rfl⟩ := List.mem_map.mp hp
    exact lt_of_lt_of_le (hplaces.1 l hl) hle
  refine visits_bind hR
    (visits_term hR hrender inner.2 (lt_of_lt_of_le hplaces.2 hle)) fun _ => visits_pure hR ?_
  rintro hbody ⟨hshared, hparams⟩ h
  refine covered_of_chain (s.chain_lamLayers scope.isShared id) ?_ ?_
  · rw [hlayers]
    exact fun l hl => hparams h (l.name, l.type) (List.mem_map_of_mem hl)
  · rw [hlayers]
    exact hbody (h.of_shared hshared)

theorem visits_pi (scope : Scope) {x : String} {ty b : TermId} {id : TermId}
    (hnode : s.node id = .pi x ty b) (hle : id ≤ limit) :
    Visits R F (translatePi s render scope id) fun _ =>
      Supplied s F scope limit → s.Covered F id := by
  have hplaces := lt_of_piLayers hnode scope.isShared
  unfold translatePi
  generalize hlayers : s.piLayers scope.isShared id = chain at hplaces
  obtain ⟨layers, body⟩ := chain
  refine visits_bind hR (visits_bindPis hR hrender scope fun l hl =>
    lt_of_lt_of_le (hplaces.1 l hl) hle) fun inner => ?_
  refine visits_bind hR
    (visits_term hR hrender inner.2 (lt_of_lt_of_le hplaces.2 hle)) fun _ => visits_pure hR ?_
  rintro hbody ⟨hshared, htypes⟩ h
  refine covered_of_chain (s.chain_piLayers scope.isShared id) ?_ ?_
  · rw [hlayers]
    exact htypes h
  · rw [hlayers]
    exact hbody (h.of_shared hshared)

theorem visits_let (scope : Scope) (x : String) {ty value b : TermId} (hty : ty < limit)
    (hvalue : value < limit) (hb : b < limit) :
    Visits R F (translateLet render scope x ty value b) fun _ =>
      Supplied s F scope limit → s.Covered F ty ∧ s.Covered F value ∧ s.Covered F b := by
  refine visits_bind hR (visits_term hR hrender scope hty) fun _ => ?_
  refine visits_bind hR (visits_term hR hrender scope hvalue) fun _ => ?_
  refine visits_bind hR (visits_term hR hrender _ hb) fun _ => ?_
  split <;> exact visits_pure hR fun hb hvalue hty h => ⟨hty h, hvalue h, hb h⟩

/-! ### Units -/

theorem visits_shareBindings (scope : Scope) {named : List (TermId × String)}
    (hlt : ∀ p ∈ named, p.1 < limit) :
    Visits R F (shareBindings render scope named) fun _ =>
      ∀ p ∈ named, Supplied s F scope p.1 → s.Covered F p.1 := by
  induction named with
  | nil => exact visits_pure hR (by simp)
  | cons p rest ih =>
      obtain ⟨hp, hrest⟩ := List.forall_mem_cons.mp hlt
      refine visits_bind hR (hrender scope p.1 hp) fun _ => visits_bind hR (ih hrest) fun _ => ?_
      exact visits_pure hR fun hall hfirst => List.forall_mem_cons.mpr ⟨hfirst, hall⟩

/-- A term with names for its shared subterms.  The values of older names are met before
those that refer to them, but they need not be: what a name stands for is older than any
term that shows the name. -/
theorem visits_lifted (scope : Scope) {root : TermId} (hlt : root < limit) :
    Visits R F (translateLifted cfg s render scope root) fun _ =>
      (∀ k, k ∉ scope.shared) → s.Covered F root := by
  unfold translateLifted
  dsimp only
  split
  · exact (visits_term hR hrender scope hlt).imp fun _ h hscope =>
      h fun k hk => absurd hk (hscope k)
  · generalize hpicked : scope.freshMany cfg.options.sharedNameBase _ = picked
    obtain ⟨names, inner⟩ := picked
    have hinner : inner.shared = scope.shared := by
      have := Scope.shared_freshMany scope cfg.options.sharedNameBase
        (cfg.namedTerms s root).length
      rwa [hpicked] at this
    dsimp only
    generalize hnamed : (cfg.namedTerms s root).zip names = named
    have hnamedlt : ∀ p ∈ named, p.1 < limit := by
      rintro ⟨k, x⟩ hp
      rw [← hnamed] at hp
      have hmem := (List.of_mem_zip hp).1
      exact lt_of_le_of_lt (Config.of_mem_namedTerms hmem).1.le hlt
    refine visits_bind hR (visits_shareBindings hR hrender (inner.share named) hnamedlt) fun _ => ?_
    refine visits_bind hR (visits_term hR hrender (inner.share named) hlt) fun _ => ?_
    refine visits_pure hR fun hroot hvalues hscope => hroot fun k hk hklt => ?_
    clear hklt
    have hshared : ∀ k ∈ (inner.share named).shared, ∃ p ∈ named, p.1 = k := by
      intro k hk
      rcases Scope.of_mem_share hk with hk | hk
      · rw [hinner] at hk
        exact absurd hk (hscope k)
      · exact hk
    induction k using Nat.strong_induction_on with
    | _ k ih =>
        obtain ⟨p, hp, rfl⟩ := hshared k hk
        exact hvalues p hp fun k' hk' hlt' => ih k' hlt' hk'

theorem visits_definition (scope : Scope) (name : String) {ty body : TermId}
    (hty : ty < limit) (hbody : body < limit) :
    Visits R F (translateDefinition cfg s render scope name ty body) fun _ =>
      (∀ k, k ∉ scope.shared) → ∀ c ∈ s.definitionParts ty body, s.Covered F c := by
  have hdomains : ∀ d ∈ (s.piChain ty).1.map (·.2), d < limit :=
    fun d hd => (lt_of_mem_piChain hd).trans hty
  have hcodomain := lt_of_le_of_lt (s.within_piChain ty).2.reaches.le hty
  have hinner := lt_of_le_of_lt (s.within_lamChain body).2.reaches.le hbody
  simp only [translateDefinition, definitionParts]
  split
  · refine visits_bind hR (visits_term hR hrender scope hty) fun _ => ?_
    refine visits_bind hR (visits_lifted hR hrender scope hbody) fun _ => visits_pure hR ?_
    intro hbody hty hscope
    simpa using ⟨hty fun k hk => absurd hk (hscope k), hbody hscope⟩
  · rename_i hcond
    have hlength := length_eq_of_params hcond
    have hparams := map_snd_zipWith_params hlength
    generalize List.zipWith _ (s.piChain ty).1 (s.lamChain body).1 = params at hparams ⊢
    rw [← hparams] at hdomains
    refine visits_bind hR (visits_bindParams hR hrender scope fun p hp =>
      hdomains p.2 (List.mem_map_of_mem hp)) fun bound => ?_
    refine visits_bind hR (visits_term hR hrender bound.2 hcodomain) fun _ => ?_
    refine visits_bind hR (visits_lifted hR hrender bound.2 hinner) fun _ => visits_pure hR ?_
    rintro hinner hcodomain ⟨hshared, htypes⟩ hscope
    have hsupplied : Supplied s F scope limit := fun k hk => absurd hk (hscope k)
    have hty : s.Covered F ty := by
      refine covered_of_piChain ty ?_ (hcodomain (hsupplied.of_shared hshared))
      rw [← hparams]
      intro d hd
      obtain ⟨p, hp, rfl⟩ := List.mem_map.mp hd
      exact htypes hsupplied p hp
    simpa using ⟨hty, hinner (hshared ▸ hscope)⟩

theorem visits_declaration (name : String) {ty : TermId} {body : Option TermId}
    (hlt : ∀ c ∈ ty :: body.toList, c < limit) :
    Visits R F (declaration cfg s render name ty body) fun _ =>
      ∀ c ∈ s.declarationParts ty body, s.Covered F c := by
  have hty := hlt ty (by simp)
  refine visits_bind hR (visits_get hR) fun e => ?_
  have hscope : ∀ k, k ∉ (Scope.ofUnit cfg e s (ty :: body.toList)).shared :=
    fun k => Std.HashMap.not_mem_empty
  cases body with
  | some body =>
      exact (visits_definition hR hrender _ name hty (hlt body (by simp))).imp
        fun _ h _ => h hscope
  | none =>
      refine visits_bind hR (visits_term hR hrender _ hty) fun _ => visits_pure hR ?_
      intro hcovered _
      simpa [declarationParts] using hcovered fun k hk => absurd hk (hscope k)

/-! ### Names and applications -/

theorem visits_ident (scope : Scope) (ident : Ident) {args : List TermId}
    (hlt : ∀ a ∈ args, a < limit) :
    Visits R F (translateIdent cfg render scope ident args) fun _ =>
      Supplied s F scope limit → ∀ a ∈ args, s.Covered F a := by
  have hall := visits_terms hR hrender scope hlt
  unfold translateIdent
  split
  · exact visits_bind hR hall fun _ => visits_pure hR fun h => h
  · exact visits_bind hR hall fun _ => visits_pure hR fun h => h
  · rename_i arity template _
    have hrest : Visits R F (do
        let front ← translateTerms render scope (args.take arity)
        let rest ← translateTerms render scope (args.drop arity)
        return Expr.mkApp (template.instantiate front) rest) fun _ =>
          Supplied s F scope limit → ∀ a ∈ args, s.Covered F a := by
      refine visits_bind hR (visits_terms hR hrender scope fun a ha =>
        hlt a (List.mem_of_mem_take ha)) fun _ => ?_
      refine visits_bind hR (visits_terms hR hrender scope fun a ha =>
        hlt a (List.mem_of_mem_drop ha)) fun _ => visits_pure hR ?_
      intro hback hfront h a ha
      rw [← List.take_append_drop arity args] at ha
      exact (List.mem_append.mp ha).elim (hfront h a) (hback h a)
    split
    · exact visits_bind hR (visits_throw (Q := fun _ => True)) fun _ => hrest.imp fun _ h _ => h
    · exact hrest

theorem visits_named (scope : Scope) (head : String) {args : List TermId}
    (hlt : ∀ a ∈ args, a < limit) :
    Visits R F (translateNamed render scope head args) fun _ =>
      Supplied s F scope limit → ∀ a ∈ args, s.Covered F a :=
  visits_bind hR (visits_terms hR hrender scope hlt) fun _ => visits_pure hR fun h => h

theorem visits_conditional (scope : Scope) {c t e : TermId} {rest : List TermId}
    (hlt : ∀ b ∈ c :: t :: e :: rest, b < limit) :
    Visits R F (translateConditional render scope c t e rest) fun _ =>
      Supplied s F scope limit → ∀ b ∈ c :: t :: e :: rest, s.Covered F b := by
  simp only [List.forall_mem_cons] at hlt ⊢
  obtain ⟨hc, ht, he, hrest⟩ := hlt
  refine visits_bind hR (visits_term hR hrender scope hc) fun _ => ?_
  refine visits_bind hR (visits_term hR hrender scope ht) fun _ => ?_
  refine visits_bind hR (visits_term hR hrender scope he) fun _ => ?_
  refine visits_bind hR (visits_terms hR hrender scope hrest) fun _ => visits_pure hR ?_
  exact fun hrest he ht hc h => ⟨hc h, ht h, he h, hrest h⟩

theorem visits_constant (scope : Scope) {ident : Ident} {ty : TermId} {body : Option TermId}
    (hdeclare : Visits R F (declareConstant cfg s render ident ty body) fun _ => F ident)
    {args : List TermId} (hlt : ∀ a ∈ args, a < limit) :
    Visits R F (translateConstant cfg s render scope ident ty body args) fun _ =>
      F ident ∧ (Supplied s F scope limit → ∀ a ∈ args, s.Covered F a) :=
  visits_bind hR hdeclare fun _ =>
    (visits_ident hR hrender scope ident hlt).imp fun _ hargs hident => ⟨hident, hargs⟩

theorem visits_app (scope : Scope) {id f a : TermId} (hnode : s.node id = .app f a)
    (hle : id ≤ limit)
    (hdeclare : ∀ c ident ty body, s.node c = .constant ident ty body → c ≤ limit →
      Visits R F (declareConstant cfg s render ident ty body) fun _ => F ident) :
    Visits R F (translateApp cfg s render scope id) fun _ =>
      Supplied s F scope limit → s.Covered F id := by
  obtain ⟨hhead, hargs⟩ := strictlyWithin_spineUntil hnode scope.isShared
  unfold translateApp
  generalize hspine : s.spineUntil scope.isShared id = spine at hhead hargs
  obtain ⟨head, args⟩ := spine
  dsimp only at hhead hargs ⊢
  have hlt : ∀ b ∈ args, b < limit := fun b hb => lt_of_lt_of_le (hargs b hb).2 hle
  have hpieces (hhead : s.Covered F head) (hargs : ∀ b ∈ args, s.Covered F b) :
      s.Covered F id :=
    covered_of_spineUntil scope.isShared (by rw [hspine]; exact hhead)
      (by rw [hspine]; exact hargs)
  have hheadlt : head < limit := lt_of_lt_of_le hhead.2 hle
  have hother : Visits R F (do
      let fn ← translateTerm render scope head
      return Expr.mkApp fn (← translateTerms render scope args)) fun _ =>
        Supplied s F scope limit → s.Covered F id := by
    refine visits_bind hR (visits_term hR hrender scope hheadlt) fun _ => ?_
    refine visits_bind hR (visits_terms hR hrender scope hlt) fun _ => visits_pure hR ?_
    exact fun hargs hhead h => hpieces (hhead h) (hargs h)
  cases hkind : s.node head with
  | global ident =>
      have hglobal : s.Covered F head := by
        rw [covered_iff, hkind]
        exact ⟨by simp, fun c hc => by cases hc⟩
      have hident : Visits R F (translateIdent cfg render scope ident args) fun _ =>
          Supplied s F scope limit → s.Covered F id :=
        (visits_ident hR hrender scope ident hlt).imp fun _ hall h => hpieces hglobal (hall h)
      dsimp only
      split
      · rename_i hite
        split
        · rename_i ty c t e rest
          refine (visits_conditional hR hrender scope fun b hb =>
            hlt b (List.mem_cons_of_mem ty hb)).imp fun _ hall h => ?_
          exact covered_of_conditional hspine (by rw [hkind, hite]) (hall h)
        · exact hident
      · exact hident
  | constant ident ty body =>
      refine (visits_constant hR hrender scope
        (hdeclare head ident ty body hkind hheadlt.le) hlt).imp ?_
      rintro _ ⟨hident, hall⟩ h
      exact hpieces (covered_constant hkind hident) (hall h)
  | _ => exact hother

/-! ### Data -/

theorem visits_fields (scope : Scope) (cons nil : String) {fields : List (String × TermId)}
    (hlt : ∀ p ∈ fields, p.2 < limit) :
    Visits R F (translateFields render scope cons nil fields) fun _ =>
      Supplied s F scope limit → ∀ p ∈ fields, s.Covered F p.2 := by
  induction fields with
  | nil => exact visits_pure hR (by simp)
  | cons p rest ih =>
      obtain ⟨hp, hrest⟩ := List.forall_mem_cons.mp hlt
      refine visits_bind hR (visits_term hR hrender scope hp) fun _ => ?_
      refine visits_bind hR (ih hrest) fun _ => visits_pure hR ?_
      exact fun hall hfirst h => List.forall_mem_cons.mpr ⟨hfirst h, hall h⟩

theorem visits_record (scope : Scope) (cons nil : String) {fields : List (String × TermId)}
    (hlt : ∀ p ∈ fields, p.2 < limit) :
    Visits R F (translateRecord render scope cons nil fields) fun _ =>
      Supplied s F scope limit → ∀ p ∈ fields, s.Covered F p.2 := by
  refine (visits_fields hR hrender scope cons nil fun p hp =>
    hlt p (List.mem_mergeSort.mp hp)).imp fun _ hall h p hp => ?_
  exact hall h p (List.mem_mergeSort.mpr hp)

/-- Literals do not mention constants, so nothing is lost where they become one word. -/
theorem visits_array (scope : Scope) (elemType : TermId) {elems : List TermId}
    (hlt : ∀ a ∈ elems, a < limit) :
    Visits R F (translateArray cfg s render scope elemType elems) fun _ =>
      Supplied s F scope limit → ∀ a ∈ elems, s.Covered F a := by
  unfold translateArray
  split
  · rename_i bits hbits
    refine visits_pure hR fun _ a ha => ?_
    obtain ⟨b, hnode⟩ := exists_bool_of_literalBits? hbits ha
    rw [covered_iff, hnode]
    exact ⟨by simp, fun c hc => by cases hc⟩
  · exact visits_bind hR (visits_terms hR hrender scope hlt) fun _ => visits_pure hR fun h => h

theorem visits_case (scope : Scope) {cases : List (Ident × TermId)}
    (hlt : ∀ p ∈ cases, p.2 < limit) (ctor : Ident) :
    Visits R F (translateCase cfg render scope cases ctor) fun _ =>
      Supplied s F scope limit →
        ∀ c, (cases.find? fun p => p.1 = ctor).map (·.2) = some c → s.Covered F c := by
  unfold translateCase
  split
  · rename_i p hp
    refine (visits_term hR hrender scope (hlt p (List.mem_of_find?_eq_some hp))).imp ?_
    rintro _ hcovered h c hc
    rw [hp] at hc
    cases hc
    exact hcovered h
  · rename_i hnone
    have hempty : ∀ c, (cases.find? fun p => p.1 = ctor).map (·.2) = some c → s.Covered F c := by
      intro c hc
      rw [hnone] at hc
      cases hc
    split
    · exact visits_throw
    · exact visits_pure hR fun _ => hempty

theorem visits_recursor (scope : Scope) (datatype : Ident) {params : List TermId}
    {motive : TermId} {cases : List (Ident × TermId)} (hparams : ∀ a ∈ params, a < limit)
    (hmotive : motive < limit) (hcases : ∀ p ∈ cases, p.2 < limit) (order : List Ident) :
    Visits R F (translateRecursor cfg render scope datatype params motive order cases) fun _ =>
      Supplied s F scope limit →
        ∀ c ∈ s.shownParts (.recursor datatype params motive order cases), s.Covered F c := by
  unfold translateRecursor
  split
  · exact visits_throw
  · refine visits_bind hR (visits_terms hR hrender scope hparams) fun _ => ?_
    refine visits_bind hR (visits_term hR hrender scope hmotive) fun _ => ?_
    refine visits_bind hR (visits_mapM hR fun ctor _ =>
      visits_case hR hrender scope hcases ctor) fun _ => visits_pure hR ?_
    intro hctors hmotive hparams h c hc
    simp only [shownParts, List.mem_append, List.mem_cons, List.mem_filterMap] at hc
    rcases hc with hc | rfl | ⟨ctor, hctor, hc⟩
    · exact hparams h c hc
    · exact hmotive h
    · exact hctors ctor hctor h c hc

/-! ### Nodes -/

/-- Translating a node meets all that its target tree is built from. -/
theorem visits_step (scope : Scope) {id : TermId} (hid : id = limit)
    (hdeclare : ∀ c ident ty body, s.node c = .constant ident ty body → c ≤ limit →
      Visits R F (declareConstant cfg s render ident ty body) fun _ => F ident) :
    Visits R F (translateStep cfg s render scope id) fun _ =>
      Supplied s F scope limit → s.Covered F id := by
  subst hid
  have hlt : ∀ c ∈ (s.node id).children, c < id := fun c hc => s.lt_of_mem_children hc
  have hcovered : (∀ ident ty body, s.node id ≠ .constant ident ty body) →
      (∀ c ∈ s.shownParts (s.node id), s.Covered F c) → s.Covered F id :=
    fun hnot hparts =>
      covered_iff.mpr ⟨fun ident ty body h => absurd h (hnot ident ty body), hparts⟩
  unfold translateStep
  cases hnode : s.node id with
  | constant ident ty body =>
      refine (visits_constant hR hrender scope (hdeclare id ident ty body hnode le_rfl)
        (by simp)).imp ?_
      exact fun _ h _ => covered_constant hnode h.1
  | app f a => exact visits_app hR hrender scope hnode le_rfl hdeclare
  | lam x ty b => exact visits_lam hR hrender scope hnode le_rfl
  | pi x ty b => exact visits_pi hR hrender scope hnode le_rfl
  | fix x ty b => exact visits_throw
  | bound i =>
      rw [hnode] at hcovered
      dsimp only
      split
      · exact visits_pure hR fun _ => hcovered (by simp) fun c hc => by cases hc
      · exact visits_throw
  | free _ _ | sort _ _ | nat _ | string _ | bool _ | unit | unitType =>
      rw [hnode] at hcovered
      exact visits_pure hR fun _ => hcovered (by simp) fun c hc => by cases hc
  | global ident =>
      rw [hnode] at hcovered
      refine (visits_ident hR hrender scope ident (by simp)).imp fun _ _ _ => ?_
      exact hcovered (by simp) fun c hc => by cases hc
  | pair a b | pairType a b =>
      rw [hnode] at hlt hcovered
      exact (visits_named hR hrender scope _ hlt).imp fun _ hall h =>
        hcovered (by simp) (hall h)
  | pairLeft a | pairRight a =>
      rw [hnode] at hlt hcovered
      exact (visits_named hR hrender scope _ hlt).imp fun _ hall h =>
        hcovered (by simp) (hall h)
  | recordType fields | record fields =>
      rw [hnode] at hlt hcovered
      simp only [Node.children, Node.childrenWithDepth, List.map_map, List.mem_map,
        Function.comp_apply, forall_exists_index, and_imp, forall_apply_eq_imp_iff₂] at hlt
      refine (visits_record hR hrender scope _ _ hlt).imp fun _ hall h => ?_
      refine hcovered (by simp) fun c hc => ?_
      obtain ⟨p, hp, rfl⟩ : ∃ p ∈ fields, p.2 = c := by
        simpa [shownParts, renderedChildren, Node.children, Node.childrenWithDepth] using hc
      exact hall h p hp
  | proj r field =>
      rw [hnode] at hlt hcovered
      refine visits_bind hR (visits_term hR hrender scope (hlt r (by
        simp [Node.children, Node.childrenWithDepth]))) fun _ => visits_pure hR ?_
      refine fun hr h => hcovered (by simp) ?_
      simpa [shownParts, renderedChildren, Node.children, Node.childrenWithDepth] using hr h
  | array elemType elems =>
      rw [hnode] at hlt hcovered
      refine (visits_array hR hrender scope elemType fun a ha => hlt a ?_).imp fun _ hall h =>
        hcovered (by simp) (hall h)
      simp [Node.children, Node.childrenWithDepth, ha]
  | data ident params args | ctor ident params args =>
      rw [hnode] at hlt hcovered
      simp only [shownParts, renderedChildren, Node.children, Node.childrenWithDepth,
        List.map_append, List.map_map, Function.comp_def, List.map_id'] at hlt hcovered
      exact (visits_ident hR hrender scope ident hlt).imp fun _ hall h =>
        hcovered (by simp) (hall h)
  | recursor datatype params motive order cases =>
      rw [hnode] at hlt hcovered
      simp only [Node.children, Node.childrenWithDepth, List.map_append, List.map_cons,
        List.map_map, List.mem_append, List.mem_cons, List.mem_map, Function.comp_apply] at hlt
      refine (visits_recursor hR hrender scope datatype (fun a ha => hlt a (Or.inl ⟨a, ha, rfl⟩))
        (hlt motive (Or.inr (Or.inl rfl)))
        (fun p hp => hlt p.2 (Or.inr (Or.inr ⟨p, hp, rfl⟩))) order).imp ?_
      exact fun _ hall h => hcovered (by simp) (hall h)
  | letIn x ty value b =>
      rw [hnode] at hlt hcovered
      simp only [Node.children, Node.childrenWithDepth, List.map_cons, List.map_nil,
        List.forall_mem_cons] at hlt
      obtain ⟨hty, hvalue, hb, -⟩ := hlt
      refine (visits_let hR hrender scope x hty hvalue hb).imp fun _ hall h => ?_
      obtain ⟨hty, hvalue, hb⟩ := hall h
      refine hcovered (by simp) ?_
      simpa [shownParts, renderedChildren, Node.children, Node.childrenWithDepth]
        using ⟨hty, hvalue, hb⟩

end Steps

end TermGraph
