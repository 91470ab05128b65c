import Mathlib
import TermGraph.Proofs.Translate.Places

/-!
# A translation succeeds exactly when its term fits

`Decides I R m P Q` says that from every emission where `I` holds, `m` succeeds exactly if
`P` holds, and that it then leaves emissions related by `R` and a value with `Q`.  Each
step of the translation decides whether the terms that it is given fit their places.

Subterms with names are not looked into where their names stand.  This makes no difference
as long as they fit wherever they stand.
-/

namespace TermGraph

open Target Store

/-! ## Runs -/

/-- From every emission where something holds, a computation succeeds exactly if a
condition holds. -/
structure Decides {α : Type} (I : Emission → Prop) (R : Emission → Emission → Prop)
    (m : Emit α) (P : Prop) (Q : α → Prop) : Prop where
  ensures : Ensures I R m fun a => P ∧ Q a
  succeeds : P → Succeeds I m

section Decides

variable {α β : Type} {I : Emission → Prop} {R : Emission → Emission → Prop} {m : Emit α}
  {P T : Prop} {Q : α → Prop} {Q' : β → Prop}

theorem Decides.congr (h : Decides I R m P Q) (hP : P ↔ T) : Decides I R m T Q where
  ensures := h.ensures.imp fun _ ha => ⟨hP.mp ha.1, ha.2⟩
  succeeds := fun hT => h.succeeds (hP.mpr hT)

theorem Decides.imp {Q' : α → Prop} (h : Decides I R m P Q) (hQ : ∀ a, Q a → Q' a) :
    Decides I R m P Q' where
  ensures := h.ensures.imp fun a ha => ⟨ha.1, hQ a ha.2⟩
  succeeds := h.succeeds

theorem Decides.assume {I' : Emission → Prop} (h : Decides I R m P Q)
    (hI : ∀ e, I' e → I e) : Decides I' R m P Q where
  ensures := h.ensures.assume hI
  succeeds := fun hP e he => h.succeeds hP e (hI e he)

theorem decides_pure (hR : Composes I R) {a : α} (h : Q a) : Decides I R (pure a) True Q where
  ensures := ensures_pure hR ⟨trivial, h⟩
  succeeds := fun _ => succeeds_pure a

theorem decides_throw {err : TranslateError} : Decides I R (throw err : Emit α) False Q where
  ensures := ensures_throw
  succeeds := False.elim

theorem decides_get (hR : Composes I R) :
    Decides I R (get : Emit Emission) True fun _ => True where
  ensures := (ensures_get hR).imp fun _ _ => ⟨trivial, trivial⟩
  succeeds := fun _ => succeeds_get

theorem decides_modify {f : Emission → Emission} (h : ∀ e, R e (f e)) :
    Decides I R (modify f : Emit Unit) True fun _ => True where
  ensures := (ensures_modify h).imp fun _ _ => ⟨trivial, trivial⟩
  succeeds := fun _ => succeeds_modify f

/-- The second computation only has to decide where the first one has succeeded. -/
theorem decides_bind (hR : Composes I R) {f : α → Emit β} (hm : Decides I R m P Q)
    (hf : P → ∀ a, Q a → Decides I R (f a) T Q') : Decides I R (m >>= f) (P ∧ T) Q' where
  ensures := ensures_bind hR hm.ensures fun a ha =>
    (hf ha.1 a ha.2).ensures.imp fun _ hb => ⟨⟨ha.1, hb.1⟩, hb.2⟩
  succeeds := fun h => succeeds_bind hR (hm.succeeds h.1) hm.ensures fun a ha =>
    (hf ha.1 a ha.2).succeeds h.2

/-- What is done with a value at the end has no say in whether there is one. -/
theorem decides_map (hR : Composes I R) {f : α → β} (hm : Decides I R m P Q)
    (hf : P → ∀ a, Q a → Q' (f a)) : Decides I R (do return f (← m)) P Q' :=
  (decides_bind hR hm fun hP a ha => decides_pure hR (hf hP a ha)).congr (iff_of_eq (and_true P))

theorem decides_mapM (hR : Composes I R) {f : α → Emit β} {P : α → Prop} {as : List α}
    (h : ∀ a ∈ as, Decides I R (f a) (P a) fun _ => True) :
    Decides I R (as.mapM f) (∀ a ∈ as, P a) fun _ => True := by
  induction as with
  | nil => exact (decides_pure hR trivial).congr (by simp)
  | cons a as ih =>
      obtain ⟨ha, has⟩ := List.forall_mem_cons.mp h
      rw [List.mapM_cons]
      refine (decides_bind hR ha fun _ _ _ => ?_).congr (List.forall_mem_cons).symm
      exact decides_map hR (ih has) fun _ _ _ => trivial

end Decides

/-! ## Scopes -/

/-- The named subterms below a limit fit wherever they stand. -/
def Stocked (cfg : Config) (s : Store) (known : Ident → Bool) (scope : Scope)
    (limit : TermId) : Prop :=
  ∀ k ∈ scope.shared, k < limit →
    cfg.shouldName s k = true ∧ ∀ d, cfg.Fits s known ⟨k, d, 0⟩

/-- A scope under some more binders than another one, with the same named subterms. -/
structure Scope.Under (count : Nat) (scope scope' : Scope) : Prop where
  shared : scope'.shared = scope.shared
  depth : scope'.depth = scope.depth + count

theorem Scope.Under.stocked {cfg : Config} {s : Store} {known : Ident → Bool} {count : Nat}
    {scope scope' : Scope} {limit : TermId} (h : Scope.Under count scope scope')
    (hstock : Stocked cfg s known scope limit) : Stocked cfg s known scope' limit := by
  unfold Stocked
  rw [h.shared]
  exact hstock

theorem Scope.under_freshMany (scope : Scope) (base : String) (n : Nat) :
    Scope.Under 0 scope (scope.freshMany base n).2 := by
  induction n generalizing scope with
  | zero => exact ⟨rfl, rfl⟩
  | succ n ih =>
      have hunder := ih (scope.fresh base).2
      exact ⟨hunder.shared, hunder.depth⟩

/-! ## The steps of a translation -/

section Steps

variable {cfg : Config} {s : Store} {known : Ident → Bool} {render : Render}
  {I : Emission → Prop} {R : Emission → Emission → Prop} {top limit : TermId}
  (hR : Composes I R)
  (hrender : ∀ scope, ∀ c < limit, s.Reaches top c → Stocked cfg s known scope c →
    Decides I R (render scope c) (cfg.Fits s known ⟨c, scope.depth, 0⟩) fun _ => True)
  {scope : Scope} (hstock : Stocked cfg s known scope limit)

include hR hrender hstock

theorem decides_term {id : TermId} (hid : id < limit ∧ s.Reaches top id) :
    Decides I R (translateTerm render scope id) (cfg.Fits s known ⟨id, scope.depth, 0⟩)
      fun _ => True := by
  unfold translateTerm
  split
  · rename_i x hname
    have hmem : id ∈ scope.shared := by
      rw [Std.HashMap.mem_iff_isSome_getElem?, hname]
      rfl
    exact (decides_pure hR trivial).congr
      (iff_of_true trivial ((hstock id hmem hid.1).2 scope.depth))
  · exact hrender scope id hid.1 hid.2 fun k hk hlt => hstock k hk (hlt.trans hid.1)

theorem decides_terms {ids : List TermId}
    (hids : ∀ id ∈ ids, id < limit ∧ s.Reaches top id) :
    Decides I R (translateTerms render scope ids)
      (∀ id ∈ ids, cfg.Fits s known ⟨id, scope.depth, 0⟩) fun _ => True :=
  decides_mapM hR fun id hid => decides_term hR hrender hstock (hids id hid)

/-! ### Binders -/

theorem decides_bindDomains {domains : List (String × TermId)}
    (hdomains : ∀ p ∈ domains, p.2 < limit ∧ s.Reaches top p.2) :
    Decides I R (bindDomains render scope domains)
      (cfg.FitsAlong s known scope.depth (domains.map (·.2))) fun _ => True := by
  induction domains generalizing scope with
  | nil => exact decides_pure hR trivial
  | cons p rest ih =>
      obtain ⟨hp, hrest⟩ := List.forall_mem_cons.mp hdomains
      refine decides_bind hR (decides_term hR hrender hstock hp) fun _ _ _ => ?_
      have hinside : Scope.Under 1 scope ((scope.fresh p.1).2.bind (scope.fresh p.1).1) :=
        ⟨rfl, rfl⟩
      exact decides_map hR (ih (hinside.stocked hstock) hrest) fun _ _ _ => trivial

/-- The hypotheses of a parameter are about its type, so they have a translation as soon as
the type has one. -/
theorem decides_hypotheses (param : String) {ty : TermId}
    (hty : ty < limit ∧ s.Reaches top ty) (hfits : cfg.Fits s known ⟨ty, scope.depth, 0⟩)
    (classes : List (String × String)) :
    Decides I R (hypotheses s render scope param ty classes) True fun r =>
      Scope.Under 0 scope r.2 := by
  induction classes generalizing scope with
  | nil => exact decides_pure hR ⟨rfl, rfl⟩
  | cons cls rest ih =>
      have hdomains : ∀ p ∈ (s.piChain ty).1, p.2 < limit ∧ s.Reaches top p.2 := by
        intro p hp
        obtain ⟨j, hj⟩ := List.getElem?_of_mem hp
        have hwithin := (s.within_piChain ty).1 j p hj
        exact ⟨hwithin.2.trans hty.1, hty.2.trans hwithin.1.reaches⟩
      have htype : Decides I R (hypothesisType s render scope param ty cls.2) True
          fun _ => True := by
        refine (decides_bind hR (decides_bindDomains hR hrender hstock hdomains) (T := True)
          fun _ _ _ => ?_).congr (by simp [((fits_iff_piChain ty scope.depth).mp hfits).1])
        dsimp only
        split <;> exact decides_pure hR trivial
      refine (decides_bind hR htype fun _ _ _ => ?_).congr (iff_of_eq (true_and True))
      have hinside : Scope.Under 0 scope (scope.fresh (cls.1 ++ "_" ++ param)).2 := ⟨rfl, rfl⟩
      exact decides_map hR (ih (hinside.stocked hstock) hfits) fun _ _ h => ⟨h.shared, h.depth⟩

theorem decides_bindNamed (x : String) {ty : TermId} (hty : ty < limit ∧ s.Reaches top ty)
    (hfits : cfg.Fits s known ⟨ty, scope.depth, 0⟩) :
    Decides I R (bindNamed s render scope x ty) True fun r => Scope.Under 1 scope r.2.2 := by
  have hinside : Scope.Under 0 scope (scope.fresh x).2 := ⟨rfl, rfl⟩
  exact decides_map hR (decides_hypotheses hR hrender (hinside.stocked hstock) _ hty hfits _)
    fun _ _ h => ⟨h.shared, congrArg (· + 1) h.depth⟩

theorem decides_bindParams {params : List (String × TermId)}
    (hparams : ∀ p ∈ params, p.2 < limit ∧ s.Reaches top p.2) :
    Decides I R (bindParams s render scope params)
      (cfg.FitsAlong s known scope.depth (params.map (·.2))) fun r =>
        Scope.Under params.length scope r.2 := by
  induction params generalizing scope with
  | nil => exact decides_pure hR ⟨rfl, rfl⟩
  | cons p rest ih =>
      obtain ⟨hp, hrest⟩ := List.forall_mem_cons.mp hparams
      refine decides_bind hR (decides_term hR hrender hstock hp) fun hfits _ _ => ?_
      refine (decides_bind hR (decides_bindNamed hR hrender hstock p.1 hp hfits)
        fun _ named hunder => ?_).congr (iff_of_eq (true_and _))
      have hbinders := ih (hunder.stocked hstock) hrest
      rw [hunder.depth] at hbinders
      refine decides_map hR hbinders fun _ r h => ⟨h.shared.trans hunder.shared, ?_⟩
      rw [h.depth, List.length_cons, hunder.depth, Nat.add_assoc, Nat.add_comm 1]

theorem decides_bindPis {layers : List Layer}
    (hlayers : ∀ l ∈ layers, l.type < limit ∧ s.Reaches top l.type) :
    Decides I R (bindPis s render scope layers)
      (cfg.FitsAlong s known scope.depth (layers.map (·.type))) fun r =>
        Scope.Under layers.length scope r.2 := by
  induction layers generalizing scope with
  | nil => exact decides_pure hR ⟨rfl, rfl⟩
  | cons l rest ih =>
      obtain ⟨hl, hrest⟩ := List.forall_mem_cons.mp hlayers
      have hinner : ∀ {scope' : Scope}, Scope.Under 1 scope scope' →
          Decides I R (bindPis s render scope' rest)
            (cfg.FitsAlong s known (scope.depth + 1) (rest.map (·.type))) fun r =>
              Scope.Under (l :: rest).length scope r.2 := by
        intro scope' hunder
        have h := ih (hunder.stocked hstock) hrest
        rw [hunder.depth] at h
        refine h.imp fun r h => ⟨h.shared.trans hunder.shared, ?_⟩
        rw [h.depth, List.length_cons, hunder.depth, Nat.add_assoc, Nat.add_comm 1]
      refine decides_bind hR (decides_term hR hrender hstock hl) fun hfits _ _ => ?_
      split
      · refine (decides_bind hR (decides_bindNamed hR hrender hstock l.name hl hfits)
          fun _ named hunder => ?_).congr (iff_of_eq (true_and _))
        exact decides_map hR (hinner hunder) fun _ _ h => h
      · have hinside : Scope.Under 1 scope (scope.bind "_") := ⟨rfl, rfl⟩
        exact decides_map hR (hinner hinside) fun _ _ h => h

theorem decides_lam {x : String} {ty b : TermId} {id : TermId}
    (hnode : s.node id = .lam x ty b) (hid : id ≤ limit ∧ s.Reaches top id) :
    Decides I R (translateLam s render scope id) (cfg.Fits s known ⟨id, scope.depth, 0⟩)
      fun _ => True := by
  obtain ⟨htypes, hlast⟩ := strictlyWithin_lamLayers hnode scope.isShared
  rw [fits_iff_chain (s.chain_lamLayers scope.isShared id)]
  unfold translateLam
  generalize s.lamLayers scope.isShared id = chain at htypes hlast ⊢
  obtain ⟨layers, body⟩ := chain
  have hparams : ∀ p ∈ layers.map (fun l => (l.name, l.type)),
      p.2 < limit ∧ s.Reaches top p.2 := by
    intro p hp
    obtain ⟨l, hl, rfl⟩ := List.mem_map.mp hp
    obtain ⟨j, hj⟩ := List.getElem?_of_mem hl
    exact (htypes j l hj).below hid
  have hbinders := decides_bindParams hR hrender hstock hparams
  rw [List.map_map] at hbinders
  refine decides_bind hR hbinders fun _ inner hunder => ?_
  have hbody := decides_term hR hrender (hunder.stocked hstock) (hlast.below hid)
  rw [hunder.depth, List.length_map] at hbody
  exact decides_map hR hbody fun _ _ _ => trivial

theorem decides_pi {x : String} {ty b : TermId} {id : TermId}
    (hnode : s.node id = .pi x ty b) (hid : id ≤ limit ∧ s.Reaches top id) :
    Decides I R (translatePi s render scope id) (cfg.Fits s known ⟨id, scope.depth, 0⟩)
      fun _ => True := by
  obtain ⟨htypes, hlast⟩ := strictlyWithin_piLayers hnode scope.isShared
  rw [fits_iff_chain (s.chain_piLayers scope.isShared id)]
  unfold translatePi
  generalize s.piLayers scope.isShared id = chain at htypes hlast ⊢
  obtain ⟨layers, body⟩ := chain
  have hlayers : ∀ l ∈ layers, l.type < limit ∧ s.Reaches top l.type := by
    intro l hl
    obtain ⟨j, hj⟩ := List.getElem?_of_mem hl
    exact (htypes j l hj).below hid
  refine decides_bind hR (decides_bindPis hR hrender hstock hlayers) fun _ inner hunder => ?_
  have hbody := decides_term hR hrender (hunder.stocked hstock) (hlast.below hid)
  rw [hunder.depth] at hbody
  exact decides_map hR hbody fun _ _ _ => trivial

theorem decides_let (x : String) {ty value b : TermId}
    (hty : ty < limit ∧ s.Reaches top ty) (hvalue : value < limit ∧ s.Reaches top value)
    (hb : b < limit ∧ s.Reaches top b) :
    Decides I R (translateLet render scope x ty value b)
      (cfg.Fits s known ⟨ty, scope.depth, 0⟩ ∧ cfg.Fits s known ⟨value, scope.depth, 0⟩ ∧
        cfg.Fits s known ⟨b, scope.depth + 1, 0⟩) fun _ => True := by
  refine decides_bind hR (decides_term hR hrender hstock hty) fun _ _ _ => ?_
  refine decides_bind hR (decides_term hR hrender hstock hvalue) fun _ _ _ => ?_
  have hinside : Scope.Under 1 scope ((scope.fresh x).2.bind (scope.fresh x).1) := ⟨rfl, rfl⟩
  have hbody := decides_term hR hrender (hinside.stocked hstock) hb
  refine (decides_bind hR (T := True) hbody fun _ _ _ => ?_).congr (iff_of_eq (and_true _))
  split <;> exact decides_pure hR trivial

/-! ### Units -/

omit hstock in
/-- Older values are bound first, so by the time that a name is used its value has been
translated. -/
theorem decides_shareBindings {named : List (TermId × String)}
    (hsorted : (named.map (·.1)).Pairwise (· < ·))
    (hnamed : ∀ p ∈ named, (p.1 < limit ∧ s.Reaches top p.1) ∧ cfg.shouldName s p.1 = true)
    (hscope : ∀ k ∈ scope.shared, k ∈ named.map (·.1) ∨
      cfg.shouldName s k = true ∧ ∀ d, cfg.Fits s known ⟨k, d, 0⟩) :
    Decides I R (shareBindings render scope named)
      (∀ p ∈ named, cfg.Fits s known ⟨p.1, scope.depth, 0⟩) fun _ => True := by
  induction named with
  | nil => exact (decides_pure hR trivial).congr (by simp)
  | cons p rest ih =>
      obtain ⟨⟨hp, hname⟩, hrest⟩ := List.forall_mem_cons.mp hnamed
      obtain ⟨hfirst, hsorted⟩ := List.pairwise_cons.mp hsorted
      have hstock : Stocked cfg s known scope p.1 := by
        intro k hk hlt
        refine (hscope k hk).resolve_left fun hmem => ?_
        rcases List.mem_cons.mp hmem with rfl | hmem
        · exact lt_irrefl _ hlt
        · exact lt_asymm hlt (hfirst k hmem)
      rw [List.forall_mem_cons]
      refine decides_bind hR (hrender scope p.1 hp.1 hp.2 hstock) fun hfits _ _ => ?_
      have hlater := ih hsorted hrest fun k hk => by
        rcases hscope k hk with hmem | hk
        · rcases List.mem_cons.mp hmem with rfl | hmem
          · refine Or.inr ⟨hname, fun d => fits_of_bound _ hfits fun i hi => ?_⟩
            simp [Config.looseVars_of_shouldName hname] at hi
          · exact Or.inl hmem
        · exact Or.inr hk
      exact decides_map hR hlater fun _ _ _ => trivial

omit hstock in
/-- Names for the shared subterms of a term have no influence on whether it is
translated. -/
theorem decides_lifted (hcases : s.ListsCasesOnce top) (hscope : ∀ k, k ∉ scope.shared)
    {root : TermId} (hroot : root < limit ∧ s.Reaches top root) :
    Decides I R (translateLifted cfg s render scope root)
      (cfg.Fits s known ⟨root, scope.depth, 0⟩) fun _ => True := by
  have hempty : Stocked cfg s known scope limit := fun k hk => absurd hk (hscope k)
  have hnamed : ∀ t ∈ cfg.namedTerms s root,
      (t < limit ∧ s.Reaches top t) ∧ cfg.shouldName s t = true := by
    intro t ht
    obtain ⟨hreach, hname⟩ := Config.of_mem_namedTerms ht
    exact ⟨⟨hreach.le.trans_lt hroot.1, hroot.2.trans hreach⟩, hname⟩
  have hfits : cfg.Fits s known ⟨root, scope.depth, 0⟩ → ∀ t ∈ cfg.namedTerms s root,
      ∀ d, cfg.Fits s known ⟨t, d, 0⟩ := fun h t ht =>
    fits_of_mem_namedTerms
      (fun c datatype params motive order cases hc =>
        hcases c datatype params motive order cases (hroot.2.trans hc)) h ht
  have hsorted : (cfg.namedTerms s root).Pairwise (· < ·) := ascending_sharedTermsBy root _
  unfold translateLifted
  generalize cfg.namedTerms s root = ids at hnamed hfits hsorted ⊢
  dsimp only
  split
  · exact decides_term hR hrender hempty hroot
  · generalize hpicked : scope.freshMany cfg.options.sharedNameBase ids.length = picked
    obtain ⟨names, inner⟩ := picked
    obtain ⟨hunder, hlength⟩ : Scope.Under 0 scope inner ∧ names.length = ids.length := by
      have hunder := scope.under_freshMany cfg.options.sharedNameBase ids.length
      have hlength := scope.length_freshMany cfg.options.sharedNameBase ids.length
      rw [hpicked] at hunder hlength
      exact ⟨hunder, hlength⟩
    dsimp only
    generalize hzip : ids.zip names = named
    have hids : named.map (·.1) = ids := by
      rw [← hzip]
      exact List.map_fst_zip (le_of_eq hlength.symm)
    have hmem : ∀ p ∈ named, p.1 ∈ ids := fun p hp => hids ▸ List.mem_map_of_mem hp
    have hkeys : ∀ k ∈ (inner.share named).shared, k ∈ ids := by
      intro k hk
      rcases Scope.of_mem_share hk with hk | ⟨p, hp, rfl⟩
      · rw [hunder.shared] at hk
        exact absurd hk (hscope k)
      · exact hmem p hp
    have hdepth : (inner.share named).depth = scope.depth := hunder.depth
    have hnames : ∀ k ∈ (inner.share named).shared, k ∈ named.map (·.1) ∨
        cfg.shouldName s k = true ∧ ∀ d, cfg.Fits s known ⟨k, d, 0⟩ :=
      fun k hk => Or.inl (hids.symm ▸ hkeys k hk)
    have hbindings := decides_shareBindings hR hrender (hids.symm ▸ hsorted)
      (fun p hp => hnamed p.1 (hmem p hp)) hnames
    rw [hdepth] at hbindings
    have hbody : (∀ p ∈ named, cfg.Fits s known ⟨p.1, scope.depth, 0⟩) →
        Decides I R (translateTerm render (inner.share named) root)
          (cfg.Fits s known ⟨root, scope.depth, 0⟩) fun _ => True := by
      intro hall
      rw [← hdepth]
      refine decides_term hR hrender (fun k hk _ => ?_) hroot
      have hname := (hnamed k (hkeys k hk)).2
      obtain ⟨p, hp, rfl⟩ := List.mem_map.mp (hids.symm ▸ hkeys k hk)
      refine ⟨hname, fun d => fits_of_bound _ (hall p hp) fun i hi => ?_⟩
      simp [Config.looseVars_of_shouldName hname] at hi
    refine (decides_bind hR hbindings fun hall _ _ =>
      decides_map hR (hbody hall) fun _ _ _ => trivial).congr (and_iff_right_of_imp ?_)
    exact fun h p hp => hfits h p.1 (hmem p hp) _

omit hstock in
theorem decides_definition (hcases : s.ListsCasesOnce top) (hscope : ∀ k, k ∉ scope.shared)
    (hdepth : scope.depth = 0) (name : String) {ty body : TermId}
    (hty : ty < limit ∧ s.Reaches top ty) (hbody : body < limit ∧ s.Reaches top body) :
    Decides I R (translateDefinition cfg s render scope name ty body)
      (∀ p ∈ s.unitPlaces ty (some body), cfg.Fits s known p) fun _ => True := by
  have hstock : Stocked cfg s known scope limit := fun k hk => absurd hk (hscope k)
  have hcodomain := (s.within_piChain ty).2
  have hinner := (s.within_lamChain body).2
  simp only [translateDefinition, unitPlaces]
  split
  · have htype := decides_term hR hrender hstock hty
    have hvalue := decides_lifted hR hrender hcases hscope hbody
    rw [hdepth] at htype hvalue
    refine (decides_bind hR htype fun _ _ _ => decides_map hR hvalue fun _ _ _ =>
      trivial).congr (by simp)
  · rename_i hcond
    have hlength := length_eq_of_params hcond
    have hmap := map_snd_zipWith_params hlength
    have hcount : (List.zipWith (fun pi lam => (lam.1, pi.2)) (s.piChain ty).1
        (s.lamChain body).1).length = (s.piChain ty).1.length := by
      rw [List.length_zipWith, hlength, min_self]
    generalize List.zipWith _ (s.piChain ty).1 (s.lamChain body).1 = params at hmap hcount ⊢
    have hbinders := decides_bindParams hR hrender hstock (within_params hty hmap)
    rw [hmap, hdepth] at hbinders
    refine (decides_bind hR (T := cfg.Fits s known ⟨(s.piChain ty).2, (s.piChain ty).1.length, 0⟩ ∧
      cfg.Fits s known ⟨(s.lamChain body).2, (s.piChain ty).1.length, 0⟩)
      hbinders fun _ bound hunder => ?_).congr ?_
    · have hdepth' : bound.2.depth = (s.piChain ty).1.length := by
        rw [hunder.depth, hdepth, Nat.zero_add, hcount]
      rw [← hdepth']
      refine decides_bind hR (decides_term hR hrender (hunder.stocked hstock)
        ⟨hcodomain.reaches.le.trans_lt hty.1, hty.2.trans hcodomain.reaches⟩) fun _ _ _ => ?_
      exact decides_map hR (decides_lifted hR hrender hcases (hunder.shared ▸ hscope)
        ⟨hinner.reaches.le.trans_lt hbody.1, hbody.2.trans hinner.reaches⟩) fun _ _ _ => trivial
    · have hchain : cfg.Fits s known ⟨ty, 0, 0⟩ ↔ _ := fits_iff_piChain ty 0
      rw [Nat.zero_add] at hchain
      simp [hchain, and_assoc]

omit hstock in
theorem decides_declaration (hcases : s.ListsCasesOnce top) (name : String) {ty : TermId}
    {body : Option TermId} (hlt : ∀ c ∈ ty :: body.toList, c < limit ∧ s.Reaches top c) :
    Decides I R (declaration cfg s render name ty body)
      (∀ p ∈ s.unitPlaces ty body, cfg.Fits s known p) fun _ => True := by
  have hscope : ∀ e k, k ∉ (Scope.ofUnit cfg e s (ty :: body.toList)).shared :=
    fun e k => Std.HashMap.not_mem_empty
  refine (decides_bind hR (decides_get hR) fun _ e _ => ?_).congr (iff_of_eq (true_and _))
  cases body with
  | some body =>
      exact decides_definition hR hrender hcases (hscope e) rfl name (hlt ty (by simp))
        (hlt body (by simp))
  | none =>
      have hstock : Stocked cfg s known (Scope.ofUnit cfg e s [ty]) limit :=
        fun k hk => absurd hk (hscope e k)
      have htype := decides_term hR hrender hstock (hlt ty (by simp))
      exact (decides_map hR htype fun _ _ _ => trivial).congr
        (by simp [unitPlaces, Scope.ofUnit, Scope.depth])

/-! ### Names and applications -/

theorem decides_ident (ident : Ident) {args : List TermId}
    (hargs : ∀ a ∈ args, a < limit ∧ s.Reaches top a) :
    Decides I R (translateIdent cfg render scope ident args)
      (cfg.minArgs ident ≤ args.length ∧ ∀ a ∈ args, cfg.Fits s known ⟨a, scope.depth, 0⟩)
      fun _ => True := by
  have hall := decides_terms hR hrender hstock hargs
  unfold translateIdent Config.minArgs
  cases cfg.table.useSite ident with
  | preserve => exact (decides_map hR hall fun _ _ _ => trivial).congr (by simp)
  | rename module name explicit =>
      exact (decides_map hR hall fun _ _ _ => trivial).congr (by simp)
  | expand arity template =>
      dsimp only
      split
      · rename_i hfew
        refine (decides_bind hR (Q := fun _ => True) (T := False) decides_throw
          fun h _ _ => h.elim).congr ?_
        simp [Nat.not_le.mpr hfew]
      · rename_i henough
        have hsplit : (∀ a ∈ args, cfg.Fits s known ⟨a, scope.depth, 0⟩) ↔
            (∀ a ∈ args.take arity, cfg.Fits s known ⟨a, scope.depth, 0⟩) ∧
              ∀ a ∈ args.drop arity, cfg.Fits s known ⟨a, scope.depth, 0⟩ := by
          conv_lhs => rw [← List.take_append_drop arity args]
          simp only [List.mem_append, or_imp, forall_and]
        rw [and_iff_right (Nat.not_lt.mp henough), hsplit]
        refine decides_bind hR (decides_terms hR hrender hstock fun a ha =>
          hargs a (List.mem_of_mem_take ha)) fun _ _ _ => ?_
        exact decides_map hR (decides_terms hR hrender hstock fun a ha =>
          hargs a (List.mem_of_mem_drop ha)) fun _ _ _ => trivial

theorem decides_constant {ident : Ident} {ty : TermId} {body : Option TermId}
    (hdeclare : Decides I R (declareConstant cfg s render ident ty body)
      (known ident = true ∨ cfg.CanProvide s known ident ty body) fun _ => True)
    {args : List TermId} (hargs : ∀ a ∈ args, a < limit ∧ s.Reaches top a) :
    Decides I R (translateConstant cfg s render scope ident ty body args)
      ((known ident = true ∨ cfg.CanProvide s known ident ty body) ∧
        cfg.minArgs ident ≤ args.length ∧
          ∀ a ∈ args, cfg.Fits s known ⟨a, scope.depth, 0⟩) fun _ => True :=
  decides_bind hR hdeclare fun _ _ _ => decides_ident hR hrender hstock ident hargs

theorem decides_named (head : String) {args : List TermId}
    (hargs : ∀ a ∈ args, a < limit ∧ s.Reaches top a) :
    Decides I R (translateNamed render scope head args)
      (∀ a ∈ args, cfg.Fits s known ⟨a, scope.depth, 0⟩) fun _ => True :=
  decides_map hR (decides_terms hR hrender hstock hargs) fun _ _ _ => trivial

theorem decides_conditional {c t e : TermId} {rest : List TermId}
    (hargs : ∀ a ∈ c :: t :: e :: rest, a < limit ∧ s.Reaches top a) :
    Decides I R (translateConditional render scope c t e rest)
      (∀ a ∈ c :: t :: e :: rest, cfg.Fits s known ⟨a, scope.depth, 0⟩) fun _ => True := by
  simp only [List.forall_mem_cons] at hargs ⊢
  obtain ⟨hc, ht, he, hrest⟩ := hargs
  refine decides_bind hR (decides_term hR hrender hstock hc) fun _ _ _ => ?_
  refine decides_bind hR (decides_term hR hrender hstock ht) fun _ _ _ => ?_
  refine decides_bind hR (decides_term hR hrender hstock he) fun _ _ _ => ?_
  exact decides_map hR (decides_terms hR hrender hstock hrest) fun _ _ _ => trivial

/-- A function with a name fits, so it does not matter where the spine of an application is
cut. -/
theorem decides_app {f a : TermId} {id : TermId} (hnode : s.node id = .app f a)
    (hid : id ≤ limit ∧ s.Reaches top id)
    (hdeclare : ∀ c ident ty body, s.node c = .constant ident ty body → c < id →
      s.Reaches id c → Decides I R (declareConstant cfg s render ident ty body)
        (known ident = true ∨ cfg.CanProvide s known ident ty body) fun _ => True) :
    Decides I R (translateApp cfg s render scope id) (cfg.Fits s known ⟨id, scope.depth, 0⟩)
      fun _ => True := by
  obtain ⟨hhead, hargs⟩ := strictlyWithin_spineUntil hnode scope.isShared
  have hcut := spine_eq_or_extends (s := s) scope.isShared id
  have hspine : cfg.Fits s known ⟨id, scope.depth, 0⟩ ↔ _ := fits_iff_spine id scope.depth 0
  have hnotapp := node_spine_ne_app (s := s) id
  unfold translateApp
  generalize s.spineUntil scope.isShared id = cut at hhead hargs hcut ⊢
  obtain ⟨head, args⟩ := cut
  dsimp only at hhead hargs hcut ⊢
  have hargs' : ∀ b ∈ args, b < limit ∧ s.Reaches top b :=
    fun b hb => (hargs b hb).below hid
  have hhead' : head < limit ∧ s.Reaches top head :=
    (hhead.below hid)
  -- An application whose head is translated like any other term.
  have hother : Decides I R (do
      let fn ← translateTerm render scope head
      return Expr.mkApp fn (← translateTerms render scope args))
      (cfg.Fits s known ⟨head, scope.depth, 0⟩ ∧
        ∀ b ∈ args, cfg.Fits s known ⟨b, scope.depth, 0⟩) fun _ => True :=
    decides_bind hR (decides_term hR hrender hstock hhead') fun _ _ _ =>
      decides_map hR (decides_terms hR hrender hstock hargs') fun _ _ _ => trivial
  rcases hcut with heq | ⟨hstop, hwhole⟩
  · -- The whole spine.
    have hfull : s.isFullConditional id = (s.isConditional head && decide (4 ≤ args.length)) := by
      rw [isFullConditional, heq]
    rw [hfull, heq, Nat.add_zero] at hspine
    rw [heq] at hnotapp
    dsimp only at hspine hnotapp
    cases hkind : s.node head with
    | global ident =>
        rw [fits_global hkind] at hspine
        have hident : s.isConditional head = decide (ident = .prelude "ite") := by
          simp [isConditional, asGlobal?, hkind]
        dsimp only
        split
        · rename_i hite
          rcases args with _ | ⟨ty, _ | ⟨c, _ | ⟨t, _ | ⟨e, rest⟩⟩⟩⟩
          case cons.cons.cons.cons =>
            refine (decides_conditional hR hrender hstock fun b hb =>
              hargs' b (List.mem_cons_of_mem ty hb)).congr ?_
            simpa [hident, hite] using hspine.symm
          all_goals
            refine (decides_ident hR hrender hstock ident hargs').congr ?_
            simpa [hident, hite] using hspine.symm
        · rename_i hite
          refine (decides_ident hR hrender hstock ident hargs').congr ?_
          simpa [hident, hite] using hspine.symm
    | constant ident ty body =>
        rw [fits_constant hkind] at hspine
        refine (decides_constant hR hrender hstock
          (hdeclare head ident ty body hkind hhead.2 hhead.1.reaches) hargs').congr ?_
        rw [hspine]
        simp [isConditional, asGlobal?, hkind]
        tauto
    | _ =>
        have hzero : cfg.Fits s known ⟨head, scope.depth, args.length⟩ ↔
            cfg.Fits s known ⟨head, scope.depth, 0⟩ :=
          fits_head_iff hnotapp (by simp [hkind]) (Nat.zero_le _)
        refine hother.congr ?_
        rw [hspine, hzero]
        simp [isConditional, asGlobal?, hkind]
  · -- The spine ends in a named function.
    obtain ⟨hname, hfits⟩ := hstock head
      (by rwa [Scope.isShared, Std.HashMap.contains_iff_mem] at hstop) hhead'.1
    rw [fits_iff_of_cut hwhole hname (hfits scope.depth)]
    have htrivial := isTrivial_of_shouldName hname
    split
    · rename_i ident hglobal
      simp [hglobal, Node.isTrivial] at htrivial
    · rename_i ident ty body hconstant
      simp [hconstant, Node.isTrivial] at htrivial
    · exact hother.congr (and_iff_right (hfits scope.depth))

/-! ### Data -/

theorem decides_fields (cons nil : String) {fields : List (String × TermId)}
    (hfields : ∀ p ∈ fields, p.2 < limit ∧ s.Reaches top p.2) :
    Decides I R (translateFields render scope cons nil fields)
      (∀ p ∈ fields, cfg.Fits s known ⟨p.2, scope.depth, 0⟩) fun _ => True := by
  induction fields with
  | nil => exact (decides_pure hR trivial).congr (by simp)
  | cons p rest ih =>
      rw [List.forall_mem_cons] at hfields ⊢
      refine decides_bind hR (decides_term hR hrender hstock hfields.1) fun _ _ _ => ?_
      exact decides_map hR (ih hfields.2) fun _ _ _ => trivial

theorem decides_record (cons nil : String) {fields : List (String × TermId)}
    (hfields : ∀ p ∈ fields, p.2 < limit ∧ s.Reaches top p.2) :
    Decides I R (translateRecord render scope cons nil fields)
      (∀ p ∈ fields, cfg.Fits s known ⟨p.2, scope.depth, 0⟩) fun _ => True :=
  (decides_fields hR hrender hstock cons nil fun p hp =>
    hfields p (List.mem_mergeSort.mp hp)).congr (by simp only [List.mem_mergeSort])

/-- Literals always fit, so it does not matter that a word does not show its elements. -/
theorem decides_array (elemType : TermId) {elems : List TermId}
    (helems : ∀ a ∈ elems, a < limit ∧ s.Reaches top a) :
    Decides I R (translateArray cfg s render scope elemType elems)
      (∀ a ∈ elems, cfg.Fits s known ⟨a, scope.depth, 0⟩) fun _ => True := by
  unfold translateArray
  split
  · rename_i bits hbits
    refine (decides_pure hR trivial).congr (iff_of_true trivial fun a ha => ?_)
    obtain ⟨b, hnode⟩ := exists_bool_of_literalBits? hbits ha
    rw [fits_iff]
    simp [Config.Admits, Config.nextPlaces, hnode, shownPlaces, Node.childrenWithDepth]
  · exact decides_map hR (decides_terms hR hrender hstock helems) fun _ _ _ => trivial

/-- The case of a constructor is the first one that is listed for it. -/
theorem decides_case {cases : List (Ident × TermId)}
    (hcases : ∀ p ∈ cases, p.2 < limit ∧ s.Reaches top p.2) (ctor : Ident) :
    Decides I R (translateCase cfg render scope cases ctor)
      ((cfg.options.strictEliminators = true → ∃ p ∈ cases, p.1 = ctor) ∧
        ∀ c, (cases.find? fun p => p.1 = ctor).map (·.2) = some c →
          cfg.Fits s known ⟨c, scope.depth, 0⟩) fun _ => True := by
  unfold translateCase
  split
  · rename_i p hp
    have hmem := List.mem_of_find?_eq_some hp
    have hctor : p.1 = ctor := by simpa using List.find?_some hp
    refine (decides_term hR hrender hstock (hcases p hmem)).congr ?_
    rw [hp, and_iff_right fun _ => ⟨p, hmem, hctor⟩]
    simp
  · rename_i hnone
    have hmissing : ¬∃ p ∈ cases, p.1 = ctor := by
      rintro ⟨p, hp, hctor⟩
      simpa [hctor] using List.find?_eq_none.mp hnone p hp
    rw [hnone]
    split
    · rename_i hstrict
      exact decides_throw.congr (by simp [hstrict, hmissing])
    · rename_i hlenient
      exact (decides_pure hR trivial).congr (by simp [hlenient])

theorem decides_recursor (datatype : Ident) {params : List TermId} {motive : TermId}
    {cases : List (Ident × TermId)} (hparams : ∀ a ∈ params, a < limit ∧ s.Reaches top a)
    (hmotive : motive < limit ∧ s.Reaches top motive)
    (hcases : ∀ p ∈ cases, p.2 < limit ∧ s.Reaches top p.2) (order : List Ident) :
    Decides I R (translateRecursor cfg render scope datatype params motive order cases)
      (((counterpart? cfg datatype).isSome ∧
        (cfg.options.strictEliminators = true → ∀ ctor ∈ order, ∃ p ∈ cases, p.1 = ctor)) ∧
        ∀ c ∈ s.shownParts (.recursor datatype params motive order cases),
          cfg.Fits s known ⟨c, scope.depth, 0⟩) fun _ => True := by
  have hall := decides_mapM hR fun ctor (_ : ctor ∈ order) =>
    decides_case hR hrender hstock hcases ctor
  unfold translateRecursor
  cases hcounterpart : counterpart? cfg datatype with
  | none => exact decides_throw.congr (by simp)
  | some target =>
      refine (decides_bind hR (decides_terms hR hrender hstock hparams) fun _ _ _ =>
        decides_bind hR (decides_term hR hrender hstock hmotive) fun _ _ _ =>
          decides_map hR hall fun _ _ _ => trivial).congr ?_
      simp only [shownParts, List.mem_append, List.mem_cons, List.mem_filterMap, or_imp,
        forall_and, forall_eq, Option.isSome_some, true_and, forall_exists_index, and_imp]
      constructor
      · rintro ⟨hps, hmo, hstrict, hcs⟩
        exact ⟨fun h ctor hctor => hstrict ctor hctor h, hps, hmo,
          fun c ctor hctor hc => hcs ctor hctor c hc⟩
      · rintro ⟨hstrict, hps, hmo, hcs⟩
        exact ⟨hps, hmo, fun ctor hctor h => hstrict h ctor hctor,
          fun ctor hctor c hc => hcs c ctor hctor hc⟩

/-! ### Nodes -/

/-- Translating a node succeeds exactly if the node fits. -/
theorem decides_step {id : TermId} (hid : id = limit) (hreach : s.Reaches top id)
    (hdeclare : ∀ c ident ty body, s.node c = .constant ident ty body → c ≤ id →
      s.Reaches id c → Decides I R (declareConstant cfg s render ident ty body)
        (known ident = true ∨ cfg.CanProvide s known ident ty body) fun _ => True) :
    Decides I R (translateStep cfg s render scope id) (cfg.Fits s known ⟨id, scope.depth, 0⟩)
      fun _ => True := by
  subst hid
  have hparts : ∀ c ∈ (s.node id).children, c < id ∧ s.Reaches top c := fun c hc =>
    ⟨s.lt_of_mem_children hc, hreach.trans (reaches_of_mem_children hc)⟩
  have hfits : cfg.Fits s known ⟨id, scope.depth, 0⟩ ↔ _ := fits_iff
  unfold translateStep
  cases hnode : s.node id with
  | constant ident ty body =>
      refine (decides_constant hR hrender hstock (hdeclare id ident ty body hnode le_rfl (.refl id))
        (List.forall_mem_nil _)).congr ?_
      rw [fits_constant hnode]
      simp [and_comm]
  | global ident =>
      refine (decides_ident hR hrender hstock ident (List.forall_mem_nil _)).congr ?_
      rw [fits_global hnode]
      simp
  | app f a =>
      exact decides_app hR hrender hstock hnode ⟨le_rfl, hreach⟩
        fun c ident ty body h hlt hc => hdeclare c ident ty body h (le_of_lt hlt) hc
  | lam x ty b => exact decides_lam hR hrender hstock hnode ⟨le_rfl, hreach⟩
  | pi x ty b => exact decides_pi hR hrender hstock hnode ⟨le_rfl, hreach⟩
  | fix x ty b =>
      refine decides_throw.congr (iff_of_false not_false fun h => ?_)
      simpa [Config.Admits, hnode] using (hfits.mp h).1
  | bound i =>
      rw [hfits]
      simp only [Config.Admits, Config.nextPlaces, hnode, shownPlaces, Node.childrenWithDepth,
        List.map_nil, List.not_mem_nil, false_imp_iff, implies_true, and_true]
      split
      · rename_i x hx
        exact (decides_pure hR trivial).congr
          (iff_of_true trivial (List.getElem?_eq_some_iff.mp hx).1)
      · rename_i hx
        exact decides_throw.congr
          (iff_of_false not_false (Nat.not_lt.mpr (List.getElem?_eq_none_iff.mp hx)))
  | free | sort | nat | string | bool | unit | unitType =>
      refine (decides_pure hR trivial).congr (iff_of_true trivial (hfits.mpr ?_))
      simp [Config.Admits, Config.nextPlaces, hnode, shownPlaces, Node.childrenWithDepth]
  | pair a b | pairType a b | pairLeft a | pairRight a =>
      rw [hnode] at hparts
      refine (decides_named hR hrender hstock _ hparts).congr ?_
      rw [hfits]
      simp [Config.Admits, Config.nextPlaces, hnode, shownPlaces, Node.children,
        Node.childrenWithDepth]
  | recordType fields | record fields =>
      rw [hnode] at hparts
      have hfields : ∀ p ∈ fields, p.2 < id ∧ s.Reaches top p.2 := fun p hp =>
        hparts p.2 (by simpa [Node.children, Node.childrenWithDepth] using ⟨p.1, hp⟩)
      refine (decides_record hR hrender hstock _ _ hfields).congr ?_
      rw [hfits]
      simp only [Config.Admits, Config.nextPlaces, hnode, shownPlaces, Node.childrenWithDepth,
        List.map_map, List.forall_mem_map, Function.comp_apply, Nat.add_zero, true_and]
  | proj r field =>
      rw [hnode] at hparts
      refine (decides_map hR (decides_term hR hrender hstock (hparts r ?_))
        fun _ _ _ => trivial).congr ?_
      · simp [Node.children, Node.childrenWithDepth]
      · rw [hfits]
        simp [Config.Admits, Config.nextPlaces, hnode, shownPlaces, Node.childrenWithDepth]
  | array elemType elems =>
      rw [hnode] at hparts
      refine (decides_array hR hrender hstock elemType fun a ha => hparts a ?_).congr ?_
      · simp [Node.children, Node.childrenWithDepth, ha]
      · rw [hfits]
        simp [Config.Admits, Config.nextPlaces, hnode, shownPlaces]
  | data ident params rest | ctor ident params rest =>
      rw [hnode] at hparts
      refine (decides_ident hR hrender hstock ident fun a ha => hparts a ?_).congr ?_
      · simpa [Node.children, Node.childrenWithDepth] using ha
      · rw [hfits]
        simp [Config.Admits, Config.nextPlaces, hnode, shownPlaces, Node.childrenWithDepth, or_imp,
          forall_and]
  | recursor datatype params motive order cases =>
      rw [hnode] at hparts
      have hmem : ∀ c, c ∈ params ∨ c = motive ∨ (∃ p ∈ cases, p.2 = c) →
          c < id ∧ s.Reaches top c := fun c hc => hparts c <| by
        simpa [Node.children, Node.childrenWithDepth] using hc
      refine (decides_recursor hR hrender hstock datatype (fun a ha => hmem a (Or.inl ha))
        (hmem motive (Or.inr (Or.inl rfl)))
        (fun p hp => hmem p.2 (Or.inr (Or.inr ⟨p, hp, rfl⟩))) order).congr ?_
      rw [hfits]
      simp only [Config.Admits, Config.nextPlaces, hnode, shownPlaces, List.map_map,
        List.forall_mem_map, Function.comp_apply, Nat.add_zero]
  | letIn x ty value b =>
      rw [hnode] at hparts
      simp only [Node.children, Node.childrenWithDepth, List.map_cons, List.map_nil,
        List.forall_mem_cons] at hparts
      obtain ⟨hty, hvalue, hb, -⟩ := hparts
      refine (decides_let hR hrender hstock x hty hvalue hb).congr ?_
      rw [hfits]
      simp [Config.Admits, Config.nextPlaces, hnode, shownPlaces, Node.childrenWithDepth]

end Steps

end TermGraph
