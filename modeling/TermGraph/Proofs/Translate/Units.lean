import Mathlib
import TermGraph.Proofs.Term.Occurrences
import TermGraph.Proofs.Translate.Step

/-!
# Units read as outlined

A unit starts in a scope without binders.  Shared subterms get their names all at
once, but each name is bound only when the values of the older ones are: between
the two, a scope knows names that the context does not have yet.  Values are older
than what they are bound around, so none of these names is ever looked up too soon.

Induction on identities then shows that every node reads as outlined, and so does
every declaration that is emitted on the way.
-/

namespace TermGraph

open Target Store

/-! ## Names of shared subterms -/

/-- A scope that fits a context, except for subterms that are still to be bound. -/
structure Shares (avoid : String → Prop) (limit : TermId) (scope : Scope) (ctx : Context)
    (names : List String) (rest : List (TermId × String)) : Prop where
  fits : Spells avoid 0 scope ctx names
  shared : ∀ id < limit, (∀ p ∈ rest, p.1 ≠ id) →
    scope.shared[id]? = ctx.liftedName? names id
  pending : ∀ p ∈ rest, scope.shared[p.1]? = some p.2 ∧ Spells.Fresh avoid scope names p.2
  nodup : (rest.map (·.2)).Nodup

section Shares

variable {avoid : String → Prop} {limit : TermId} {scope : Scope} {ctx : Context}
  {names : List String} {rest : List (TermId × String)}

/-- Below all subterms that are still to be bound, the scope fits. -/
theorem Shares.spells (h : Shares avoid limit scope ctx names rest) {limit' : TermId}
    (hle : limit' ≤ limit) (hrest : ∀ p ∈ rest, limit' ≤ p.1) :
    Spells avoid limit' scope ctx names :=
  { h.fits with
    shared := fun id hid => h.shared id (lt_of_lt_of_le hid hle) fun p hp =>
      ne_of_gt (lt_of_lt_of_le hid (hrest p hp)) }

/-- The oldest subterm reads nothing that is still to be bound. -/
theorem Shares.spells_oldest {t : TermId} {x : String}
    (h : Shares avoid limit scope ctx names ((t, x) :: rest)) (hle : t ≤ limit)
    (hsorted : ∀ u ∈ rest.map (·.1), t < u) : Spells avoid t scope ctx names := by
  refine h.spells hle fun p hp => ?_
  rcases List.mem_cons.mp hp with rfl | hp
  · exact le_rfl
  · exact le_of_lt (hsorted p.1 (List.mem_map_of_mem hp))

/-- The oldest subterm is bound. -/
theorem Shares.next {t : TermId} {x : String}
    (h : Shares avoid limit scope ctx names ((t, x) :: rest)) :
    Shares avoid limit scope (.lifted t :: ctx) (x :: names) rest := by
  obtain ⟨hshared, hfresh⟩ := h.pending (t, x) (by simp)
  have hnodup := List.nodup_cons.mp h.nodup
  refine ⟨⟨.lifted t x h.fits.spelled, List.nodup_cons.mpr ⟨hfresh.not_mem, h.fits.nodup⟩,
    by simpa using ⟨hfresh.taken, h.fits.taken⟩, by simpa using ⟨hfresh.clear, h.fits.clear⟩,
    h.fits.avoids, by simp⟩, fun id hid hnot => ?_, fun p hp => ?_, hnodup.2⟩
  · rw [Context.liftedName?_lifted]
    split
    · rename_i heq
      rw [← heq]
      exact hshared
    · rename_i hne
      refine h.shared id hid fun p hp => ?_
      rcases List.mem_cons.mp hp with rfl | hp
      · exact hne
      · exact hnot p hp
  · obtain ⟨hpshared, hpfresh⟩ := h.pending p (by simp [hp])
    refine ⟨hpshared, ?_, hpfresh.clear, hpfresh.taken⟩
    intro hmem
    rcases List.mem_cons.mp hmem with heq | hmem
    · exact hnodup.1 (heq ▸ List.mem_map_of_mem (f := (·.2)) hp)
    · exact hpfresh.not_mem hmem

/-- Several fresh names are fresh and differ from each other. -/
theorem Spells.freshMany (base : String) (n : Nat) :
    ∀ {scope : Scope}, Spells avoid limit scope ctx names →
      Spells avoid limit (scope.freshMany base n).2 ctx names ∧
        (scope.freshMany base n).1.length = n ∧ (scope.freshMany base n).1.Nodup ∧
        (∀ x ∈ (scope.freshMany base n).1,
          Spells.Fresh avoid (scope.freshMany base n).2 names x) ∧
        (∀ x ∈ scope.unavailable, x ∉ (scope.freshMany base n).1 ∧
          x ∈ (scope.freshMany base n).2.unavailable) := by
  induction n with
  | zero => exact fun h => ⟨h, rfl, List.nodup_nil, by simp [Scope.freshMany],
      by simp [Scope.freshMany]⟩
  | succ n ih =>
      intro scope h
      obtain ⟨h', hfresh⟩ := h.fresh base
      obtain ⟨hsp, hlength, hnodup, hall, hkept⟩ := ih h'
      have hold : ∀ x ∈ scope.unavailable, x ∈ (scope.fresh base).2.unavailable :=
        fun x hx => Std.HashSet.mem_insert.mpr (Or.inr hx)
      refine ⟨hsp, congrArg (· + 1) hlength, ?_, fun x hx => ?_, fun x hx => ?_⟩
      · exact List.nodup_cons.mpr ⟨(hkept _ hfresh.taken).1, hnodup⟩
      · rcases List.mem_cons.mp hx with rfl | hx
        · exact ⟨hfresh.not_mem, hfresh.clear, (hkept _ hfresh.taken).2⟩
        · exact hall x hx
      · refine ⟨fun hmem => ?_, (hkept x (hold x hx)).2⟩
        rcases List.mem_cons.mp hmem with rfl | hmem
        · exact freshVariant_not_mem scope.unavailable (sanitize base) hx
        · exact (hkept x (hold x hx)).1 hmem

/-- Giving fresh names to subterms. -/
theorem Spells.share (hsp : Spells avoid limit scope ctx names)
    {named : List (TermId × String)} (hids : (named.map (·.1)).Nodup)
    (hnames : (named.map (·.2)).Nodup)
    (hfresh : ∀ p ∈ named, Spells.Fresh avoid scope names p.2) :
    Shares avoid limit (scope.share named) ctx names named where
  fits := { hsp with shared := by simp }
  shared := fun id hid hnot => by
    rw [Scope.share, Std.HashMap.getElem?_insertMany_list_of_contains_eq_false]
    · exact hsp.shared id hid
    · rw [List.contains_eq_mem, decide_eq_false_iff_not, List.mem_map]
      rintro ⟨p, hp, heq⟩
      exact hnot p hp heq
  pending := fun p hp => by
    refine ⟨?_, (hfresh p hp).not_mem, (hfresh p hp).clear, (hfresh p hp).taken⟩
    refine Std.HashMap.getElem?_insertMany_list_of_mem (k := p.1) (by simp) ?_ hp
    rw [List.Nodup, List.pairwise_map] at hids
    exact hids.imp fun hne => by simpa using hne
  nodup := hnames

/-- Giving subterms names that are picked first. -/
theorem Spells.shareMany (hsp : Spells avoid limit scope ctx names) {ids : List TermId}
    (hids : ids.Nodup) (base : String) :
    ∃ xs scope', scope.freshMany base ids.length = (xs, scope') ∧
      (ids.zip xs).map (·.1) = ids ∧
      Shares avoid limit (scope'.share (ids.zip xs)) ctx names (ids.zip xs) := by
  obtain ⟨hsp', hlength, hnodup, hfresh, -⟩ := hsp.freshMany base ids.length
  have hfst : (ids.zip (scope.freshMany base ids.length).1).map (·.1) = ids :=
    List.map_fst_zip (le_of_eq hlength.symm)
  have hsnd : (ids.zip (scope.freshMany base ids.length).1).map (·.2) =
      (scope.freshMany base ids.length).1 := List.map_snd_zip (le_of_eq hlength)
  refine ⟨_, _, rfl, hfst, hsp'.share (by rwa [hfst]) (by rwa [hsnd]) fun p hp => ?_⟩
  exact hfresh p.2 (List.of_mem_zip hp).2

end Shares

section Units

variable {cfg : Config} {s : Store} {look : Outliner} {render : Render} {I : Emission → Prop}
  {R : Emission → Emission → Prop}
  {avoid : String → Prop} {P : List String → String → Prop} {top limit : TermId}
  (hR : Composes I R) (hsafe : Safe cfg s avoid P top)
  (hrender : ∀ c < limit, s.Reaches top c → RendersAt cfg s look I R render c)
  {scope : Scope}

include hR hsafe hrender in
/-- Bindings of shared subterms read as outlined around whatever follows them. -/
theorem ensures_shareBindings (named : List (TermId × String)) :
    ∀ {ctx names}, Shares avoid limit scope ctx names named →
      (named.map (·.1)).Pairwise (· < ·) →
      (∀ p ∈ named, p.1 < limit ∧ s.Reaches top p.1 ∧ s.looseVars p.1 = []) →
      Ensures I R (shareBindings render scope named) fun bs =>
        ∃ ctx' names', Shares avoid limit scope ctx' names' [] ∧
          (∀ i, ctx'.isUnnamed i = ctx.isUnnamed i) ∧
          (∀ look' inner r, outlineShared look' ctx inner (named.map (·.1)) = some r →
            ∃ r', inner ctx' = some r') ∧
          ∀ body inner, ReadsAs P names' body (inner ctx') →
            ReadsAs P names (.letIn bs body)
              (outlineShared look ctx inner (named.map (·.1))) := by
  induction named with
  | nil =>
      intro ctx names h _ _
      exact ensures_pure hR ⟨ctx, names, h, fun _ => rfl, fun _ _ r hr => ⟨r, hr⟩,
        fun body inner ⟨r, hr, hbody⟩ => ⟨r, hr, reads_letIn_nil hbody⟩⟩
  | cons p rest ih =>
      obtain ⟨t, x⟩ := p
      intro ctx names h hsorted husable
      obtain ⟨hlt, hreaches, hclosed⟩ := husable (t, x) (by simp)
      rw [List.map_cons, List.pairwise_cons] at hsorted
      have hfits : Spells avoid t scope ctx names := h.spells_oldest (le_of_lt hlt) hsorted.1
      have hvalue := hrender t hlt hreaches avoid P scope ctx names
        (hsafe.of_reaches hreaches) hfits (by simp [Context.Covers, hclosed])
      rw [shareBindings]
      refine ensures_bind hR hvalue ?_
      rintro v ⟨rv, hrv, hv⟩
      refine ensures_bind hR
        (ih h.next hsorted.2 fun p hp => husable p (by simp [hp])) ?_
      rintro bs ⟨ctx', names', hshares, hsame, hsome, hread⟩
      refine ensures_pure hR ⟨ctx', names', hshares, hsame, fun look' inner r hr => ?_,
        fun body inner hbody => ?_⟩
      · obtain ⟨_, _, hrest⟩ := Option.bind_eq_some_iff.mp hr
        obtain ⟨r', hr', _⟩ := Option.bind_eq_some_iff.mp hrest
        exact hsome look' inner r' hr'
      obtain ⟨r, hr, hletIn⟩ := hread body inner hbody
      refine ⟨.letIn rv r, ?_,
        reads_letIn_cons hv (h.pending (t, x) (by simp)).2.not_mem hletIn⟩
      rw [List.map_cons, outlineShared, hrv, hr]
      rfl

/-- What is named inside a term may be used where the term may. -/
theorem Usable.of_mem_namedTerms (cfg : Config) {ctx : Context} {root : TermId}
    (hroot : Usable s top limit ctx 0 root) :
    ∀ t ∈ cfg.namedTerms s root, t < limit ∧ s.Reaches top t ∧ s.looseVars t = [] := by
  intro t ht
  obtain ⟨hreaches, hshould⟩ := Config.of_mem_namedTerms ht
  exact ⟨lt_of_le_of_lt hreaches.le hroot.lt, hroot.reaches.trans hreaches,
    Config.looseVars_of_shouldName hshould⟩

include hR hsafe hrender in
/-- A term inside bindings of its shared subterms reads as outlined. -/
theorem ensures_lifted {ctx : Context} {names : List String}
    (hsp : Spells avoid limit scope ctx names) {root : TermId}
    (hroot : Usable s top limit ctx 0 root) :
    Ensures I R (translateLifted cfg s render scope root) fun e =>
      ReadsAs P names e (outlineLifted cfg s look ctx root) := by
  unfold translateLifted outlineLifted
  have hnamed := hroot.of_mem_namedTerms cfg
  have hsorted : (cfg.namedTerms s root).Pairwise (· < ·) := ascending_sharedTermsBy root _
  generalize cfg.namedTerms s root = ids at hnamed hsorted ⊢
  dsimp only
  split
  · rename_i hempty
    rw [List.isEmpty_iff.mp hempty]
    exact ensures_term hR hsafe hrender hsp hroot
  · obtain ⟨xs, scope', hfresh, hids, hshares⟩ :=
      hsp.shareMany (hsorted.imp ne_of_lt) cfg.options.sharedNameBase
    rw [hfresh]
    dsimp only
    refine ensures_bind hR (ensures_shareBindings hR hsafe hrender _ hshares
      (by rwa [hids]) fun p hp => hnamed p.1 (List.of_mem_zip hp).1) ?_
    rintro bs ⟨ctx', names', hshares', hsame, -, hread⟩
    have hbody : Usable s top limit ctx' 0 root :=
      ⟨hroot.lt, hroot.reaches, fun i hi => (hsame i).trans (hroot.covered i hi)⟩
    refine ensures_bind hR (ensures_term hR hsafe hrender
      (hshares'.spells le_rfl (by simp)) hbody) fun e he => ?_
    obtain ⟨r, hr, hletIn⟩ := hread e (fun ctx => outlineTerm look ctx root) he
    rw [hids] at hr
    exact ensures_pure hR ⟨r, hr, reads_mkLet hletIn⟩

end Units

/-! ## Definitions and declarations -/

section Declarations

variable {cfg : Config} {s : Store} {look : Outliner} {render : Render} {I : Emission → Prop}
  {R : Emission → Emission → Prop}
  {avoid : String → Prop} {P : List String → String → Prop} {limit : TermId} {scope : Scope}

/-- The binders of the body are parameters only when the type has as many of its own. -/
theorem length_eq_of_params {pis lams : List (String × TermId)}
    (h : ¬(pis.isEmpty || decide (pis.length ≠ lams.length)) = true) :
    pis.length = lams.length := by
  simp only [Bool.or_eq_true, decide_eq_true_eq, not_or, not_not] at h
  exact h.2

theorem map_snd_zipWith_params {pis lams : List (String × TermId)}
    (h : pis.length = lams.length) :
    (List.zipWith (fun pi lam => ((lam.1, pi.2) : String × TermId)) pis lams).map (·.2) =
      pis.map (·.2) := by
  induction pis generalizing lams with
  | nil => rfl
  | cons p rest ih =>
      cases lams with
      | nil => cases h
      | cons l lams => exact congrArg (p.2 :: ·) (ih (Nat.succ.inj h))

/-- The types of the parameters of a definition stand inside its type. -/
theorem within_params {ty top : TermId} (hty : ty < limit ∧ s.Reaches top ty)
    {params : List (String × TermId)}
    (hparams : params.map (·.2) = (s.piChain ty).1.map (·.2)) :
    ∀ p ∈ params, p.2 < limit ∧ s.Reaches top p.2 := by
  intro p hp
  have hmem : p.2 ∈ (s.piChain ty).1.map (·.2) := hparams ▸ List.mem_map_of_mem hp
  obtain ⟨q, hq, heq⟩ := List.mem_map.mp hmem
  obtain ⟨j, hj⟩ := List.getElem?_of_mem hq
  have hwithin := (s.within_piChain ty).1 j q hj
  rw [← heq]
  exact ⟨hwithin.2.trans hty.1, hty.2.trans hwithin.1.reaches⟩

/-- A closed term may be used in a scope without binders. -/
theorem usable_top {c : TermId} (hc : c < limit) : Usable s c limit [] 0 c :=
  ⟨hc, .refl _, fun _ _ => rfl⟩

/-- The parameters of a definition with as many of them as its type may be used inside the
parameters before them, and what follows them inside all of them. -/
theorem usable_params {ty body : TermId} (htylt : ty < limit) (hbodylt : body < limit)
    (hlength : (s.piChain ty).1.length = (s.lamChain body).1.length) :
    (∀ (j : Nat) (p : String × TermId),
      (List.zipWith (fun pi lam => ((lam.1, pi.2) : String × TermId)) (s.piChain ty).1
        (s.lamChain body).1)[j]? = some p → Usable s ty limit [] j p.2) ∧
    Usable s ty limit (insideParams s [] ((s.piChain ty).1.map (·.2))) 0 (s.piChain ty).2 ∧
    Usable s body limit (insideParams s [] ((s.piChain ty).1.map (·.2))) 0
      (s.lamChain body).2 := by
  obtain ⟨hpis, hcodomain⟩ := within_piChain s ty
  have hinner := (within_lamChain s body).2
  refine ⟨fun j p hp => ?_, Usable.insideParams _ ?_, Usable.insideParams _ ?_⟩
  · have hsnd : ((s.piChain ty).1.map (·.2))[j]? = some p.2 := by
      rw [← map_snd_zipWith_params hlength, List.getElem?_map, hp]
      rfl
    rw [List.getElem?_map, Option.map_eq_some_iff] at hsnd
    obtain ⟨q, hq, heq⟩ := hsnd
    exact heq ▸ (usable_top htylt).within_zero (hpis j q hq).1
  · rw [List.length_map]
    exact (usable_top htylt).within hcodomain
  · rw [List.length_map, hlength]
    exact (usable_top hbodylt).within hinner

/-- A definition in a scope without binders reads as outlined. -/
theorem ensures_definition (hR : Composes I R) {ty body : TermId}
    (hrender : ∀ c < limit, s.Reaches ty c ∨ s.Reaches body c →
      RendersAt cfg s look I R render c)
    (hty : Safe cfg s avoid P ty) (hbody : Safe cfg s avoid P body) (htylt : ty < limit)
    (hbodylt : body < limit) (hsp : Spells avoid limit scope [] []) (name : String) :
    Ensures I R (translateDefinition cfg s render scope name ty body) fun d =>
      ∃ c, d.content? = some c ∧ ReadsAs P [] c (outlineDefinition cfg s look ty body) := by
  have hrenderty : ∀ c < limit, s.Reaches ty c → RendersAt cfg s look I R render c :=
    fun c hc h => hrender c hc (Or.inl h)
  have hrenderbody : ∀ c < limit, s.Reaches body c → RendersAt cfg s look I R render c :=
    fun c hc h => hrender c hc (Or.inr h)
  unfold translateDefinition outlineDefinition
  dsimp only
  by_cases hplain : (s.piChain ty).1.isEmpty || (s.piChain ty).1.length ≠ (s.lamChain body).1.length
  · rw [if_pos hplain, if_pos hplain]
    refine ensures_bind hR (ensures_term hR hty hrenderty hsp (usable_top htylt)) ?_
    rintro type ⟨rty, hrty, htype⟩
    refine ensures_bind hR (ensures_lifted hR hbody hrenderbody hsp (usable_top hbodylt)) ?_
    rintro e ⟨r, hr, he⟩
    exact ensures_pure hR ⟨_, rfl, _, by rw [hrty, hr]; rfl,
      reads_lam_nil (reads_ascription he htype)⟩
  · rw [if_neg hplain, if_neg hplain]
    have hlength := length_eq_of_params hplain
    obtain ⟨hparams, hcodomain, hinner⟩ := usable_params htylt hbodylt hlength
    refine ensures_bind hR (ensures_bindParams hR hty hrenderty _ hsp hparams) ?_
    rintro ⟨params, scope'⟩ ⟨names', rs, hrs, htel, hsp'⟩
    rw [map_snd_zipWith_params hlength] at hrs hsp'
    refine ensures_bind hR (ensures_term hR hty hrenderty hsp' hcodomain) ?_
    rintro type ⟨rty, hrty, htype⟩
    refine ensures_bind hR (ensures_lifted hR hbody hrenderbody hsp' hinner) ?_
    rintro e ⟨r, hr, he⟩
    have hread := htel.reads_lam (reads_lam_nil (reads_ascription he htype))
    rw [List.append_nil] at hread
    exact ensures_pure hR ⟨_, rfl, _, by rw [hrs, hrty, hr]; rfl, hread⟩

/-- What is asked of the names in every unit. -/
def UnitsSafe (cfg : Config) (s : Store) (P : List String → String → Prop) : Prop :=
  ∀ e roots, ∀ root ∈ roots, Safe cfg s (cfg.Avoided e s roots) P root

/-- The declaration of a constant reads as outlined. -/
theorem ensures_declaration (hR : Composes I R) (hunits : UnitsSafe cfg s P) {ty : TermId}
    {body : Option TermId}
    (hrender : ∀ c < limit, (∃ root ∈ ty :: body.toList, s.Reaches root c) →
      RendersAt cfg s look I R render c)
    (hlt : ∀ c ∈ ty :: body.toList, c < limit) (name : String) :
    Ensures I R (declaration cfg s render name ty body) fun d =>
      ∃ c, d.content? = some c ∧ ReadsAs P [] c (outlineDeclaration cfg s look ty body) := by
  unfold declaration
  refine ensures_bind hR (ensures_get hR) fun e _ => ?_
  have hty := hunits e (ty :: body.toList) ty (by simp)
  have hsp : Spells (cfg.Avoided e s (ty :: body.toList)) limit
      (Scope.ofUnit cfg e s (ty :: body.toList)) [] [] := spells_ofUnit limit
  cases body with
  | none =>
      refine ensures_bind hR (ensures_term hR hty
        (fun c hc hreach => hrender c hc ⟨ty, by simp, hreach⟩) hsp
        ⟨hlt ty (by simp), .refl _, fun _ _ => rfl⟩) fun type htype => ?_
      exact ensures_pure hR ⟨_, rfl, htype⟩
  | some body =>
      refine ensures_definition hR (fun c hc hreach => hrender c hc ?_) hty
        (hunits e _ body (by simp)) (hlt ty (by simp)) (hlt body (by simp)) hsp name
      rcases hreach with hreach | hreach
      · exact ⟨ty, by simp, hreach⟩
      · exact ⟨body, by simp, hreach⟩

end Declarations

end TermGraph
