import Mathlib
import TermGraph.Proofs.Translate.Naming
import TermGraph.Proofs.Translate.Run

/-!
# Binders read as outlined

What the translator puts in front of a body, binders with their hypotheses, reads
as the outline of it, and leaves a scope that fits the context inside.
-/

namespace TermGraph

open Target Store

/-- What is asked of the structural form of a term: in every scope that fits a
context it reads as outlined. -/
def RendersAt (cfg : Config) (s : Store) (look : Outliner) (I : Emission → Prop)
    (R : Emission → Emission → Prop) (render : Render) (id : TermId) : Prop :=
  ∀ avoid P scope ctx names, Safe cfg s avoid P id → Spells avoid id scope ctx names →
    ctx.Covers (s.looseVars id) →
    Ensures I R (render scope id) fun e => ReadsAs P names e (look ctx id)

/-- What renders the parts of a node. -/
def Config.renderBelow (cfg : Config) (s : Store) (id : TermId) : Render :=
  fun scope c => if _ : c < id then cfg.translateNode s scope c else pure default

theorem translateNode_eq (cfg : Config) (s : Store) (scope : Scope) (id : TermId) :
    cfg.translateNode s scope id = translateStep cfg s (cfg.renderBelow s id) scope id := by
  rw [Config.translateNode]
  rfl

theorem renderBelow_eq {cfg : Config} {s : Store} {c id : TermId} (hc : c < id)
    (scope : Scope) : cfg.renderBelow s id scope c = cfg.translateNode s scope c :=
  dif_pos hc

theorem RendersAt.renderBelow {cfg : Config} {s : Store} {look : Outliner}
    {I : Emission → Prop} {R : Emission → Emission → Prop} {c id : TermId}
    (h : RendersAt cfg s look I R (cfg.translateNode s) c) (hc : c < id) :
    RendersAt cfg s look I R (cfg.renderBelow s id) c := by
  intro avoid P scope ctx names hsafe hsp hcovers
  rw [renderBelow_eq hc]
  exact h avoid P scope ctx names hsafe hsp hcovers

theorem RendersAt.assume {cfg : Config} {s : Store} {look : Outliner}
    {I I' : Emission → Prop} {R : Emission → Emission → Prop} {render : Render} {id : TermId}
    (h : RendersAt cfg s look I R render id) (hI : ∀ e, I' e → I e) :
    RendersAt cfg s look I' R render id :=
  fun avoid P scope ctx names hsafe hsp hcovers =>
    (h avoid P scope ctx names hsafe hsp hcovers).assume hI

/-- A term that may be translated inside `depth` more binders of a context: it stands
in the term `top`, is below the limit, and its variables have binders with names. -/
structure Usable (s : Store) (top limit : TermId) (ctx : Context) (depth : Nat)
    (id : TermId) : Prop where
  lt : id < limit
  reaches : s.Reaches top id
  covered : ∀ i, i + depth ∈ s.looseVars id → ctx.isUnnamed i = false

section Usable

variable {s : Store} {top limit : TermId} {ctx : Context} {depth : Nat} {id c ty : TermId}

theorem Usable.within {d : Nat} (h : Usable s top limit ctx depth id) (hc : s.Within id d c) :
    Usable s top limit ctx (depth + d) c where
  lt := lt_of_le_of_lt hc.reaches.le h.lt
  reaches := h.reaches.trans hc.reaches
  covered := fun i hi => h.covered i (hc.mem_looseVars (by rwa [Nat.add_assoc]))

theorem Usable.within_zero {d : Nat} (h : Usable s top limit ctx 0 id)
    (hc : s.Within id d c) : Usable s top limit ctx d c :=
  Nat.zero_add d ▸ h.within hc

theorem Usable.named (h : Usable s top limit ctx (depth + 1) id) :
    Usable s top limit (.named :: ctx) depth id where
  lt := h.lt
  reaches := h.reaches
  covered := fun i hi => by
    cases i with
    | zero => rfl
    | succ i => exact h.covered i (by rwa [Nat.add_comm depth 1, ← Nat.add_assoc])

theorem Usable.extras (h : Usable s top limit ctx depth id) (m : Nat) :
    Usable s top limit (List.replicate m .extra ++ ctx) depth id where
  lt := h.lt
  reaches := h.reaches
  covered := fun i hi => by
    rw [Context.isUnnamed_replicate_extra]
    exact h.covered i hi

theorem Usable.insideBinder (h : Usable s top limit ctx (depth + 1) id) (ty : TermId) :
    Usable s top limit (insideBinder s ctx ty) depth id :=
  h.named.extras _

theorem Usable.insideParams (types : List TermId) :
    ∀ {ctx : Context}, Usable s top limit ctx (depth + types.length) id →
      Usable s top limit (insideParams s ctx types) depth id := by
  induction types with
  | nil => exact fun h => h
  | cons ty rest ih => exact fun h => ih (h.insideBinder ty)

theorem Usable.unnamed (h : Usable s top limit ctx 1 id) (hunused : 0 ∉ s.looseVars id) :
    Usable s top limit (.unnamed :: ctx) 0 id where
  lt := h.lt
  reaches := h.reaches
  covered := fun i hi => by
    cases i with
    | zero => exact absurd hi hunused
    | succ i => exact h.covered i hi

/-- A place inside a term may be used where the term may. -/
theorem usable_of_strictlyWithin (hcovers : ctx.Covers (s.looseVars id))
    (hc : s.StrictlyWithin id depth c) : Usable s id id ctx depth c where
  lt := hc.2
  reaches := hc.1.reaches
  covered := fun i hi => hcovers i (hc.1.mem_looseVars hi)

theorem isLifted_insideBinder (ctx : Context) (ty c : TermId) :
    (insideBinder s ctx ty).isLifted c = ctx.isLifted c := by
  unfold insideBinder Context.isLifted
  induction (classesOf s ty).length with
  | zero => simp [Context.lifted?]
  | succ m ih => simpa [List.replicate_succ, Context.lifted?] using ih

end Usable

section Binders

variable {cfg : Config} {s : Store} {look : Outliner} {render : Render}
  {I : Emission → Prop} {R : Emission → Emission → Prop}
  {avoid : String → Prop} {P : List String → String → Prop} {top limit : TermId}
  (hR : Composes I R) (hsafe : Safe cfg s avoid P top)
  (hrender : ∀ c < limit, s.Reaches top c → RendersAt cfg s look I R render c)
  {scope : Scope} {ctx : Context} {names : List String}

include hsafe in
/-- A name of the context is read as its binder. -/
theorem reads_name (hsp : Spells avoid limit scope ctx names) {k : Nat} {x : String}
    (hx : names[k]? = some x) : Reads P names (.var x) (.bound k) :=
  reads_bound hsp.nodup hx (hsafe.bound names x hsp.clear (List.mem_of_getElem? hx))

include hR hsafe hrender in
theorem ensures_term (hsp : Spells avoid limit scope ctx names) {c : TermId}
    (hc : Usable s top limit ctx 0 c) :
    Ensures I R (translateTerm render scope c) fun e =>
      ReadsAs P names e (outlineTerm look ctx c) := by
  unfold translateTerm
  rw [hsp.shared c hc.lt]
  cases hx : ctx.liftedName? names c with
  | some x =>
      obtain ⟨k, hk, hname⟩ := Context.liftedName?_eq_some hx
      rw [outlineTerm, hk]
      exact ensures_pure hR ⟨_, rfl, reads_name hsafe hsp hname⟩
  | none =>
      rw [outlineTerm, Context.liftedName?_eq_none hsp.spelled hx]
      exact hrender c hc.lt hc.reaches avoid P scope ctx names (hsafe.of_reaches hc.reaches)
        (hsp.mono (le_of_lt hc.lt)) hc.covered

/-- Expressions that read as what may be missing read as a list of what is there. -/
theorem exists_mapM_of_readsAs {α : Type} {f : α → Option Resolved} {xs : List α}
    {es : List Expr} (h : List.Forall₂ (fun x e => ReadsAs P names e (f x)) xs es) :
    ∃ rs, xs.mapM f = some rs ∧ List.Forall₂ (Reads P names) es rs := by
  induction h with
  | nil => exact ⟨[], rfl, .nil⟩
  | cons hx _ ih =>
      obtain ⟨r, hr, hread⟩ := hx
      obtain ⟨rs, hrs, hreads⟩ := ih
      exact ⟨r :: rs, by rw [List.mapM_cons, hr, hrs]; rfl, .cons hread hreads⟩

include hR hsafe hrender in
theorem ensures_terms (hsp : Spells avoid limit scope ctx names) {args : List TermId}
    (hargs : ∀ a ∈ args, Usable s top limit ctx 0 a) :
    Ensures I R (translateTerms render scope args) fun es =>
      ∃ rs, outlineTerms look ctx args = some rs ∧ List.Forall₂ (Reads P names) es rs := by
  refine (ensures_mapM hR fun a ha => ensures_term hR hsafe hrender hsp (hargs a ha)).imp ?_
  exact fun es hes => exists_mapM_of_readsAs hes

/-- A named binder of a type family's argument. -/
def explicitBinder (b : String × Expr) : Binder Expr :=
  ⟨b.1, b.2, false⟩

include hR hsafe hrender in
/-- The arguments of a type family read as outlined, and their names come first. -/
theorem ensures_bindDomains (domains : List (String × TermId)) :
    ∀ {scope ctx names}, Spells avoid limit scope ctx names →
      (∀ j p, domains[j]? = some p → Usable s top limit ctx j p.2) →
      Ensures I R (bindDomains render scope domains) fun b =>
        ∃ names' rs, names' = (b.1.map (·.1)).reverse ++ names ∧
          b.1.length = domains.length ∧
          outlineDomains look ctx (domains.map (·.2)) = some rs ∧
          Telescope P names (b.1.map explicitBinder) rs names' ∧
          Spells avoid limit b.2 (List.replicate domains.length .named ++ ctx) names' := by
  induction domains with
  | nil =>
      intro scope ctx names hsp _
      exact ensures_pure hR ⟨names, [], rfl, rfl, rfl, .nil, hsp⟩
  | cons p rest ih =>
      obtain ⟨x, d⟩ := p
      intro scope ctx names hsp husable
      rw [bindDomains]
      refine ensures_bind hR (ensures_term hR hsafe hrender hsp (husable 0 (x, d) rfl)) ?_
      rintro type ⟨r, hr, htype⟩
      obtain ⟨hsp', hfresh⟩ := hsp.fresh x
      refine ensures_bind hR
        (ih (hsp'.named hfresh) fun j p hp => (husable (j + 1) p hp).named) ?_
      rintro ⟨binders, inside⟩ ⟨names', rs, hnames, hlength, hrs, htel, hsp''⟩
      refine ensures_pure hR ⟨names', (false, r) :: rs, ?_, ?_, ?_,
        .cons htype hfresh.not_mem htel, ?_⟩
      · simp [hnames]
      · simp [hlength]
      · rw [List.map_cons, outlineDomains, hr, hrs]
        rfl
      · simpa only [List.length_cons, List.replicate_succ', List.append_assoc,
          List.singleton_append] using hsp''

include hsafe in
/-- Names of the innermost binders, outermost first, read as these binders. -/
theorem forall₂_reads_names {xs names : List String}
    (hsp : Spells avoid limit scope ctx (xs.reverse ++ names)) :
    List.Forall₂ (Reads P (xs.reverse ++ names)) (xs.map Expr.var)
      ((List.range xs.length).reverse.map Resolved.bound) := by
  rw [← List.forall₂_reverse_iff, ← List.map_reverse, ← List.map_reverse, List.reverse_reverse,
    List.forall₂_iff_get]
  refine ⟨by simp, fun i hi _ => ?_⟩
  have hlt : i < xs.reverse.length := by simpa using hi
  simp only [List.get_eq_getElem, List.getElem_map, List.getElem_range]
  exact reads_name hsafe hsp (by
    rw [List.getElem?_append_left hlt, List.getElem?_eq_getElem hlt])

include hR hsafe hrender in
/-- The type of a hypothesis reads as outlined; its parameter is a name of the
context. -/
theorem ensures_hypothesisType (hsp : Spells avoid limit scope ctx names) {param : String}
    {k : Nat} (hparam : names[k]? = some param) {ty : TermId}
    (hty : Usable s top limit ctx 0 ty) {cls : String} (hcls : cls ∈ cfg.fixedNames) :
    Ensures I R (hypothesisType s render scope param ty cls) fun e =>
      ReadsAs P names e (outlineHypothesis s look ctx k ty cls) := by
  unfold hypothesisType
  have hdomains : ∀ j p, (s.piChain ty).1[j]? = some p → Usable s top limit ctx j p.2 :=
    fun j p hp => hty.within_zero ((s.within_piChain ty).1 j p hp).1
  refine ensures_bind hR (ensures_bindDomains hR hsafe hrender _ hsp hdomains) ?_
  rintro ⟨binders, inside⟩ ⟨names', rs, hnames, hlength, hrs, htel, hsp'⟩
  dsimp only at hnames hlength htel hsp' ⊢
  have hparam' : names'[k + binders.length]? = some param := by
    rw [hnames, List.getElem?_append_right (by simp)]
    simpa using hparam
  have hargs : List.Forall₂ (Reads P names') (binders.map fun b => Expr.var b.1)
      ((List.range binders.length).reverse.map Resolved.bound) := by
    have h := forall₂_reads_names hsafe (hnames ▸ hsp')
    simpa only [List.map_map, List.length_map, ← hnames, Function.comp_def] using h
  have hconstraint : Reads P names'
      (.mkApp (.var cls) [.mkApp (.var param) (binders.map fun b => Expr.var b.1)])
      (.app (.free cls) ((Resolved.bound (k + binders.length)).applyAll
        ((List.range binders.length).reverse.map Resolved.bound))) := by
    refine reads_mkApp (reads_free (hsafe.fixed cls hcls names' hsp'.clear)) (.cons ?_ .nil)
    exact reads_mkApp (reads_name hsafe hsp' hparam') hargs
  have houtline : outlineHypothesis s look ctx k ty cls = some (.pis rs
      (.app (.free cls) ((Resolved.bound (k + binders.length)).applyAll
        ((List.range binders.length).reverse.map Resolved.bound)))) := by
    rw [outlineHypothesis, hrs, List.length_map, ← hlength]
    rfl
  have hread := htel.reads_pi (reads_pi_nil hconstraint)
  simp only [List.append_nil, List.map_map] at hread
  split
  · rename_i hempty
    have hnil : binders = [] := List.isEmpty_iff.mp hempty
    refine ensures_pure hR ⟨_, houtline, ?_⟩
    rw [hnil] at htel hread hconstraint ⊢
    cases htel with
    | nil => exact hconstraint
  · exact ensures_pure hR ⟨_, houtline, hread⟩

/-! ## Parameters and their hypotheses -/

theorem classes_subset_fixedNames (flags : SortFlags) :
    ∀ c ∈ constraintClasses flags, c.2 ∈ cfg.fixedNames := by
  intro c hc
  unfold constraintClasses at hc
  rw [List.mem_append] at hc
  rcases hc with hc | hc <;> split at hc <;> simp_all [Config.fixedNames]

include hR hsafe hrender in
/-- The hypotheses of a parameter read as outlined.  Neither they nor the parameter are
binders of the term yet. -/
theorem ensures_hypotheses {param : String} {ty : TermId}
    (hty : Usable s top limit ctx 0 ty) (classes : List (String × String)) :
    ∀ {scope names} (count : Nat), (∀ c ∈ classes, c.2 ∈ cfg.fixedNames) →
      Spells avoid limit scope (List.replicate (count + 1) .extra ++ ctx) names →
      names[count]? = some param →
      Ensures I R (hypotheses s render scope param ty classes) fun b =>
        ∃ names' rs, outlineHypotheses s look ctx ty count (classes.map (·.2)) = some rs ∧
          Telescope P names b.1 rs names' ∧
          Spells avoid limit b.2
            (List.replicate (count + classes.length + 1) .extra ++ ctx) names' ∧
          names'[count + classes.length]? = some param := by
  induction classes with
  | nil =>
      intro scope names count _ hsp hparam
      exact ensures_pure hR ⟨names, [], rfl, .nil, hsp, hparam⟩
  | cons c rest ih =>
      obtain ⟨start, cls⟩ := c
      intro scope names count hcls hsp hparam
      rw [hypotheses]
      refine ensures_bind hR
        (ensures_hypothesisType hR hsafe hrender hsp hparam (hty.extras _)
          (hcls (start, cls) (by simp))) ?_
      rintro type ⟨r, hr, htype⟩
      obtain ⟨hsp', hfresh⟩ := hsp.fresh (start ++ "_" ++ param)
      have hnext : Spells avoid limit (scope.fresh (start ++ "_" ++ param)).2
          (List.replicate (count + 1 + 1) .extra ++ ctx)
          ((scope.fresh (start ++ "_" ++ param)).1 :: names) := hsp'.extra hfresh
      refine ensures_bind hR
        (ih (count + 1) (fun c hc => hcls c (by simp [hc])) hnext hparam) ?_
      rintro ⟨hyps, inside⟩ ⟨names', rs, hrs, htel, hsp'', hparam'⟩
      have hcount : count + (rest.length + 1) = count + 1 + rest.length := by omega
      refine ensures_pure hR ⟨names', (true, r) :: rs, ?_,
        .cons htype hfresh.not_mem htel, ?_, ?_⟩
      · rw [List.map_cons, outlineHypotheses, hr, hrs]
        rfl
      · rw [List.length_cons, hcount]
        exact hsp''
      · rw [List.length_cons, hcount]
        exact hparam'

include hR hsafe hrender in
/-- A binder gets a fresh name, and its hypotheses read as outlined. -/
theorem ensures_bindNamed (hsp : Spells avoid limit scope ctx names) (x : String)
    {ty : TermId} (hty : Usable s top limit ctx 0 ty) :
    Ensures I R (bindNamed s render scope x ty) fun b =>
      b.1 ∉ names ∧ ∃ names' rs,
        outlineHypotheses s look ctx ty 0 (classesOf s ty) = some rs ∧
        Telescope P (b.1 :: names) b.2.1 rs names' ∧
        Spells avoid limit b.2.2 (insideBinder s ctx ty) names' := by
  unfold bindNamed
  obtain ⟨hsp', hfresh⟩ := hsp.fresh x
  refine ensures_bind hR
    (ensures_hypotheses hR hsafe hrender hty (constraintClasses (sortFlags s ty)) 0
      (classes_subset_fixedNames _) (hsp'.extra hfresh) rfl) ?_
  rintro ⟨hyps, inside⟩ ⟨names', rs, hrs, htel, hsp'', hparam⟩
  rw [Nat.zero_add, List.replicate_succ', List.append_assoc, List.singleton_append] at hsp''
  rw [Nat.zero_add] at hparam
  refine ensures_pure hR ⟨hfresh.not_mem, names', rs, hrs, htel, ?_⟩
  rw [insideBinder, classesOf, List.length_map]
  exact hsp''.promote hparam

theorem outlineBinder_eq_some {ty : TermId} {r : Resolved} {rs : List (Bool × Resolved)}
    (hr : outlineTerm look ctx ty = some r)
    (hrs : outlineHypotheses s look ctx ty 0 (classesOf s ty) = some rs) :
    outlineBinder s look ctx ty = some ((false, r) :: rs) := by
  rw [outlineBinder, hr, hrs]
  rfl

include hR hsafe hrender in
/-- Parameters read as outlined and leave a scope that fits the context inside. -/
theorem ensures_bindParams (params : List (String × TermId)) :
    ∀ {scope ctx names}, Spells avoid limit scope ctx names →
      (∀ j p, params[j]? = some p → Usable s top limit ctx j p.2) →
      Ensures I R (bindParams s render scope params) fun b =>
        ∃ names' rs, outlineParams s look ctx (params.map (·.2)) = some rs ∧
          Telescope P names b.1 rs names' ∧
          Spells avoid limit b.2 (insideParams s ctx (params.map (·.2))) names' := by
  induction params with
  | nil =>
      intro scope ctx names hsp _
      exact ensures_pure hR ⟨names, [], rfl, .nil, hsp⟩
  | cons p rest ih =>
      obtain ⟨x, ty⟩ := p
      intro scope ctx names hsp husable
      have hty := husable 0 (x, ty) rfl
      rw [bindParams]
      refine ensures_bind hR (ensures_term hR hsafe hrender hsp hty) ?_
      rintro type ⟨r, hr, htype⟩
      refine ensures_bind hR (ensures_bindNamed hR hsafe hrender hsp x hty) ?_
      rintro ⟨x', hyps, inside⟩ ⟨hx, names', rs, hrs, htel, hsp'⟩
      refine ensures_bind hR
        (ih hsp' fun j p hp => (husable (j + 1) p hp).insideBinder ty) ?_
      rintro ⟨binders, inside'⟩ ⟨names'', rs', hrs', htel', hsp''⟩
      refine ensures_pure hR ⟨names'', (false, r) :: rs ++ rs', ?_,
        .append (.cons htype hx htel) htel', hsp''⟩
      rw [List.map_cons, outlineParams, outlineBinder_eq_some hr hrs, hrs']
      rfl

end Binders

end TermGraph
