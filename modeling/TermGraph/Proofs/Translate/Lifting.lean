import Mathlib
import TermGraph.Proofs.Translate.Handled
import TermGraph.Proofs.Translate.Lexical
import TermGraph.Proofs.Translate.Unlift

/-!
# Naming shared subterms keeps the translation

A term inside bindings of its shared subterms means what the term without them means,
once the names are replaced by their values, in the order of the bindings.  The names
are distinct, and a value mentions names that are bound before it only.
-/

namespace TermGraph

open Target Store

/-! ## Scopes that a unit enters -/

/-- Picks a name for each of several binders. -/
def Scope.freshEach (scope : Scope) : List String → List String × Scope
  | [] => ([], scope)
  | base :: rest =>
      let (x, scope) := scope.fresh base
      let (xs, scope) := freshEach scope rest
      (x :: xs, scope)

/-- The scopes of a unit before any of its subterms gets a name, with the names of the
binders around the place, innermost first: the scope at its start, and those inside
binders, of which some have a name and perhaps hypotheses, and some have none. -/
inductive Scope.Entered (cfg : Config) (s : Store) (e : Emission) (roots : List TermId) :
    Scope → List String → Prop where
  | start : Entered cfg s e roots (Scope.ofUnit cfg e s roots) []
  | named {scope : Scope} {names : List String} (h : Entered cfg s e roots scope names)
      (x : String) (hyps : List String) :
      Entered cfg s e roots
        (((scope.fresh x).2.freshEach hyps).2.bind (scope.fresh x).1)
        (((scope.fresh x).2.freshEach hyps).1.reverse ++ (scope.fresh x).1 :: names)
  | unnamed {scope : Scope} {names : List String} (h : Entered cfg s e roots scope names) :
      Entered cfg s e roots (scope.bind "_") names

/-- A context in which no subterm has a name, and whose binders without a name are those
that a scope has a blank for. -/
structure Plain (scope : Scope) (ctx : Context) : Prop where
  lifted : ∀ id, ctx.lifted? id = none
  blank : ∀ i, ctx.isUnnamed i = true → scope.local? i = some "_"

section Entered

variable {cfg : Config} {s : Store} {e : Emission} {roots : List TermId} {scope : Scope}
  {names : List String} {avoid : String → Prop} {limit : TermId} {ctx : Context}

/-- Names of hypotheses are fresh. -/
theorem Spells.freshEach (bases : List String) :
    ∀ {scope : Scope} {names : List String} (count : Nat),
      Spells avoid limit scope (List.replicate count .extra ++ .extra :: ctx) names →
      Spells avoid limit (scope.freshEach bases).2
        (List.replicate (count + bases.length) .extra ++ .extra :: ctx)
        ((scope.freshEach bases).1.reverse ++ names) ∧
        (scope.freshEach bases).1.length = bases.length ∧
        (scope.freshEach bases).2.env = scope.env := by
  induction bases with
  | nil => exact fun count h => ⟨h, rfl, rfl⟩
  | cons base rest ih =>
      intro scope names count h
      obtain ⟨h', hfresh⟩ := h.fresh base
      obtain ⟨hsp, hlength, henv⟩ := ih (count + 1) (h'.extra hfresh)
      refine ⟨?_, congrArg (· + 1) hlength, henv⟩
      rw [List.length_cons, Nat.add_comm rest.length, ← Nat.add_assoc]
      simpa [Scope.freshEach] using hsp

/-- A scope that a unit enters fits a context. -/
theorem Scope.Entered.spells (h : Scope.Entered cfg s e roots scope names)
    (limit : TermId) :
    ∃ ctx, Spells (cfg.Avoided e s roots) limit scope ctx names ∧ Plain scope ctx := by
  induction h with
  | start =>
      exact ⟨[], spells_ofUnit limit, fun _ => rfl, fun i hi => by cases hi⟩
  | @named scope names _ x hyps ih =>
      obtain ⟨ctx, hsp, hplain⟩ := ih
      obtain ⟨hsp', hfresh⟩ := hsp.fresh x
      obtain ⟨hinside, hlength, henv⟩ := Spells.freshEach hyps 0 (hsp'.extra hfresh)
      rw [Nat.zero_add] at hinside
      refine ⟨_, hinside.promote (x := (scope.fresh x).1) ?_, fun id => ?_, fun i hi => ?_⟩
      · rw [List.getElem?_append_right (by simp [hlength])]
        simp [hlength]
      · have hnone := hplain.lifted id
        induction hyps.length with
        | zero => simp [Context.lifted?, hnone]
        | succ m ihm => simpa [List.replicate_succ, Context.lifted?] using ihm
      · rw [Context.isUnnamed_replicate_extra] at hi
        cases i with
        | zero => cases hi
        | succ i =>
            show ((scope.fresh x).2.freshEach hyps).2.env[i]? = some "_"
            rw [henv]
            exact hplain.blank i hi
  | unnamed _ ih =>
      obtain ⟨ctx, hsp, hplain⟩ := ih
      refine ⟨.unnamed :: ctx, hsp.unnamed, hplain.lifted, fun i hi => ?_⟩
      cases i with
      | zero => rfl
      | succ i => exact hplain.blank i hi

end Entered

/-! ## Values mention earlier names only -/

section Order

variable {cfg : Config} {s : Store} {look : Outliner} {render : Render} {I : Emission → Prop}
  {R : Emission → Emission → Prop} {avoid : String → Prop} {top limit : TermId}
  {scope : Scope}

/-- Names that are kept from a term can be taken as avoided in it. -/
theorem Safe.without (hsafe : Safe cfg s avoid (fun _ _ => True) top) {kept : List String}
    (hkept : ∀ x ∈ kept, ¬ avoid x) :
    Safe cfg s (fun x => avoid x ∨ x ∈ kept) (fun _ x => x ∉ kept) top := by
  have hapart : ∀ x, Apart avoid (fun _ _ => True) x →
      Apart (fun x => avoid x ∨ x ∈ kept) (fun _ x => x ∉ kept) x := by
    intro x hx names hnames
    refine ⟨(hx names fun y hy havoid => hnames y hy (Or.inl havoid)).1, ?_⟩
    exact (hx kept hkept).1
  exact ⟨fun names x hnames hx hmem => hnames x hx (Or.inr hmem),
    fun x hx => hapart x (hsafe.fixed x hx), fun c hc => (hsafe.node c hc).imp hapart⟩

/-- Bindings inside binders of given names that have distinct names of their own, and
values that mention neither their own names nor later ones. -/
structure Ordered (names : List String) (bindings : List (Binding Expr)) : Prop where
  nodup : (bindings.map (·.name)).Nodup
  earlier : ∀ (j : Nat) (b : Binding Expr), bindings[j]? = some b →
    b.value.Everywhere (fun _ x => x ∉ (bindings.map (·.name)).drop j) (fun _ _ => True)
      (((bindings.map (·.name)).take j).reverse ++ names)

theorem ordered_nil (names : List String) : Ordered names [] :=
  ⟨List.nodup_nil, fun j b hb => by simp at hb⟩

theorem Ordered.cons {names : List String} {b : Binding Expr} {rest : List (Binding Expr)}
    (h : Ordered (b.name :: names) rest) (hname : b.name ∉ rest.map (·.name))
    (hvalue : b.value.Everywhere (fun _ x => x ∉ b.name :: rest.map (·.name))
      (fun _ _ => True) names) : Ordered names (b :: rest) where
  nodup := List.nodup_cons.mpr ⟨hname, h.nodup⟩
  earlier := by
    intro j b' hb'
    cases j with
    | zero =>
        cases hb'
        exact hvalue
    | succ j => simpa using h.earlier j b' hb'

/-- Bindings of shared subterms have their names, and are ordered. -/
theorem ensures_shareBindings_ordered (hR : Composes I R)
    (hsafe : Safe cfg s avoid (fun _ _ => True) top)
    (hrender : ∀ c < limit, s.Reaches top c → RendersAt cfg s look I R render c)
    (named : List (TermId × String)) :
    ∀ {ctx names}, Shares avoid limit scope ctx names named →
      (named.map (·.1)).Pairwise (· < ·) →
      (∀ p ∈ named, p.1 < limit ∧ s.Reaches top p.1 ∧ s.looseVars p.1 = []) →
      Ensures I R (shareBindings render scope named) fun bs =>
        bs.map (·.name) = named.map (·.2) ∧ Ordered names bs := by
  induction named with
  | nil => exact fun {_ names} _ _ _ => ensures_pure hR ⟨rfl, ordered_nil names⟩
  | cons p rest ih =>
      obtain ⟨t, x⟩ := p
      intro ctx names h hsorted husable
      obtain ⟨hlt, hreaches, hclosed⟩ := husable (t, x) (by simp)
      rw [List.map_cons, List.pairwise_cons] at hsorted
      have hfits : Spells avoid t scope ctx names := h.spells_oldest (le_of_lt hlt) hsorted.1
      have hkept : ∀ y ∈ x :: rest.map (·.2), Spells.Fresh avoid scope names y := by
        intro y hy
        obtain ⟨p, hp, rfl⟩ : ∃ p ∈ (t, x) :: rest, p.2 = y := List.mem_map.mp hy
        exact (h.pending p hp).2
      have hfits' : Spells (fun y => avoid y ∨ y ∈ x :: rest.map (·.2)) t scope ctx names :=
        { hfits with
          clear := fun y hy havoid => havoid.elim (hfits.clear y hy)
            fun hmem => (hkept y hmem).not_mem hy
          avoids := fun y havoid => havoid.elim (hfits.avoids y)
            fun hmem => Or.inl (hkept y hmem).taken }
      have hvalue := hrender t hlt hreaches _ _ scope ctx names
        ((hsafe.of_reaches hreaches).without fun y hy => (hkept y hy).clear) hfits'
        (by simp [Context.Covers, hclosed])
      rw [shareBindings]
      refine ensures_bind hR hvalue ?_
      rintro v ⟨rv, -, hv⟩
      refine ensures_bind hR
        (ih h.next hsorted.2 fun p hp => husable p (by simp [hp])) ?_
      rintro bs ⟨hnames, hordered⟩
      refine ensures_pure hR ⟨congrArg (x :: ·) hnames, hordered.cons ?_ ?_⟩
      · rw [hnames]
        exact (List.nodup_cons.mp h.nodup).1
      · rw [hnames]
        exact hv.everywhere.imp (fun _ _ h => h) (fun _ _ _ => trivial) _

end Order

/-! ## Bindings and what they are around -/

section Unfolding

variable {cfg : Config} {s : Store} {e₀ : Emission} {roots : List TermId} {scope : Scope}
  {names : List String} {top root : TermId}

/-- The translation of a term inside bindings of its shared subterms consists of these
bindings and what they are around. -/
theorem translateLifted_ordered (htable : cfg.table.BindsNothing)
    (hscope : Scope.Entered cfg s e₀ roots scope names) (htop : top ∈ roots)
    (hreach : s.Reaches top root) {e e' : Emission} {t : Expr}
    (hrun : (translateLifted cfg s (cfg.translateNode s) scope root).run e = .ok (t, e')) :
    ∃ bindings body, t = .mkLet bindings body ∧
      bindings.length = (cfg.namedTerms s root).length ∧ Ordered names bindings := by
  obtain ⟨ctx, hsp, -⟩ := hscope.spells (root + 1)
  have hunits : UnitsSafe cfg s fun _ _ => True := unitsSafe_scoped htable
  have hnamed : ∀ t ∈ cfg.namedTerms s root,
      t < root + 1 ∧ s.Reaches top t ∧ s.looseVars t = [] := by
    intro t ht
    obtain ⟨hreaches, hshould⟩ := Config.of_mem_namedTerms ht
    exact ⟨Nat.lt_succ_of_le hreaches.le, hreach.trans hreaches,
      Config.looseVars_of_shouldName hshould⟩
  have hsorted : (cfg.namedTerms s root).Pairwise (· < ·) := ascending_sharedTermsBy root _
  unfold translateLifted at hrun
  generalize cfg.namedTerms s root = ids at hnamed hsorted hrun ⊢
  dsimp only at hrun
  split at hrun
  · rename_i hempty
    rw [List.isEmpty_iff.mp hempty]
    exact ⟨[], t, rfl, rfl, ordered_nil names⟩
  · obtain ⟨xs, scope', hfresh, hids, hshares⟩ :=
      hsp.shareMany (hsorted.imp ne_of_lt) cfg.options.sharedNameBase
    rw [hfresh] at hrun
    obtain ⟨bs, e₁, hbs, hrest⟩ := run_bind_eq_ok.mp hrun
    obtain ⟨body, e₂, -, hpure⟩ := run_bind_eq_ok.mp hrest
    cases hpure
    obtain ⟨-, hnames, hordered⟩ := ensures_shareBindings_ordered composes_emits_true
      (hunits e₀ roots top htop) (fun c _ _ => rendersAt_translateNode hunits c) _ hshares
      (by rwa [hids]) (fun p hp => hnamed p.1 (List.of_mem_zip hp).1) e bs e₁ trivial hbs
    refine ⟨bs, body, rfl, ?_, hordered⟩
    rw [← List.length_map (f := (·.name)), hnames, List.length_map,
      ← List.length_map (f := fun p : TermId × String => p.1), hids]

/-- Naming shared subterms keeps the translation.  Let a term be translated inside
bindings of its shared subterms, somewhere in a unit.  The names of the bindings are
distinct, and a value mentions earlier names only.  Whenever the term is translated
without bindings from the same scope, the result is what the translation with bindings
means once the names are replaced by their values.  And it is translated from the same
emission if no two constants that are still to be dealt with share an identifier. -/
theorem lifted_translation_unfolds (cfg : Config) (s : Store)
    (htable : cfg.table.BindsNothing) (hscope : Scope.Entered cfg s e₀ roots scope names)
    (htop : top ∈ roots) (hreach : s.Reaches top root)
    (hvars : ∀ i ∈ s.looseVars root, scope.local? i ≠ some "_") {e e' : Emission} {t : Expr}
    (hrun : (translateLifted cfg s (cfg.translateNode s) scope root).run e = .ok (t, e')) :
    (∃ bindings body, t = .mkLet bindings body ∧
      bindings.length = (cfg.namedTerms s root).length ∧ Ordered names bindings) ∧
    (∀ e₁ e₂ plain,
      (translateTerm (cfg.translateNode s) scope root).run e₁ = .ok (plain, e₂) →
      plain.resolve names = (t.resolve names).zeta (cfg.namedTerms s root).length) ∧
    (s.Unambiguous e.isHandled root → ∃ plain e₂,
      (translateTerm (cfg.translateNode s) scope root).run e = .ok (plain, e₂)) := by
  obtain ⟨ctx, hsp, hplain⟩ := hscope.spells (root + 1)
  have hunits : UnitsSafe cfg s fun _ _ => True := unitsSafe_scoped htable
  have hsafe := hunits e₀ roots top htop
  have hroot : Usable s top (root + 1) ctx 0 root :=
    ⟨Nat.lt_succ_self root, hreach, fun i hi => by
      by_contra h
      exact hvars i hi (hplain.blank i (by simpa using h))⟩
  have hunfold : ∀ {known r}, outlineLifted cfg s (cfg.outline s known) ctx root = some r →
      outlineTerm (cfg.outline s known) ctx root =
        some (r.zeta (cfg.namedTerms s root).length) := fun hr =>
    zeta_outlineShared htable root (ascending_sharedTermsBy root _)
      (fun t ht => ⟨(Config.of_mem_namedTerms ht).2, hplain.lifted t⟩) hr
  have hrender : ∀ c < root + 1, s.Reaches top c → RendersAt cfg s (cfg.meaning s)
      (fun _ => True) (Emits cfg s fun _ _ => True) (cfg.translateNode s) c :=
    fun c _ _ => rendersAt_translateNode hunits c
  refine ⟨translateLifted_ordered htable hscope htop hreach hrun, ?_, fun hunique => ?_⟩
  · intro e₁ e₂ plain hrun'
    obtain ⟨-, r, hr, hread⟩ :=
      ensures_lifted composes_emits_true hsafe hrender hsp hroot e t e' trivial hrun
    obtain ⟨-, r', hr', hread'⟩ :=
      ensures_term composes_emits_true hsafe hrender hsp hroot e₁ plain e₂ trivial hrun'
    rw [hunfold hr] at hr'
    cases hr'
    rw [hread.resolve_eq, hread'.resolve_eq]
  · have hdeals : Deals cfg s e.isHandled root (root + 1) e :=
      ⟨fun _ h => h, fun _ h => Or.inl h⟩
    obtain ⟨-, r, hr, -⟩ := ensures_lifted (composes_deals (root + 1))
      (hsafe.of_reaches hreach)
      (fun c hc hcreach => (rendersBelow_translateNode htable hunique c hcreach).assume
        fun e he => he.mono (Nat.succ_le_of_lt hc)) hsp
      ⟨hroot.lt, .refl root, hroot.covered⟩ e t e' hdeals hrun
    have hsucceed : ∀ c < root + 1, s.Reaches top c → SucceedsAt cfg s
        (cfg.outline s e.isHandled) (Knows e.isHandled) (cfg.translateNode s) c :=
      fun c _ _ => succeedsAt_translateNode hunits c
    exact succeeds_term hsafe hsucceed hsp hroot (hunfold hr) e fun _ h => h

end Unfolding

/-! ## Two constants of one identifier

One of them is the unit value, and the other one is defined by general recursion.  The
last node is a pair whose first part is the second constant, and whose second part holds
the first one in a shared subterm. -/

/-- The identifier of both constants. -/
def ambiguousIdent : Ident :=
  ⟨⟨["M"]⟩, "a"⟩

/-- A store with both constants. -/
def ambiguous : Store :=
  ((((((((empty.push .unitType (by decide) (index_eq_none (by decide))).push
    .unit (by decide) (index_eq_none (by decide))).push
    (.constant ambiguousIdent 0 (some 1)) (by decide) (index_eq_none (by decide))).push
    (.pair 2 2) (by decide) (index_eq_none (by decide))).push
    (.bound 0) (by decide) (index_eq_none (by decide))).push
    (.fix "f" 0 4) (by decide) (index_eq_none (by decide))).push
    (.constant ambiguousIdent 0 (some 5)) (by decide) (index_eq_none (by decide))).push
    (.pair 3 3) (by decide) (index_eq_none (by decide))).push
    (.pair 6 7) (by decide) (index_eq_none (by decide))

theorem ambiguous_node : ambiguous.node 0 = .unitType ∧ ambiguous.node 1 = .unit ∧
    ambiguous.node 2 = .constant ambiguousIdent 0 (some 1) ∧ ambiguous.node 3 = .pair 2 2 ∧
    ambiguous.node 4 = .bound 0 ∧ ambiguous.node 5 = .fix "f" 0 4 ∧
    ambiguous.node 6 = .constant ambiguousIdent 0 (some 5) ∧
    ambiguous.node 7 = .pair 3 3 ∧ ambiguous.node 8 = .pair 6 7 :=
  ⟨rfl, rfl, rfl, rfl, rfl, rfl, rfl, rfl, rfl⟩

theorem ambiguous_namedTerms : untreated.namedTerms ambiguous 1 = [] ∧
    untreated.namedTerms ambiguous 5 = [] ∧ untreated.namedTerms ambiguous 7 = [3] ∧
    untreated.namedTerms ambiguous 8 = [3] := by
  obtain ⟨h0, h1, h2, h3, h4, h5, h6, h7, h8⟩ := ambiguous_node
  have hsize : ambiguous.size = 9 := rfl
  have hshould : untreated.shouldName ambiguous 3 = true ∧
      untreated.shouldName ambiguous 2 = false := by decide +kernel
  refine ⟨sharedTermsBy_eq (by simp) fun t => ?_, sharedTermsBy_eq (by simp) fun t => ?_,
    sharedTermsBy_eq (by simp) fun t => ?_, sharedTermsBy_eq (by simp) fun t => ?_⟩
  · simp [hsize, tally, h1, renderedChildren, Node.children, Node.childrenWithDepth,
      Std.HashMap.getElem?_insert]
  · simp [hsize, tally, tallyOne, h5, h4, h0, renderedChildren, Node.children,
      Node.childrenWithDepth, Std.HashMap.getElem?_insert]
    grind
  · simp [hsize, tally, tallyOne, h7, h3, h2, renderedChildren, Node.children,
      Node.childrenWithDepth, Std.HashMap.getElem?_insert]
    grind
  · simp [hsize, tally, tallyOne, h8, h7, h6, h3, h2, renderedChildren, Node.children,
      Node.childrenWithDepth, Std.HashMap.getElem?_insert]
    grind

theorem ambiguous_piChain : ambiguous.piChain 0 = ([], 0) :=
  piChain_of_not (by simp [ambiguous_node])

theorem untreated_find? (ident : Ident) : untreated.table.find? ident = none := by
  simp [untreated, TreatmentTable.find?, TreatmentTable.empty]

theorem not_isHandled_empty (ident : Ident) : Emission.empty.isHandled ident = false := by
  simp [Emission.isHandled, Emission.empty, Emission.startingWith]

theorem isHandled_push_handle (d : Decl) (e : Emission) (ident : Ident) :
    (Emission.push d (e.handle ident)).isHandled ident = true :=
  (isHandled_handle e ident ident).mpr (Or.inl rfl)

/-- The shared subterm declares its constant. -/
theorem ambiguous_shared {scope : Scope} (hscope : scope.shared[2]? = none) :
    ∃ v e, (untreated.translateNode ambiguous scope 3).run .empty = .ok (v, e) ∧
      e.isHandled ambiguousIdent = true := by
  obtain ⟨h0, h1, h2, h3, -⟩ := ambiguous_node
  have hnamed := ambiguous_namedTerms.1
  simp [translateNode_eq, renderBelow_eq, translateStep, h0, h1, h2, h3, translateNamed,
    translateTerms, translateTerm, hscope, translateConstant, declareConstant,
    not_isHandled_empty, untreated_find?, declaration, translateDefinition, translateLifted,
    hnamed, ambiguous_piChain, Scope.ofUnit, translateIdent, untreated_useSite,
    isHandled_push_handle]
  exact ⟨_, _, rfl, isHandled_push_handle _ _ _⟩

/-- A constant whose identifier has been dealt with is not declared. -/
theorem ambiguous_rest {scope : Scope} {e : Emission} {x : String}
    (he : e.isHandled ambiguousIdent = true) (h3 : scope.shared[3]? = some x)
    (h6 : scope.shared[6]? = none) (h7 : scope.shared[7]? = none) :
    ∃ v, (untreated.translateNode ambiguous scope 8).run e = .ok (v, e) := by
  obtain ⟨-, -, -, -, -, -, hnode6, hnode7, hnode8⟩ := ambiguous_node
  simp [translateNode_eq, renderBelow_eq, translateStep, hnode6, hnode7, hnode8,
    translateNamed, translateTerms, translateTerm, h3, h6, h7, translateConstant,
    declareConstant, he, translateIdent, untreated_useSite]
  exact ⟨_, rfl⟩

/-- Inside bindings of shared subterms the constant that can be declared comes first, and
the other one is taken as dealt with.  Without them the other one comes first, and it
cannot be declared. -/
theorem lifting_changes_first_reference :
    (∃ t e', (translateLifted untreated ambiguous (untreated.translateNode ambiguous)
      (Scope.ofUnit untreated .empty ambiguous [8]) 8).run .empty = .ok (t, e')) ∧
    (translateTerm (untreated.translateNode ambiguous)
      (Scope.ofUnit untreated .empty ambiguous [8]) 8).run .empty =
      .error (.generalRecursion "f") := by
  constructor
  · obtain ⟨x, scope, hscope⟩ : ∃ x scope,
        (Scope.ofUnit untreated .empty ambiguous [8]).freshMany
          untreated.options.sharedNameBase 1 = ([x], scope) ∧ scope.shared = ∅ :=
      ⟨_, _, rfl, rfl⟩
    have hshared : ∀ c : TermId, (scope.share [(3, x)]).shared[c]? =
        if 3 = c then some x else none := by
      intro c
      simp [Scope.share, hscope.2, Std.HashMap.getElem?_insert]
    obtain ⟨v, e₁, hv, he₁⟩ := ambiguous_shared (hshared 2)
    obtain ⟨body, hbody⟩ := ambiguous_rest he₁ (hshared 3) (hshared 6) (hshared 7)
    have hroot : (translateTerm (untreated.translateNode ambiguous)
        (scope.share [(3, x)]) 8).run e₁ = .ok (body, e₁) := by
      rw [translateTerm, hshared 8]
      exact hbody
    unfold translateLifted
    rw [ambiguous_namedTerms.2.2.2]
    show ∃ t e', (do
      let (names, scope) := (Scope.ofUnit untreated .empty ambiguous [8]).freshMany
        untreated.options.sharedNameBase 1
      let named := [3].zip names
      let scope := scope.share named
      let bindings ← shareBindings (untreated.translateNode ambiguous) scope named
      return Expr.mkLet bindings (← translateTerm (untreated.translateNode ambiguous)
        scope 8)).run .empty = .ok (t, e')
    rw [hscope.1]
    refine ⟨.mkLet [⟨x, none, v⟩] body, e₁, run_bind_eq_ok.mpr ⟨[⟨x, none, v⟩], e₁, ?_, ?_⟩⟩
    · exact run_bind_eq_ok.mpr ⟨v, e₁, hv, rfl⟩
    · exact run_bind_eq_ok.mpr ⟨body, e₁, hroot, rfl⟩
  · obtain ⟨h0, -, -, -, -, h5, h6, -, h8⟩ := ambiguous_node
    simp [translateLifted, ambiguous_namedTerms.2.1, translateNode_eq, renderBelow_eq,
      translateStep, h0, h5, h6, h8, translateNamed, translateConstant, declareConstant,
      not_isHandled_empty, untreated_find?, declaration, translateDefinition,
      ambiguous_piChain, translateTerm, Scope.ofUnit, translateTerms]
    rfl

/-- The second part of the pair reaches one of the constants only. -/
theorem ambiguous_unambiguous (known : Ident → Bool) : ambiguous.Unambiguous known 7 := by
  obtain ⟨h0, h1, h2, h3, -, -, -, h7, -⟩ := ambiguous_node
  have hparts : ∀ b ∈ [7, 3, 2, 1, 0], ∀ c ∈ (ambiguous.node b).children,
      c ∈ [7, 3, 2, 1, 0] := by decide
  exact unambiguous_of_parts 2 (by decide) hparts (by simp [h0, h1, h2, h3, h7])

/-- The second part of the pair unfolds to its translation without bindings. -/
theorem ambiguous_unfolds :
    ∃ t plain e' e₂,
      (translateLifted untreated ambiguous (untreated.translateNode ambiguous)
        (Scope.ofUnit untreated .empty ambiguous [7]) 7).run .empty = .ok (t, e') ∧
      (translateTerm (untreated.translateNode ambiguous)
        (Scope.ofUnit untreated .empty ambiguous [7]) 7).run .empty = .ok (plain, e₂) ∧
      plain.resolve [] = (t.resolve []).zeta 1 := by
  obtain ⟨h0, h1, h2, h3, h4, h5, h6, h7, h8⟩ := ambiguous_node
  obtain ⟨hnamed1, -, hnamed7, -⟩ := ambiguous_namedTerms
  have hempty := not_isHandled_empty ambiguousIdent
  have hclosed : ambiguous.looseVars 7 = [] := by decide +kernel
  obtain ⟨t, e', hrun⟩ : ∃ t e',
      (translateLifted untreated ambiguous (untreated.translateNode ambiguous)
        (Scope.ofUnit untreated .empty ambiguous [7]) 7).run .empty = .ok (t, e') := by
    simp [translateLifted, hnamed7, hnamed1, Scope.freshMany, Scope.fresh, Scope.share,
      shareBindings, translateNode_eq, renderBelow_eq, translateStep, h0, h1, h2, h3, h7,
      translateNamed, translateConstant, declareConstant, hempty, untreated_find?,
      declaration, translateDefinition, ambiguous_piChain, translateTerm, Scope.ofUnit,
      translateIdent, untreated_useSite, translateTerms, isHandled_push_handle]
    exact ⟨_, _, rfl⟩
  obtain ⟨-, hunfolds, hplain⟩ := lifted_translation_unfolds untreated ambiguous
    untreated_bindsNothing .start (List.mem_singleton_self 7) (.refl 7)
    (fun i hi => by simp [hclosed] at hi) hrun
  obtain ⟨plain, e₂, hrun'⟩ := hplain (ambiguous_unambiguous _)
  have h := hunfolds .empty e₂ plain hrun'
  rw [hnamed7] at h
  exact ⟨t, plain, e', e₂, hrun, hrun', h⟩

end TermGraph
