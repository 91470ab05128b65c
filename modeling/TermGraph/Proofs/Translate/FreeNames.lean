import Mathlib
import TermGraph.Proofs.Translate.Distinct
import TermGraph.Proofs.Translate.Places
import TermGraph.Proofs.Translate.Records

/-!
# Names of free variables

A free variable is called by the sanitized form of its name, wherever it stands and
whatever else the unit refers to.  Binders and shared subterms of the unit keep away from
that name.  The form is all that tells variables apart, so names that differ in characters
that no word has can fall together.

Sanitizing changes no word.  It never makes a reserved word, a head that the translator
emits or a name with a dot out of something else.
-/

namespace TermGraph

open Target Store

/-! ## Sanitized names -/

theorem sanitize_eq_self {x : String} (h : IsOutputName x) : sanitize x = x := by
  have hmap : (x.toList.map fun c => if isWordChar c then c else '_') = x.toList :=
    (List.map_congr_left fun c hc => if_pos (h.isWordChar_of_mem c hc)).trans (List.map_id _)
  obtain ⟨c, rest, hx, hearly⟩ := h.starts
  unfold sanitize sanitizeChars
  rw [hmap]
  split
  · rename_i hnil
    rw [hnil] at hx
    cases hx
  · rename_i hblank
    exact absurd (String.toList_inj.mp (hblank.trans (by rfl))) h.ne_blank
  · rename_i d rest' _ heq
    obtain ⟨rfl, rfl⟩ := List.cons.inj (heq.symm.trans hx)
    rw [hearly, if_neg (by simp), ← heq, String.ofList_toList]

theorem sanitize_eq_self_iff {x : String} : sanitize x = x ↔ IsOutputName x :=
  ⟨fun h => h ▸ isOutputName_sanitize x, sanitize_eq_self⟩

/-- Characters are replaced one by one, and a letter goes in front if need be. -/
theorem sanitizeChars_eq_map_or_head (l : List Char) :
    (sanitizeChars l = l.map fun c => if isWordChar c then c else '_') ∨
      (sanitizeChars l).head? = some 'x' := by
  unfold sanitizeChars
  split
  · exact Or.inr rfl
  · exact Or.inr rfl
  · rename_i heq
    split
    · exact Or.inr rfl
    · exact Or.inl heq.symm

/-- Only a name itself is sanitized to a word that no letter was put in front of and that
no character was replaced in. -/
theorem eq_of_sanitize_eq {x w : String} (h : sanitize x = w) (hstart : w.toList.head? ≠ some 'x')
    (hblank : '_' ∉ w.toList) : x = w := by
  have hchars : sanitizeChars x.toList = w.toList := by rw [← h, sanitize, String.toList_ofList]
  rcases sanitizeChars_eq_map_or_head x.toList with hmap | hhead
  · have hword : ∀ c ∈ x.toList, (if isWordChar c then c else '_') = c := by
      intro c hc
      refine if_pos (by_contra fun hforeign => hblank ?_)
      rw [← hchars, hmap, List.mem_map]
      exact ⟨c, hc, if_neg hforeign⟩
    rw [List.map_congr_left hword, List.map_id'] at hmap
    exact String.toList_inj.mp (hmap.symm.trans hchars)
  · exact absurd (hchars ▸ hhead) hstart

/-- A name is sanitized to a reserved word or an emitted head only if it is one. -/
theorem eq_of_sanitize_mem {x : String} (h : sanitize x ∈ reservedWords ++ emittedHeads) :
    x = sanitize x := by
  have hplain : ∀ w ∈ reservedWords ++ emittedHeads,
      w.toList.head? ≠ some 'x' ∧ '_' ∉ w.toList := by decide
  exact eq_of_sanitize_eq rfl (hplain _ h).1 (hplain _ h).2

/-! ## Spellings of identifiers -/

namespace Config

/-- Whether a word without a dot stands for an identifier: it belongs to the current module
and is called so, it is renamed so without a module, or its template has the word. -/
def SpelledAs (cfg : Config) (ident : Ident) (w : String) : Prop :=
  match cfg.table.useSite ident with
  | .preserve => ident.module = cfg.currentModule ∧ escape ident.name = w
  | .rename module name _ => module = none ∧ name = w
  | .expand _ template => ¬ template.NamesAll (· ≠ w)

/-- A word without a dot is among the names of an identifier exactly if it stands for it. -/
theorem identNames_ne_iff {cfg : Config} {ident : Ident} {w : String} (hw : '.' ∉ w.toList) :
    cfg.IdentNames (· ≠ w) ident ↔ ¬ cfg.SpelledAs ident w := by
  unfold IdentNames SpelledAs
  cases cfg.table.useSite ident with
  | preserve =>
      have htext : ident.text ≠ w := fun h => hw (h ▸ ident.dot_mem_text)
      by_cases hmodule : ident.module = cfg.currentModule <;> simp [qualifiedName, hmodule, htext]
  | rename module name explicit =>
      cases module with
      | none => simp [UseSite.renamed]
      | some m =>
          have hrenamed : UseSite.renamed (some m) name ≠ w := by
            rintro rfl
            exact hw (by simp [UseSite.renamed])
          simp [hrenamed]
  | expand arity template => simp

end Config

/-! ## Names that scopes spare -/

/-- A name that no binder and no shared subterm of a scope has, and none entered from there
can have.  Trivial subterms have no names at all. -/
structure Scope.Spares (s : Store) (scope : Scope) (w : String) : Prop where
  taken : w ∈ scope.unavailable
  binders : w ∉ scope.env
  shared : ∀ k : TermId, scope.shared[k]? ≠ some w
  nontrivial : ∀ k ∈ scope.shared, (s.node k).isTrivial = false

/-- An entry for a subterm was there before or is one of those that were added. -/
theorem Scope.of_getElem?_share {scope : Scope} {named : List (TermId × String)} {k : TermId}
    {x : String} (h : (scope.share named).shared[k]? = some x) :
    scope.shared[k]? = some x ∨ (k, x) ∈ named := by
  induction named generalizing scope with
  | nil => exact Or.inl (by simpa [Scope.share] using h)
  | cons p rest ih =>
      obtain ⟨t, y⟩ := p
      have hrest : (scope.share ((t, y) :: rest)).shared =
          ({ scope with shared := scope.shared.insert t y }.share rest).shared :=
        Std.HashMap.insertMany_cons
      rw [hrest] at h
      rcases ih h with h | h
      · rw [Std.HashMap.getElem?_insert] at h
        split at h
        · rename_i hkey
          cases h
          exact Or.inr (by simp [eq_of_beq hkey])
        · exact Or.inl h
      · exact Or.inr (List.mem_cons_of_mem _ h)

namespace Scope.Spares

variable {cfg : Config} {s : Store} {scope inner : Scope} {w : String} {render : Render}
  {e e' : Emission}

theorem fresh_ne (h : scope.Spares s w) (base : String) : (scope.fresh base).1 ≠ w := by
  intro heq
  have hfresh : (scope.fresh base).1 ∉ scope.unavailable := freshVariant_not_mem _ _
  exact hfresh (heq ▸ h.taken)

theorem fresh (h : scope.Spares s w) (base : String) : (scope.fresh base).2.Spares s w :=
  { h with taken := Std.HashSet.mem_insert.mpr (Or.inr h.taken) }

theorem bind (h : scope.Spares s w) {x : String} (hx : x ≠ w) : (scope.bind x).Spares s w :=
  { h with binders := List.not_mem_cons_of_ne_of_not_mem hx.symm h.binders }

/-- The scope inside a binder of a fresh name. -/
theorem enter (h : scope.Spares s w) (x : String) :
    ((scope.fresh x).2.bind (scope.fresh x).1).Spares s w :=
  (h.fresh x).bind (h.fresh_ne x)

theorem of_bindDomains {domains : List (String × TermId)} {binders : List (String × Expr)}
    (h : scope.Spares s w)
    (hrun : (bindDomains render scope domains).run e = .ok ((binders, inner), e')) :
    inner.Spares s w := by
  induction domains generalizing scope binders e with
  | nil =>
      cases hrun
      exact h
  | cons p rest ih =>
      obtain ⟨type, e₁, -, hrun⟩ := run_bind_eq_ok.mp hrun
      obtain ⟨⟨binders', inner'⟩, e₂, hrest, hlast⟩ := run_bind_eq_ok.mp hrun
      cases hlast
      exact ih (h.enter p.1) hrest

theorem of_hypotheses {param : String} {ty : TermId} {classes : List (String × String)}
    {hyps : List (Binder Expr)} (h : scope.Spares s w)
    (hrun : (hypotheses s render scope param ty classes).run e = .ok ((hyps, inner), e')) :
    inner.Spares s w := by
  induction classes generalizing scope hyps e with
  | nil =>
      cases hrun
      exact h
  | cons cls rest ih =>
      obtain ⟨type, e₁, -, hrun⟩ := run_bind_eq_ok.mp hrun
      obtain ⟨⟨hyps', inner'⟩, e₂, hrest, hlast⟩ := run_bind_eq_ok.mp hrun
      cases hlast
      exact ih (h.fresh _) hrest

theorem of_bindNamed {x x' : String} {ty : TermId} {hyps : List (Binder Expr)}
    (h : scope.Spares s w)
    (hrun : (bindNamed s render scope x ty).run e = .ok ((x', hyps, inner), e')) :
    inner.Spares s w := by
  obtain ⟨⟨hyps', inner'⟩, e₁, hhyps, hlast⟩ := run_bind_eq_ok.mp hrun
  cases hlast
  exact ((h.fresh x).of_hypotheses hhyps).bind (h.fresh_ne x)

theorem of_bindParams {params : List (String × TermId)} {binders : List (Binder Expr)}
    (h : scope.Spares s w)
    (hrun : (bindParams s render scope params).run e = .ok ((binders, inner), e')) :
    inner.Spares s w := by
  induction params generalizing scope binders e with
  | nil =>
      cases hrun
      exact h
  | cons p rest ih =>
      obtain ⟨type, e₁, -, hrun⟩ := run_bind_eq_ok.mp hrun
      obtain ⟨⟨x', hyps, middle⟩, e₂, hnamed, hrun⟩ := run_bind_eq_ok.mp hrun
      obtain ⟨⟨binders', inner'⟩, e₃, hrest, hlast⟩ := run_bind_eq_ok.mp hrun
      cases hlast
      exact ih (h.of_bindNamed hnamed) hrest

theorem of_bindPis {layers : List Layer} {binders : List (PiBinder Expr)}
    (h : scope.Spares s w) (hblank : "_" ≠ w)
    (hrun : (bindPis s render scope layers).run e = .ok ((binders, inner), e')) :
    inner.Spares s w := by
  induction layers generalizing scope binders e with
  | nil =>
      cases hrun
      exact h
  | cons l rest ih =>
      obtain ⟨type, e₁, -, hrun⟩ := run_bind_eq_ok.mp hrun
      dsimp only at hrun
      split at hrun
      · obtain ⟨⟨x', hyps, middle⟩, e₂, hnamed, hrun⟩ := run_bind_eq_ok.mp hrun
        obtain ⟨⟨binders', inner'⟩, e₃, hrest, hlast⟩ := run_bind_eq_ok.mp hrun
        cases hlast
        exact ih (h.of_bindNamed hnamed) hrest
      · obtain ⟨⟨binders', inner'⟩, e₂, hrest, hlast⟩ := run_bind_eq_ok.mp hrun
        cases hlast
        exact ih (h.bind hblank) hrest

theorem freshMany (h : scope.Spares s w) (base : String) (n : Nat) :
    (scope.freshMany base n).2.Spares s w ∧ w ∉ (scope.freshMany base n).1 := by
  induction n generalizing scope with
  | zero => exact ⟨h, List.not_mem_nil⟩
  | succ n ih =>
      obtain ⟨hinner, hnames⟩ := ih (h.fresh base)
      exact ⟨hinner, List.not_mem_cons_of_ne_of_not_mem (h.fresh_ne base).symm hnames⟩

/-- Names go to subterms that are to have one, none of which is trivial. -/
theorem share (h : scope.Spares s w) {root : TermId} {names : List String} (hnames : w ∉ names) :
    (scope.share ((cfg.namedTerms s root).zip names)).Spares s w where
  taken := h.taken
  binders := h.binders
  shared := by
    intro k hk
    rcases Scope.of_getElem?_share hk with hk | hk
    · exact h.shared k hk
    · exact hnames (List.of_mem_zip hk).2
  nontrivial := by
    intro k hk
    rcases Scope.of_mem_share hk with hk | ⟨p, hp, rfl⟩
    · exact h.nontrivial k hk
    · exact isTrivial_of_shouldName (Config.of_mem_namedTerms (List.of_mem_zip hp).1).2

/-- A trivial node is rendered structurally. -/
theorem translateTerm_eq (h : scope.Spares s w) {id : TermId}
    (hid : (s.node id).isTrivial = true) : translateTerm render scope id = render scope id :=
  translateTerm_of_not_mem fun hmem => by simp [h.nontrivial id hmem] at hid

end Scope.Spares

/-! ## Scopes of a unit -/

/-- The scopes in which the parts of a unit are rendered.  The unit starts with one; binders
are entered from there, a fresh name is picked for a hypothesis or a binding, and a term is
put inside the bindings of its shared subterms. -/
inductive Scope.Opened (cfg : Config) (s : Store) (e : Emission) (roots : List TermId) :
    Scope → Prop where
  | start : Opened cfg s e roots (Scope.ofUnit cfg e s roots)
  | hypothesis {scope : Scope} (h : Opened cfg s e roots scope) (base : String) :
      Opened cfg s e roots (scope.fresh base).2
  | binding {scope : Scope} (h : Opened cfg s e roots scope) (x : String) :
      Opened cfg s e roots ((scope.fresh x).2.bind (scope.fresh x).1)
  | domains {scope inner : Scope} {render : Render} {domains : List (String × TermId)}
      {binders : List (String × Expr)} {e₁ e₂ : Emission} (h : Opened cfg s e roots scope)
      (hrun : (bindDomains render scope domains).run e₁ = .ok ((binders, inner), e₂)) :
      Opened cfg s e roots inner
  | params {scope inner : Scope} {render : Render} {params : List (String × TermId)}
      {binders : List (Binder Expr)} {e₁ e₂ : Emission} (h : Opened cfg s e roots scope)
      (hrun : (bindParams s render scope params).run e₁ = .ok ((binders, inner), e₂)) :
      Opened cfg s e roots inner
  | pis {scope inner : Scope} {render : Render} {layers : List Layer}
      {binders : List (PiBinder Expr)} {e₁ e₂ : Emission} (h : Opened cfg s e roots scope)
      (hrun : (bindPis s render scope layers).run e₁ = .ok ((binders, inner), e₂)) :
      Opened cfg s e roots inner
  | lifted {scope inner : Scope} {names : List String} (h : Opened cfg s e roots scope)
      (root : TermId)
      (hnames : scope.freshMany cfg.options.sharedNameBase (cfg.namedTerms s root).length =
        (names, inner)) :
      Opened cfg s e roots (inner.share ((cfg.namedTerms s root).zip names))

/-- A name that is unavailable at the start of a unit, and that no binder without a name goes
by, is spared by all scopes of the unit. -/
theorem Scope.Opened.spares {cfg : Config} {s : Store} {e : Emission} {roots : List TermId}
    {scope : Scope} {w : String} (h : Scope.Opened cfg s e roots scope)
    (hw : w ∈ (Scope.ofUnit cfg e s roots).unavailable) (hblank : "_" ≠ w) :
    scope.Spares s w := by
  induction h with
  | start => exact ⟨hw, List.not_mem_nil, by simp [Scope.ofUnit], by simp [Scope.ofUnit]⟩
  | hypothesis _ base ih => exact ih.fresh base
  | binding _ x ih => exact ih.enter x
  | domains _ hrun ih => exact ih.of_bindDomains hrun
  | params _ hrun ih => exact ih.of_bindParams hrun
  | pis _ hrun ih => exact ih.of_bindPis hblank hrun
  | @lifted scope inner names _ root hnames ih =>
      have hmany := ih.freshMany cfg.options.sharedNameBase (cfg.namedTerms s root).length
      rw [hnames] at hmany
      exact hmany.1.share hmany.2

/-! ## Free variables of a unit -/

/-- A node of a unit that is a free variable of a name. -/
structure Store.HasVariable (s : Store) (roots : List TermId) (id : TermId) (x : String) :
    Prop where
  node : ∃ ty, s.node id = .free x ty
  reached : ∃ root ∈ roots, s.Reaches root id

/-- What the name of a free variable is apart from. -/
structure Config.KeepsApart (cfg : Config) (x : String) : Prop where
  reserved : isReserved x = false → isReserved (sanitize x) = false
  heads : sanitize x ∈ cfg.fixedNames → x = sanitize x ∨
    sanitize x = cfg.options.bvLiteralCtor ∨ sanitize x = cfg.options.vectorCtor
  recursors : ∀ target, sanitize x ≠ target ++ ".rec"
  idents : ∀ ident, cfg.IdentNames (· ≠ sanitize x) ident ↔ ¬ cfg.SpelledAs ident (sanitize x)

theorem Config.keepsApart (cfg : Config) (x : String) : cfg.KeepsApart x where
  reserved := by
    intro hx
    by_contra hreserved
    rw [Bool.not_eq_false] at hreserved
    have hmem : sanitize x ∈ reservedWords := by simpa [isReserved] using hreserved
    rw [← eq_of_sanitize_mem (List.mem_append_left _ hmem), hx] at hreserved
    cases hreserved
  heads := by
    intro h
    have hcases := fixedNames_cases h
    rw [rootOf_eq_self (isOutputName_sanitize x).dot_not_mem] at hcases
    exact hcases.imp_left eq_of_sanitize_mem
  recursors := fun target h =>
    (isOutputName_sanitize x).dot_not_mem (by simp [h])
  idents := fun _ => identNames_ne_iff (isOutputName_sanitize x).dot_not_mem

section Variables

variable {cfg : Config} {s : Store} {e : Emission} {roots : List TermId} {scope : Scope}
  {id : TermId} {x : String}

/-- The name of a free variable is spared by every scope of its unit. -/
theorem Scope.Opened.spares_sanitize (h : Scope.Opened cfg s e roots scope)
    (hid : s.HasVariable roots id x) : scope.Spares s (sanitize x) := by
  obtain ⟨ty, hnode⟩ := hid.node
  obtain ⟨root, hroot, hreaches⟩ := hid.reached
  have hword := isOutputName_sanitize x
  have hroots : sanitize x ∈ cfg.rootsOfNode (s.node id) := by simp [hnode, Config.rootsOfNode]
  refine h.spares ?_ hword.ne_blank.symm
  exact (Config.avoided_of_namesInUse hroot hreaches hroots).resolve_right fun hnot => hnot hword

/-- A free variable is rendered by its sanitized name, in every scope of its unit. -/
theorem Scope.Opened.translateTerm_eq (h : Scope.Opened cfg s e roots scope)
    (hid : s.HasVariable roots id x) :
    translateTerm (cfg.translateNode s) scope id = pure (.var (sanitize x)) := by
  obtain ⟨ty, hnode⟩ := hid.node
  have htrivial : (s.node id).isTrivial = true := by rw [hnode]; rfl
  rw [(h.spares_sanitize hid).translateTerm_eq htrivial, translateNode_eq, translateStep, hnode]

end Variables

/-- A store with the pairs as its last nodes. -/
def alikeVariables : Store :=
  Store.ofNodes [.unitType, .free "a.b" 0, .free "a_b" 0, .free "c" 0, .pair 1 2, .pair 2 3]

theorem alikeVariables_node : alikeVariables.node 1 = .free "a.b" 0 ∧
    alikeVariables.node 2 = .free "a_b" 0 ∧ alikeVariables.node 3 = .free "c" 0 ∧
    alikeVariables.node 4 = .pair 1 2 ∧ alikeVariables.node 5 = .pair 2 3 :=
  ⟨rfl, rfl, rfl, rfl, rfl⟩

theorem alikeVariables_hasVariable : alikeVariables.HasVariable [4] 1 "a.b" ∧
    alikeVariables.HasVariable [4] 2 "a_b" ∧ alikeVariables.HasVariable [5] 2 "a_b" ∧
    alikeVariables.HasVariable [5] 3 "c" := by
  obtain ⟨h1, h2, h3, h4, h5⟩ := alikeVariables_node
  refine ⟨⟨⟨0, h1⟩, 4, by simp, ?_⟩, ⟨⟨0, h2⟩, 4, by simp, ?_⟩, ⟨⟨0, h2⟩, 5, by simp, ?_⟩,
    ⟨⟨0, h3⟩, 5, by simp, ?_⟩⟩ <;>
    exact reaches_of_mem_children (by simp [h4, h5, Node.children, Node.childrenWithDepth])

theorem alikeVariables_namedTerms : untreated.namedTerms alikeVariables 4 = [] := by
  obtain ⟨h1, h2, -, h4, -⟩ := alikeVariables_node
  have hsize : alikeVariables.size = 6 := rfl
  refine sharedTermsBy_eq List.Pairwise.nil fun t => ?_
  simp [hsize, tally, tallyOne, h4, h2, h1, renderedChildren, Node.children,
    Node.childrenWithDepth, Std.HashMap.getElem?_insert]
  grind

end TermGraph
