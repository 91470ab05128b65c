import Mathlib
import TermGraph.Proofs.Translate.Complete

/-!
# Translations are lexically scoped

A translated term and every declaration emitted for it mean what the term says:
each bound variable, each shared subterm and each hypothesis refers to its own
binder, and every other name to something outside.  No binder has the name of
another one around it.  If identifiers are well-named, no name that stands for
something outside even starts with the name of a binder around it and a dot.
-/

namespace TermGraph

open Target Store

/-- An expression that means what it ought to, where no binder has the name of one
around it. -/
def ScopedAs (e : Expr) (r? : Option Resolved) : Prop :=
  r? = some (e.resolve []) ∧ e.Unshadowed []

/-- An expression that means what it ought to, where no name that stands for something
outside starts with the name of a binder around it. -/
def UncapturedAs (e : Expr) (r? : Option Resolved) : Prop :=
  r? = some (e.resolve []) ∧ e.Uncaptured []

/-- A declaration is a text, or its content is related to the meaning of the definition
of a constant of the store. -/
def Decl.OfConstant (Rel : Expr → Option Resolved → Prop) (cfg : Config) (s : Store)
    (d : Decl) : Prop :=
  ∀ c, d.content? = some c → ∃ id ident ty body, s.node id = .constant ident ty body ∧
    Rel c (outlineDeclaration cfg s (cfg.meaning s) ty body)

/-- Lexical scoping.  Whatever is translated, each identifier of the result and of the
declarations emitted on the way refers to the binder made for what it stands for, and no
binder has the name of another one around it. -/
theorem translation_lexically_scoped (cfg : Config) (s : Store) (e : Emission)
    (htable : cfg.table.BindsNothing) :
    (∀ root t e', cfg.translate s root e = (.ok t, e') →
      ScopedAs t.term (outlineLifted cfg s (cfg.meaning s) [] root) ∧
        ∀ d ∈ t.declarations, Decl.OfConstant ScopedAs cfg s d) ∧
      ∀ name ty body d e', cfg.define s name ty body e = (.ok d, e') →
        (∃ c, d.content? = some c ∧
          ScopedAs c (outlineDefinition cfg s (cfg.meaning s) ty body)) ∧
          ∃ ds, e'.declarationsFrom e.declarations.size = ds ++ [d] ∧
            ∀ d' ∈ ds, Decl.OfConstant ScopedAs cfg s d' := by
  have hscoped : ∀ {e r?}, ReadsAs (fun _ _ => True) [] e r? → ScopedAs e r? := by
    rintro e r? ⟨r, hr, hread⟩
    exact ⟨hr.trans (congrArg some hread.resolve_eq.symm), hread.everywhere⟩
  have hdecl : ∀ {d}, DeclReads cfg s (fun _ _ => True) d →
      Decl.OfConstant ScopedAs cfg s d := by
    intro d hd c hc
    obtain ⟨id, ident, ty, body, hnode, hread⟩ := hd c hc
    exact ⟨id, ident, ty, body, hnode, hscoped hread⟩
  refine ⟨fun root t e' h => ?_, fun name ty body d e' h => ?_⟩
  · obtain ⟨hread, hall⟩ := translate_reads (unitsSafe_scoped htable) h
    exact ⟨hscoped hread, fun d hd => hdecl (hall d hd)⟩
  · obtain ⟨⟨c, hc, hread⟩, ds, hds, hall⟩ := define_reads (unitsSafe_scoped htable) h
    exact ⟨⟨c, hc, hscoped hread⟩, ds, hds, fun d hd => hdecl (hall d hd)⟩

/-! ## A term whose binders have names of other things

The term is `fun (Prelude : Prelude.Bool) (Bool : Type) => Bool`, where the second type
is inhabited. -/

/-- The built-in type of booleans. -/
def boolIdent : Ident :=
  .prelude "Bool"

/-- The sort of inhabited types. -/
def inhabitedSort : Node TermId :=
  .sort 0 ⟨true, false⟩

/-- A store with the term as its last node. -/
def namesakes : Store :=
  ((((empty.push (.global boolIdent) (by decide) (index_eq_none (by decide))).push
    inhabitedSort (by decide) (index_eq_none (by decide))).push
    (.bound 0) (by decide) (index_eq_none (by decide))).push
    (.lam "Bool" 1 2) (by decide) (index_eq_none (by decide))).push
    (.lam "Prelude" 0 3) (by decide) (index_eq_none (by decide))

/-- A configuration without treatments. -/
def untreated : Config :=
  ⟨⟨["Main"]⟩, .empty, .default⟩

theorem untreated_useSite (ident : Ident) : untreated.table.useSite ident = .preserve := by
  simp [untreated, TreatmentTable.useSite, TreatmentTable.find?, TreatmentTable.empty]

theorem untreated_bindsNothing : untreated.table.BindsNothing := by
  intro ident arity template h
  rw [untreated_useSite] at h
  cases h

theorem namesakes_node : namesakes.node 4 = .lam "Prelude" 0 3 ∧
    namesakes.node 3 = .lam "Bool" 1 2 ∧ namesakes.node 2 = .bound 0 ∧
    namesakes.node 1 = inhabitedSort ∧ namesakes.node 0 = .global boolIdent :=
  ⟨rfl, rfl, rfl, rfl, rfl⟩

theorem namesakes_namedTerms : untreated.namedTerms namesakes 4 = [] := by
  obtain ⟨h4, h3, h2, h1, h0⟩ := namesakes_node
  have hsize : namesakes.size = 5 := rfl
  refine sharedTermsBy_eq List.Pairwise.nil fun t => ?_
  simp [hsize, tally, tallyOne, h4, h3, h2, h1, h0, inhabitedSort, renderedChildren,
    Node.children, Node.childrenWithDepth, Std.HashMap.getElem?_insert]
  grind

/-- The outline of the term. -/
def namesakesOutline : Resolved :=
  .lam false (.free "Prelude.Bool")
    (.lam false (.sort 0) (.lam true (.app (.free "Inhabited") (.bound 0)) (.bound 1)))

theorem namesakes_outline (known : Ident → Bool) :
    outlineLifted untreated namesakes (untreated.outline namesakes known) [] 4 =
      some namesakesOutline := by
  obtain ⟨h4, h3, h2, h1, h0⟩ := namesakes_node
  have hchain0 : namesakes.piChain 0 = ([], 0) := by decide +kernel
  have hchain1 : namesakes.piChain 1 = ([], 1) := by decide +kernel
  have hclasses0 : classesOf namesakes 0 = [] := by simp [classesOf, sortFlags, hchain0, h0]; rfl
  have hclasses1 : classesOf namesakes 1 = ["Inhabited"] := by
    simp [classesOf, sortFlags, hchain1, h1, inhabitedSort, constraintClasses]
  have hname : untreated.qualifiedName boolIdent = "Prelude.Bool" := by decide +kernel
  rw [outlineLifted, namesakes_namedTerms]
  simp [outlineShared, outlineTerm, Context.lifted?, Context.local?, outline_eq, outlineStep,
    h4, h3, h2, h1, h0, outlineLam, outlineBinder, insideBinder, hclasses0, hclasses1,
    outlineHypotheses, outlineHypothesis, outlineDomains, hchain1, inhabitedSort,
    outlineIdent, untreated_useSite, outlineTerms, hname, Resolved.applyAll, Resolved.pis,
    Resolved.lams, namesakesOutline]

/-- The term is translated, and each name in the result refers to its own binder. -/
theorem namesakes_lexically_scoped :
    ∃ t e', untreated.translate namesakes 4 .empty = (.ok t, e') ∧
      ScopedAs t.term (some namesakesOutline) := by
  obtain ⟨t, e', hrun⟩ := translate_succeeds untreated_bindsNothing
    (namesakes_outline Emission.empty.isHandled)
  have h := (translation_lexically_scoped untreated namesakes .empty untreated_bindsNothing).1
    4 t e' hrun
  rw [Config.meaning, namesakes_outline] at h
  exact ⟨t, e', hrun, h.1⟩

/-- No capture.  If identifiers are well-named, each identifier of the result and of the
declarations emitted on the way that stands for something outside has a part before its
first dot that is not the name of a binder around it. -/
theorem translation_captures_nothing (cfg : Config) (s : Store) (e : Emission)
    (htable : cfg.table.BindsNothing)
    (hnamed : ∀ id ident, (s.node id).ident? = some ident → ident.WellNamed) :
    (∀ root t e', cfg.translate s root e = (.ok t, e') →
      UncapturedAs t.term (outlineLifted cfg s (cfg.meaning s) [] root) ∧
        ∀ d ∈ t.declarations, Decl.OfConstant UncapturedAs cfg s d) ∧
      ∀ name ty body d e', cfg.define s name ty body e = (.ok d, e') →
        (∃ c, d.content? = some c ∧
          UncapturedAs c (outlineDefinition cfg s (cfg.meaning s) ty body)) ∧
          ∃ ds, e'.declarationsFrom e.declarations.size = ds ++ [d] ∧
            ∀ d' ∈ ds, Decl.OfConstant UncapturedAs cfg s d' := by
  have huncaptured : ∀ {e r?}, ReadsAs (fun names x => x ∈ names ∨ rootOf x ∉ names) [] e r? →
      UncapturedAs e r? := by
    rintro e r? ⟨r, hr, hread⟩
    refine ⟨hr.trans (congrArg some hread.resolve_eq.symm), ?_⟩
    exact hread.everywhere.imp (fun _ _ h => h) (fun _ _ _ => trivial) _
  have hdecl : ∀ {d}, DeclReads cfg s (fun names x => x ∈ names ∨ rootOf x ∉ names) d →
      Decl.OfConstant UncapturedAs cfg s d := by
    intro d hd c hc
    obtain ⟨id, ident, ty, body, hnode, hread⟩ := hd c hc
    exact ⟨id, ident, ty, body, hnode, huncaptured hread⟩
  refine ⟨fun root t e' h => ?_, fun name ty body d e' h => ?_⟩
  · obtain ⟨hread, hall⟩ := translate_reads (unitsSafe_uncaptured htable hnamed) h
    exact ⟨huncaptured hread, fun d hd => hdecl (hall d hd)⟩
  · obtain ⟨⟨c, hc, hread⟩, ds, hds, hall⟩ :=
      define_reads (unitsSafe_uncaptured htable hnamed) h
    exact ⟨⟨c, hc, huncaptured hread⟩, ds, hds, fun d hd => hdecl (hall d hd)⟩

theorem boolIdent_wellNamed : boolIdent.WellNamed :=
  ⟨by decide +kernel, by decide +kernel⟩

/-- The binder that would be called `Prelude` does not capture the type of booleans. -/
theorem namesakes_captures_nothing :
    ∃ t e', untreated.translate namesakes 4 .empty = (.ok t, e') ∧
      UncapturedAs t.term (some namesakesOutline) := by
  obtain ⟨t, e', hrun⟩ := translate_succeeds untreated_bindsNothing
    (namesakes_outline Emission.empty.isHandled)
  have hnamed : ∀ id ident, (namesakes.node id).ident? = some ident → ident.WellNamed := by
    intro id ident hident
    match id with
    | 0 =>
        cases hident
        exact boolIdent_wellNamed
    | 1 | 2 | 3 | 4 => cases hident
    | _ + 5 => cases hident
  have h := (translation_captures_nothing untreated namesakes .empty untreated_bindsNothing
    hnamed).1 4 t e' hrun
  rw [Config.meaning, namesakes_outline] at h
  exact ⟨t, e', hrun, h.1⟩

end TermGraph
