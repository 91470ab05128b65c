import Mathlib
import TermGraph.Proofs.Translate.Units

/-!
# Translations read as outlined

Constants are declared on the way, so a run is described by what it emits: texts, and
declarations that read as the outlines of constants.  By induction along the order in
which nodes were stored every node reads as outlined, and so do terms and definitions
that are translated in units of their own.
-/

namespace TermGraph

open Target Store

/-- The resolved form that the translation of a node ought to have, whatever becomes
of the definitions of constants. -/
abbrev Config.meaning (cfg : Config) (s : Store) : Outliner :=
  cfg.outline s fun _ => true

section Emits

variable {cfg : Config} {s : Store} {P : List String → String → Prop}

/-- A declaration that reads as the outline of a constant, unless it is a text. -/
def DeclReads (cfg : Config) (s : Store) (P : List String → String → Prop) (d : Decl) :
    Prop :=
  ∀ c, d.content? = some c → ∃ id ident ty body, s.node id = .constant ident ty body ∧
    ReadsAs P [] c (outlineDeclaration cfg s (cfg.meaning s) ty body)

/-- What a run does: it emits declarations that read as outlines of constants, and no
identifier that has been dealt with is forgotten. -/
structure Emits (cfg : Config) (s : Store) (P : List String → String → Prop)
    (e e' : Emission) : Prop where
  declares : ∃ ds, e'.declarations.toList = e.declarations.toList ++ ds ∧
    ∀ d ∈ ds, DeclReads cfg s P d
  keeps : ∀ ident, e.isHandled ident = true → e'.isHandled ident = true

/-- What a run does keeps any assumption that it cannot break. -/
theorem composes_emits {I : Emission → Prop}
    (hI : ∀ {e e'}, Emits cfg s P e e' → I e → I e') : Composes I (Emits cfg s P) where
  refl := fun e => ⟨⟨[], by simp, by simp⟩, fun _ h => h⟩
  trans := by
    rintro a b c ⟨⟨ds, hds, hall⟩, hkeeps⟩ ⟨⟨ds', hds', hall'⟩, hkeeps'⟩
    refine ⟨⟨ds ++ ds', by rw [hds', hds, List.append_assoc], fun d hd => ?_⟩,
      fun ident h => hkeeps' ident (hkeeps ident h)⟩
    exact (List.mem_append.mp hd).elim (hall d) (hall' d)
  stable := hI

theorem composes_emits_true : Composes (fun _ => True) (Emits cfg s P) :=
  composes_emits fun _ _ => trivial

theorem isHandled_handle (e : Emission) (ident other : Ident) :
    (e.handle ident).isHandled other = true ↔ other = ident ∨ e.isHandled other = true := by
  rw [Emission.handle, Emission.isHandled, Emission.isHandled, Std.HashSet.contains_insert,
    Bool.or_eq_true, beq_iff_eq, eq_comm]

theorem emits_handle (ident : Ident) (e : Emission) :
    Emits cfg s P e (e.handle ident) :=
  ⟨⟨[], by simp [Emission.handle], by simp⟩,
    fun other h => (isHandled_handle e ident other).mpr (Or.inr h)⟩

theorem emits_push {d : Decl} (h : DeclReads cfg s P d) (e : Emission) :
    Emits cfg s P e (e.push d) :=
  ⟨⟨[d], by simp [Emission.push], by simpa using h⟩, fun _ h => h⟩

/-- Declaring a constant emits what reads as its outline. -/
theorem ensures_declareConstant {render : Render} (hunits : UnitsSafe cfg s P) {id : TermId}
    (hrender : ∀ c < id,
      RendersAt cfg s (cfg.meaning s) (fun _ => True) (Emits cfg s P) render c)
    {ident : Ident} {ty : TermId} {body : Option TermId}
    (hnode : s.node id = .constant ident ty body) :
    Ensures (fun _ => True) (Emits cfg s P) (declareConstant cfg s render ident ty body)
      fun _ => True := by
  have hR : Composes (fun _ => True) (Emits cfg s P) := composes_emits_true
  have hpush : ∀ name, Ensures (fun _ => True) (Emits cfg s P)
      (do
        let d ← declaration cfg s render name ty body
        modify (Emission.push d)) fun _ => True := by
    intro name
    refine ensures_bind hR (ensures_declaration hR hunits (fun c hc _ => hrender c hc)
      (lt_of_node_constant hnode) name) ?_
    rintro d ⟨c, hc, hread⟩
    refine ensures_modify (emits_push fun c' hc' => ?_)
    rw [hc] at hc'
    cases hc'
    exact ⟨id, ident, ty, body, hnode, hread⟩
  unfold declareConstant
  refine ensures_bind hR (ensures_get hR) fun e _ => ?_
  split
  · exact ensures_pure hR trivial
  · extract_lets declare
    have hdeclare : ∀ site,
        Ensures (fun _ => True) (Emits cfg s P) (declare site) fun _ => True := by
      intro site
      refine ensures_bind hR (ensures_modify (emits_handle ident)) fun _ _ => ?_
      cases site with
      | skip => exact ensures_pure hR trivial
      | replace text => exact ensures_modify (emits_push fun c hc => by cases hc)
      | preserve => exact hpush _
      | rename name => exact hpush _
    split
    · exact ensures_bind hR (Q := fun _ => True) (ensures_pure hR trivial)
        fun site _ => hdeclare site
    · exact ensures_bind hR (Q := fun _ => True) (ensures_pure hR trivial)
        fun site _ => hdeclare site
    · exact ensures_bind hR (Q := fun _ => True) ensures_throw fun site _ => hdeclare site

/-- Every node reads as outlined. -/
theorem rendersAt_translateNode (hunits : UnitsSafe cfg s P) (id : TermId) :
    RendersAt cfg s (cfg.meaning s) (fun _ => True) (Emits cfg s P) (cfg.translateNode s)
      id := by
  induction id using Nat.strong_induction_on with
  | _ id ih =>
      intro avoid P' scope ctx names hsafe hsp hcovers
      rw [translateNode_eq]
      have hrender : ∀ c < id, RendersAt cfg s (cfg.meaning s) (fun _ => True) (Emits cfg s P)
          (cfg.renderBelow s id) c := fun c hc => (ih c hc).renderBelow hc
      refine ensures_step composes_emits_true hsafe (fun c hc _ => hrender c hc)
        (fun c ident ty body hnode hle _ => ?_) hsp hcovers
      exact (ensures_declareConstant hunits
        (fun b hb => hrender b (lt_of_lt_of_le hb hle)) hnode).imp fun _ _ => by simp

/-! ## Terms and definitions -/

/-- What an emission holds beyond an earlier one that it extends. -/
theorem declarationsFrom_of_emits {e e' : Emission} (h : Emits cfg s P e e') :
    ∀ d ∈ e'.declarationsFrom e.declarations.size, DeclReads cfg s P d := by
  obtain ⟨ds, hds, hall⟩ := h.declares
  rw [Emission.declarationsFrom_eq hds]
  exact hall

/-- A translated term reads as outlined, and so do the declarations emitted for it. -/
theorem translate_reads (hunits : UnitsSafe cfg s P) {root : TermId} {e e' : Emission}
    {t : TranslatedTerm} (h : cfg.translate s root e = (.ok t, e')) :
    ReadsAs P [] t.term (outlineLifted cfg s (cfg.meaning s) [] root) ∧
      ∀ d ∈ t.declarations, DeclReads cfg s P d := by
  obtain ⟨hroot, hdecls⟩ := run_of_translate_eq_ok h
  obtain ⟨hemits, hread⟩ := ensures_lifted composes_emits_true (hunits e [root] root (by simp))
    (fun c _ _ => rendersAt_translateNode hunits c) (spells_ofUnit (root + 1))
    ⟨Nat.lt_succ_self root, .refl root, fun _ _ => rfl⟩ e t.term e' trivial hroot
  rw [hdecls]
  exact ⟨hread, declarationsFrom_of_emits hemits⟩

/-- A translated definition reads as outlined, and so do the declarations emitted
before it. -/
theorem define_reads (hunits : UnitsSafe cfg s P) {name : String} {ty body : TermId}
    {e e' : Emission} {d : Decl} (h : cfg.define s name ty body e = (.ok d, e')) :
    (∃ c, d.content? = some c ∧
      ReadsAs P [] c (outlineDefinition cfg s (cfg.meaning s) ty body)) ∧
      ∃ ds, e'.declarationsFrom e.declarations.size = ds ++ [d] ∧
        ∀ d' ∈ ds, DeclReads cfg s P d' := by
  obtain ⟨e₁, hd, rfl⟩ := run_of_define_eq_ok h
  have hty : ty < max ty body + 1 := Nat.lt_succ_of_le (le_max_left ty body)
  have hbody : body < max ty body + 1 := Nat.lt_succ_of_le (le_max_right ty body)
  obtain ⟨hemits, hread⟩ := ensures_definition composes_emits_true
    (fun c _ _ => rendersAt_translateNode hunits c)
    (hunits e [ty, body] ty (by simp)) (hunits e [ty, body] body (by simp)) hty hbody
    (spells_ofUnit (max ty body + 1)) (escape name) e d e₁ trivial hd
  obtain ⟨ds, hds, hall⟩ := hemits.declares
  refine ⟨hread, ds, Emission.declarationsFrom_eq ?_, hall⟩
  rw [Emission.push, Array.toList_push, hds, List.append_assoc]

end Emits

theorem unitsSafe_scoped {cfg : Config} {s : Store} (htable : cfg.table.BindsNothing) :
    UnitsSafe cfg s fun _ _ => True :=
  fun _ _ _ hroot => safe_scoped htable hroot

theorem unitsSafe_uncaptured {cfg : Config} {s : Store} (htable : cfg.table.BindsNothing)
    (hnamed : ∀ id ident, (s.node id).ident? = some ident → ident.WellNamed) :
    UnitsSafe cfg s fun names x => x ∈ names ∨ rootOf x ∉ names :=
  fun _ _ _ hroot => safe_uncaptured htable hroot fun id ident _ => hnamed id ident

end TermGraph
