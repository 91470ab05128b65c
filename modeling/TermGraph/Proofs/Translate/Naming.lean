import Mathlib
import TermGraph.Proofs.Translate.Names
import TermGraph.Proofs.Translate.Outline

/-!
# Scopes that fit a context

A scope of the translator fits a context when its names are those of the context,
all of them different, unavailable to further binders and none of them avoided.
Every way to enter a binder keeps the fit.
-/

namespace TermGraph

open Target Store

/-- A name that means the same under any binders whose names are not avoided. -/
def Apart (avoid : String → Prop) (P : List String → String → Prop) (x : String) : Prop :=
  ∀ names, (∀ y ∈ names, ¬ avoid y) → Template.Fits P names x

/-- What is asked of the names in the translation of a term: that all of them are
apart from binders, and that a name that is bound is fit to be read. -/
structure Safe (cfg : Config) (s : Store) (avoid : String → Prop)
    (P : List String → String → Prop) (id : TermId) : Prop where
  bound : ∀ names x, (∀ y ∈ names, ¬ avoid y) → x ∈ names → P names x
  fixed : ∀ x ∈ cfg.fixedNames, Apart avoid P x
  node : ∀ c, s.Reaches id c → cfg.NodeNames (Apart avoid P) (s.node c)

theorem Safe.of_reaches {cfg : Config} {s : Store} {avoid : String → Prop}
    {P : List String → String → Prop} {id c : TermId} (h : Safe cfg s avoid P id)
    (hc : s.Reaches id c) : Safe cfg s avoid P c :=
  ⟨h.bound, h.fixed, fun d hd => h.node d (hc.trans hd)⟩

/-- A scope that fits a context with the given names; shared subterms are looked up
below `limit` only. -/
structure Spells (avoid : String → Prop) (limit : TermId) (scope : Scope) (ctx : Context)
    (names : List String) : Prop where
  spelled : ctx.Spelled names scope.env
  nodup : names.Nodup
  taken : ∀ x ∈ names, x ∈ scope.unavailable
  clear : ∀ x ∈ names, ¬ avoid x
  avoids : ∀ x, avoid x → x ∈ scope.unavailable ∨ ¬ IsOutputName x
  shared : ∀ id < limit, scope.shared[id]? = ctx.liftedName? names id

namespace Spells

variable {avoid : String → Prop} {limit : TermId} {scope : Scope} {ctx : Context}
  {names : List String} {x : String}

theorem mono {limit' : TermId} (h : Spells avoid limit scope ctx names)
    (hle : limit' ≤ limit) : Spells avoid limit' scope ctx names :=
  { h with shared := fun id hid => h.shared id (lt_of_lt_of_le hid hle) }

/-- Whether a subterm below the limit has a name. -/
theorem isShared_eq (h : Spells avoid limit scope ctx names) {id : TermId}
    (hid : id < limit) : scope.isShared id = ctx.isLifted id := by
  rw [Scope.isShared, Std.HashMap.contains_eq_isSome_getElem?, h.shared id hid]
  cases hx : ctx.liftedName? names id with
  | none => rw [Context.isLifted, Context.liftedName?_eq_none h.spelled hx]; rfl
  | some x =>
      obtain ⟨k, hk, _⟩ := Context.liftedName?_eq_some hx
      rw [Context.isLifted, hk]
      rfl

/-- What a fresh name is fresh for. -/
structure Fresh (avoid : String → Prop) (scope : Scope) (names : List String) (x : String) :
    Prop where
  not_mem : x ∉ names
  clear : ¬ avoid x
  taken : x ∈ scope.unavailable

theorem fresh (h : Spells avoid limit scope ctx names) (base : String) :
    Spells avoid limit (scope.fresh base).2 ctx names ∧
      Fresh avoid (scope.fresh base).2 names (scope.fresh base).1 := by
  have hnot := freshVariant_not_mem scope.unavailable (sanitize base)
  have hout := isOutputName_freshVariant scope.unavailable (isOutputName_sanitize base)
  refine ⟨⟨h.spelled, h.nodup, fun y hy => ?_, h.clear, fun y hy => ?_, h.shared⟩,
    fun hmem => hnot (h.taken _ hmem), fun havoid => ?_, ?_⟩
  · exact Std.HashSet.mem_insert.mpr (Or.inr (h.taken y hy))
  · rcases h.avoids y hy with hy | hy
    · exact Or.inl (Std.HashSet.mem_insert.mpr (Or.inr hy))
    · exact Or.inr hy
  · rcases h.avoids _ havoid with hmem | hnotout
    · exact hnot hmem
    · exact hnotout hout
  · exact Std.HashSet.mem_insert.mpr (Or.inl (by simp [Scope.fresh]))

theorem named (h : Spells avoid limit scope ctx names) (hx : Fresh avoid scope names x) :
    Spells avoid limit (scope.bind x) (.named :: ctx) (x :: names) where
  spelled := .named x h.spelled
  nodup := List.nodup_cons.mpr ⟨hx.not_mem, h.nodup⟩
  taken := by simpa using ⟨hx.taken, h.taken⟩
  clear := by simpa using ⟨hx.clear, h.clear⟩
  avoids := h.avoids
  shared := fun id hid => by
    rw [Context.liftedName?_named]
    exact h.shared id hid

theorem extra (h : Spells avoid limit scope ctx names) (hx : Fresh avoid scope names x) :
    Spells avoid limit scope (.extra :: ctx) (x :: names) where
  spelled := .extra x h.spelled
  nodup := List.nodup_cons.mpr ⟨hx.not_mem, h.nodup⟩
  taken := by simpa using ⟨hx.taken, h.taken⟩
  clear := by simpa using ⟨hx.clear, h.clear⟩
  avoids := h.avoids
  shared := fun id hid => by
    rw [Context.liftedName?_extra]
    exact h.shared id hid

theorem unnamed (h : Spells avoid limit scope ctx names) :
    Spells avoid limit (scope.bind "_") (.unnamed :: ctx) names :=
  { h with spelled := .unnamed h.spelled, shared := h.shared }

/-- The parameter of some hypotheses becomes a binder of the term. -/
theorem promote {m : Nat}
    (h : Spells avoid limit scope (List.replicate m .extra ++ .extra :: ctx) names)
    (hx : names[m]? = some x) :
    Spells avoid limit (scope.bind x) (List.replicate m .extra ++ .named :: ctx) names where
  spelled := h.spelled.promote hx
  nodup := h.nodup
  taken := h.taken
  clear := h.clear
  avoids := h.avoids
  shared := fun id hid => by
    rw [Context.liftedName?, Context.lifted?_promote]
    exact h.shared id hid

end Spells

/-! ## Units -/

section Units

variable {cfg : Config} {e : Emission} {s : Store} {roots : List TermId}

theorem spells_ofUnit (limit : TermId) :
    Spells (cfg.Avoided e s roots) limit (Scope.ofUnit cfg e s roots) [] [] where
  spelled := .nil
  nodup := List.nodup_nil
  taken := by simp
  clear := by simp
  avoids := fun _ h => h
  shared := fun id _ => Std.HashMap.getElem?_empty

/-- In a unit, every name that stays free is apart from all binders. -/
theorem safe_scoped (htable : cfg.table.BindsNothing) {root : TermId} (hroot : root ∈ roots) :
    Safe cfg s (cfg.Avoided e s roots) (fun _ _ => True) root := by
  have hapart : ∀ x, cfg.Avoided e s roots x →
      Apart (cfg.Avoided e s roots) (fun _ _ => True) x :=
    fun x hx names hnames => ⟨fun hmem => hnames x hmem hx, trivial⟩
  refine ⟨fun _ _ _ _ => trivial, fun x hx => hapart x ?_, fun c hc => ?_⟩
  · exact Config.avoided_of_root (Config.avoided_of_reserved (Config.rootOf_fixedNames hx))
  · exact (Config.nodeNames_avoided htable hroot hc).imp hapart

/-- In a unit whose identifiers are well-named, no name that stays free starts with
the name of a binder and a dot either. -/
theorem safe_uncaptured (htable : cfg.table.BindsNothing) {root : TermId}
    (hroot : root ∈ roots)
    (hnamed : ∀ c ident, s.Reaches root c → (s.node c).ident? = some ident →
      ident.WellNamed) :
    Safe cfg s (cfg.Avoided e s roots) (fun names x => x ∈ names ∨ rootOf x ∉ names) root := by
  have hapart : ∀ x, cfg.Avoided e s roots (rootOf x) →
      Apart (cfg.Avoided e s roots) (fun names x => x ∈ names ∨ rootOf x ∉ names) x := by
    intro x hx names hnames
    refine ⟨fun hmem => hnames x hmem (Config.avoided_of_root hx), Or.inr fun hmem => ?_⟩
    exact hnames _ hmem hx
  refine ⟨fun _ _ _ hx => Or.inl hx, fun x hx => hapart x ?_, fun c hc => ?_⟩
  · exact Config.avoided_of_reserved (Config.rootOf_fixedNames hx)
  · exact (Config.nodeNames_avoided_rootOf htable hroot hc
      (fun ident hident => hnamed c ident hc hident)).imp hapart

end Units

/-! ## Telescopes -/

/-- Binders that read as given types, from under some names to under more. -/
inductive Telescope (P : List String → String → Prop) :
    List String → List (Binder Expr) → List (Bool × Resolved) → List String → Prop where
  | nil {names} : Telescope P names [] [] names
  | cons {names names' bs rs} {x : String} {ty : Expr} {r : Resolved} {implicit : Bool}
      (hty : Reads P names ty r) (hx : x ∉ names) (h : Telescope P (x :: names) bs rs names') :
      Telescope P names (⟨x, ty, implicit⟩ :: bs) ((implicit, r) :: rs) names'

section Telescopes

variable {P : List String → String → Prop} {names names' names'' : List String}
  {bs bs' : List (Binder Expr)} {rs rs' : List (Bool × Resolved)} {body : Expr} {r : Resolved}

theorem Telescope.append (h : Telescope P names bs rs names')
    (h' : Telescope P names' bs' rs' names'') :
    Telescope P names (bs ++ bs') (rs ++ rs') names'' := by
  induction h with
  | nil => exact h'
  | cons hty hx _ ih => exact .cons hty hx (ih h')

theorem Telescope.reads_lam (h : Telescope P names bs rs names')
    {rest : List (Binder Expr)} (hbody : Reads P names' (.lam rest body) r) :
    Reads P names (.lam (bs ++ rest) body) (.lams rs r) := by
  induction h with
  | nil => exact hbody
  | cons hty hx _ ih => exact reads_lam_cons hty hx (ih hbody)

theorem Telescope.reads_pi (h : Telescope P names bs rs names')
    {rest : List (PiBinder Expr)} (hbody : Reads P names' (.pi rest body) r) :
    Reads P names (.pi (bs.map namedPi ++ rest) body) (.pis rs r) := by
  induction h with
  | nil => exact hbody
  | cons hty hx _ ih => exact reads_pi_cons hty hx (ih hbody)

end Telescopes

end TermGraph
