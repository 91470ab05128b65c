import Mathlib
import TermGraph.Proofs.Name.Dots
import TermGraph.Proofs.Translate.Ledger
import TermGraph.Proofs.Translate.Lifting

/-!
# Declarations with names of their own

Constants are told apart by their identifiers, and definitions by the names that they are
called for.  What is declared is named after either, with an underscore behind a reserved
word.  So the names of declarations differ as far as these spellings do: identifiers with
dots inside their parts, a definition that is called like a constant, and a name that
another one is escaped to are what can make two declarations share a name.
-/

namespace TermGraph

open Target Store

/-! ## Spellings -/

namespace Ident

variable {ident ident' : Ident}

theorem dot_mem_text (ident : Ident) : '.' ∈ ident.text.toList := by
  simp [text]

theorem splitDots_text (h : ident.WellNamed) :
    splitDots ident.text.toList =
      splitDots ident.module.text.toList ++ [ident.name.toList] := by
  have htext : ident.text.toList = ident.module.text.toList ++ '.' :: ident.name.toList := by
    simp [text]
  rw [htext, splitDots_append_dot, splitDots_of_not_mem h.name.2]

/-- The parts of a module, unless there are none; these are not cut from any text. -/
theorem splitDots_module (h : ident.WellNamed) :
    splitDots ident.module.text.toList = [[]] ∧ ident.module.components = [] ∨
      splitDots ident.module.text.toList = ident.module.components.map String.toList ∧
        splitDots ident.module.text.toList ≠ [[]] := by
  by_cases hne : ident.module.components = []
  · exact Or.inl ⟨by simp [ModuleName.text, hne, joinDots], hne⟩
  · have hsplit := splitDots_joinDots hne fun c hc => (h.components c hc).2
    refine Or.inr ⟨hsplit, fun hempty => ?_⟩
    rw [ModuleName.text, hsplit] at hempty
    obtain ⟨c, rest, hcons⟩ := List.exists_cons_of_ne_nil hne
    rw [hcons, List.map_cons, List.cons.injEq] at hempty
    exact (h.components c (by simp [hcons])).1 (String.toList_eq_nil_iff.mp hempty.1)

/-- Well-named identifiers are told apart by their texts. -/
theorem eq_of_text_eq (h : ident.WellNamed) (h' : ident'.WellNamed)
    (htext : ident.text = ident'.text) : ident = ident' := by
  have hsplit := congrArg (fun t => splitDots t.toList) htext
  simp only [splitDots_text h, splitDots_text h'] at hsplit
  have hmodule := List.append_inj_left' hsplit rfl
  have hname : ident.name = ident'.name :=
    String.toList_inj.mp (by simpa using List.append_inj_right' hsplit rfl)
  have hcomponents : ident.module.components = ident'.module.components := by
    rcases splitDots_module h with ⟨hs, hc⟩ | ⟨hs, hc⟩ <;>
      rcases splitDots_module h' with ⟨hs', hc'⟩ | ⟨hs', hc'⟩
    · rw [hc, hc']
    · exact absurd (hmodule.symm.trans hs) hc'
    · exact absurd (hmodule.trans hs') hc
    · rw [hs, hs'] at hmodule
      exact List.map_injective_iff.mpr (fun _ _ => String.toList_inj.mp) hmodule
  obtain ⟨⟨components⟩, name⟩ := ident
  obtain ⟨⟨components'⟩, name'⟩ := ident'
  obtain rfl : components = components' := hcomponents
  obtain rfl : name = name' := hname
  rfl

end Ident

namespace Config

variable (cfg : Config)

/-- How an identifier is called from the current module, before reserved words are
escaped. -/
def plainName (ident : Ident) : String :=
  if ident.module = cfg.currentModule then ident.name else ident.text

variable {cfg}

theorem escape_of_dot {name : String} (h : '.' ∈ name.toList) : escape name = name :=
  if_neg fun hres => dot_not_mem_of_isReserved hres h

theorem qualifiedName_eq_escape (ident : Ident) :
    cfg.qualifiedName ident = escape (cfg.plainName ident) := by
  unfold qualifiedName plainName
  split
  · rfl
  · exact (escape_of_dot ident.dot_mem_text).symm

/-- Well-named identifiers are told apart by what they are called. -/
theorem eq_of_plainName_eq {ident ident' : Ident} (h : ident.WellNamed)
    (h' : ident'.WellNamed) (hname : cfg.plainName ident = cfg.plainName ident') :
    ident = ident' := by
  unfold plainName at hname
  split at hname <;> rename_i hmodule <;> split at hname <;> rename_i hmodule'
  · obtain ⟨module, name⟩ := ident
    obtain ⟨module', name'⟩ := ident'
    obtain rfl : module = module' := hmodule.trans hmodule'.symm
    obtain rfl : name = name' := hname
    rfl
  · exact absurd (hname ▸ ident'.dot_mem_text) h.name.2
  · exact absurd (hname ▸ ident.dot_mem_text) h'.name.2
  · exact Ident.eq_of_text_eq h h' hname

end Config

/-! ## Declaring constants -/

/-- Declarations of constants that were not dealt with before, each named after its
constant if it has a name. -/
structure AddsConstants (cfg : Config) (new : List (Ident × Decl)) (e e' : Emission) : Prop where
  declarations : e'.declarations.toList = e.declarations.toList ++ new.map Prod.snd
  keeps : ∀ ident, e.isHandled ident = true → e'.isHandled ident = true
  once : (new.map Prod.fst).Nodup
  fresh : ∀ ident ∈ new.map Prod.fst, ¬e.isHandled ident = true
  handled : ∀ ident ∈ new.map Prod.fst, e'.isHandled ident = true
  named : ∀ p ∈ new, ∀ x, p.2.name? = some x → cfg.declaredName? p.1 = some x

section AddsConstants

variable {cfg : Config} {new new' : List (Ident × Decl)} {e e' e'' : Emission}

theorem AddsConstants.refl (cfg : Config) (e : Emission) : AddsConstants cfg [] e e := by
  refine ⟨by simp, fun _ h => h, List.nodup_nil, ?_, ?_, ?_⟩ <;> simp

theorem AddsConstants.trans (h : AddsConstants cfg new e e') (h' : AddsConstants cfg new' e' e'') :
    AddsConstants cfg (new ++ new') e e'' where
  declarations := by rw [h'.declarations, h.declarations, List.map_append, List.append_assoc]
  keeps := fun ident hident => h'.keeps ident (h.keeps ident hident)
  once := by
    rw [List.map_append]
    exact h.once.append h'.once fun ident hmem hmem' => h'.fresh ident hmem' (h.handled ident hmem)
  fresh := by
    intro ident hident
    rw [List.map_append, List.mem_append] at hident
    rcases hident with hmem | hmem
    · exact h.fresh ident hmem
    · exact fun hold => h'.fresh ident hmem (h.keeps ident hold)
  handled := by
    intro ident hident
    rw [List.map_append, List.mem_append] at hident
    rcases hident with hmem | hmem
    · exact h'.keeps ident (h.handled ident hmem)
    · exact h'.handled ident hmem
  named := by
    intro p hp
    exact (List.mem_append.mp hp).elim (h.named p) (h'.named p)

/-- Noting that a constant is dealt with, before anything is emitted for it. -/
theorem AddsConstants.handle {ident : Ident}
    (h : AddsConstants cfg new (e.handle ident) e') :
    AddsConstants cfg new e e' ∧ ident ∉ new.map Prod.fst ∧ e'.isHandled ident = true := by
  have hself := (isHandled_handle e ident ident).mpr (Or.inl rfl)
  have hold : ∀ other, e.isHandled other = true → (e.handle ident).isHandled other = true :=
    fun other hother => (isHandled_handle e ident other).mpr (Or.inr hother)
  refine ⟨{ h with keeps := ?_, fresh := ?_ }, fun hmem => h.fresh ident hmem hself,
    h.keeps ident hself⟩
  · exact fun other hother => h.keeps other (hold other hother)
  · exact fun other hother hhandled => h.fresh other hother (hold other hhandled)

/-- Adding the declaration of a constant that has been noted. -/
theorem AddsConstants.push {ident : Ident} {d : Decl} (hnot : ¬e.isHandled ident = true)
    (h : AddsConstants cfg new (e.handle ident) e')
    (hname : ∀ x, d.name? = some x → cfg.declaredName? ident = some x) :
    AddsConstants cfg (new ++ [(ident, d)]) e (e'.push d) := by
  obtain ⟨hall, hnew, hself⟩ := h.handle
  refine ⟨?_, hall.keeps, ?_, ?_, ?_, ?_⟩
  · rw [Emission.push, Array.toList_push, hall.declarations, List.map_append, List.append_assoc]
    rfl
  · rw [List.map_append]
    exact hall.once.append (List.nodup_singleton ident) (by simpa using hnew)
  · rw [List.map_append, List.forall_mem_append]
    exact ⟨hall.fresh, by simpa using hnot⟩
  · rw [List.map_append, List.forall_mem_append]
    refine ⟨hall.handled, fun other hother => ?_⟩
    rwa [List.mem_singleton.mp hother]
  · rw [List.forall_mem_append]
    exact ⟨hall.named, by simpa using hname⟩

/-- A run declares constants and nothing else. -/
def OnlyConstants (cfg : Config) (e e' : Emission) : Prop :=
  ∃ new, AddsConstants cfg new e e'

theorem accumulates_onlyConstants (cfg : Config) : Accumulates (OnlyConstants cfg) where
  refl := fun e => ⟨[], .refl cfg e⟩
  trans := fun ⟨new, h⟩ ⟨new', h'⟩ => ⟨new ++ new', h.trans h'⟩
  keeps := fun ⟨_, h⟩ => h.keeps _

end AddsConstants

section Runs

variable {cfg : Config} {s : Store} {render : Render} {name : String} {ty : TermId}
  {e e' : Emission} {d : Decl}

theorem name?_translateDefinition {scope : Scope} {body : TermId}
    (hrun : (translateDefinition cfg s render scope name ty body).run e = .ok (d, e')) :
    d.name? = some name := by
  unfold translateDefinition at hrun
  dsimp only at hrun
  split at hrun
  · obtain ⟨type, e₁, -, hrun⟩ := run_bind_eq_ok.mp hrun
    obtain ⟨value, e₂, -, hrun⟩ := run_bind_eq_ok.mp hrun
    cases hrun
    rfl
  · obtain ⟨⟨params, scope'⟩, e₁, -, hrun⟩ := run_bind_eq_ok.mp hrun
    obtain ⟨type, e₂, -, hrun⟩ := run_bind_eq_ok.mp hrun
    obtain ⟨value, e₃, -, hrun⟩ := run_bind_eq_ok.mp hrun
    cases hrun
    rfl

theorem name?_declaration {body : Option TermId}
    (hrun : (declaration cfg s render name ty body).run e = .ok (d, e')) :
    d.name? = some name := by
  unfold declaration at hrun
  obtain ⟨_, _, hget, hrun⟩ := run_bind_eq_ok.mp hrun
  cases hget
  cases body with
  | some body => exact name?_translateDefinition hrun
  | none =>
      obtain ⟨type, e₁, -, hrun⟩ := run_bind_eq_ok.mp hrun
      cases hrun
      rfl

/-- Every set of identifiers covers every node, if it has all of them. -/
theorem covered_univ (s : Store) (id : TermId) : s.Covered (fun _ => True) id :=
  fun _ _ => trivial

/-- That the nodes below a limit declare constants and nothing else. -/
theorem onlyConstants_declareConstant {ident : Ident} {body : Option TermId} {limit : TermId}
    (hlt : ∀ c ∈ ty :: body.toList, c < limit)
    (hrender : ∀ scope, ∀ c < limit,
      Visits (OnlyConstants cfg) (fun _ => True) (render scope c) fun _ => True) :
    Visits (OnlyConstants cfg) (fun _ => True) (declareConstant cfg s render ident ty body)
      fun _ => True := by
  intro e u e' hrun
  refine ⟨?_, fun _ => trivial⟩
  by_cases hhandled : e.isHandled ident = true
  · obtain rfl := declareConstant_of_handled hrun hhandled
    exact ⟨[], .refl cfg e'⟩
  obtain ⟨site, hsite, hrun⟩ := run_declareConstant hrun hhandled
  have hdeclared {name : String} (hname : cfg.declaredName? ident = some name)
      (hrun : (do
        let d ← declaration cfg s render name ty body
        modify (Emission.push d)).run (e.handle ident) = .ok (u, e')) :
      OnlyConstants cfg e e' := by
    obtain ⟨d, e₁, hd, hpush⟩ := run_bind_eq_ok.mp hrun
    cases hpush
    obtain ⟨⟨new, hnew⟩, -⟩ := visits_declaration (F := fun _ => True)
      (accumulates_onlyConstants cfg) (fun scope c hc => (hrender scope c hc).imp
        fun _ _ _ => covered_univ s c) name hlt _ _ _ hd
    refine ⟨_, hnew.push hhandled fun x hx => ?_⟩
    rw [name?_declaration hd] at hx
    rw [hname, hx]
  cases site with
  | preserve => exact hdeclared (by simp [Config.declaredName?, hsite]) hrun
  | rename name => exact hdeclared (by simp [Config.declaredName?, hsite]) hrun
  | skip =>
      cases hrun
      exact ⟨[], ((AddsConstants.refl cfg _).handle).1⟩
  | replace text =>
      cases hrun
      exact ⟨_, (AddsConstants.refl cfg _).push hhandled fun x hx => by cases hx⟩

/-- Translating a node declares constants and nothing else. -/
theorem onlyConstants_translateNode (cfg : Config) (s : Store) (id : TermId) (scope : Scope) :
    Visits (OnlyConstants cfg) (fun _ => True) (cfg.translateNode s scope id)
      fun _ => True := by
  induction id using Nat.strong_induction_on generalizing scope with
  | _ id ih =>
      rw [translateNode_eq]
      have hbelow : ∀ scope, ∀ c < id, Visits (OnlyConstants cfg) (fun _ => True)
          (cfg.renderBelow s id scope c) fun _ => True := by
        intro scope c hc
        rw [renderBelow_eq hc]
        exact ih c hc scope
      refine (visits_step (accumulates_onlyConstants cfg) (fun scope c hc =>
        (hbelow scope c hc).imp fun _ _ _ => covered_univ s c) scope (Eq.refl id) ?_).imp
        fun _ _ => trivial
      intro c ident ty body hnode hle
      exact onlyConstants_declareConstant (fun b hb =>
        lt_of_lt_of_le (lt_of_node_constant hnode b hb) hle) hbelow

end Runs

/-! ## Calls -/

/-- What a named declaration of a module pass is for: a constant, or a call for a
definition. -/
abbrev Origin : Type :=
  Ident ⊕ String

namespace Config

/-- The name of a declaration of some origin. -/
def nameOf? (cfg : Config) : Origin → Option String
  | .inl ident => cfg.declaredName? ident
  | .inr name => some (escape name)

end Config

namespace ModuleCall

/-- The name that a call defines. -/
def definedName? : ModuleCall → Option String
  | .translate _ _ => none
  | .define _ name _ _ => some name

end ModuleCall

/-- What has been declared so far, each declaration with its origin: constants that were
not there at the start, and definitions of given names. -/
structure Listing (cfg : Config) (seeded : List Ident) (names : List String)
    (entries : List (Origin × Decl)) (e : Emission) : Prop where
  declarations : e.declarations.toList = entries.map Prod.snd
  known : ∀ ident ∈ seeded, e.isHandled ident = true
  definitions : entries.filterMap (fun p => p.1.getRight?) = names
  constants : (entries.filterMap fun p => p.1.getLeft?).Nodup
  handled : ∀ ident ∈ entries.filterMap (fun p => p.1.getLeft?),
    ident ∉ seeded ∧ e.isHandled ident = true
  named : ∀ p ∈ entries, ∀ x, p.2.name? = some x → cfg.nameOf? p.1 = some x

section Calls

variable {cfg : Config} {seeded : List Ident} {names : List String}
  {entries : List (Origin × Decl)} {e e' : Emission}

theorem listing_startingWith (cfg : Config) (seeded : List Ident) :
    Listing cfg seeded [] [] (.startingWith seeded) := by
  refine ⟨rfl, ?_, rfl, List.nodup_nil, ?_, ?_⟩ <;>
    simp [Emission.startingWith, Emission.isHandled]

/-- A run that declares constants. -/
theorem Listing.addConstants (h : Listing cfg seeded names entries e)
    (hadds : OnlyConstants cfg e e') :
    ∃ new, Listing cfg seeded names (entries ++ new) e' := by
  obtain ⟨new, hnew⟩ := hadds
  have hleft : (new.map fun p => ((.inl p.1, p.2) : Origin × Decl)).filterMap
      (fun p => p.1.getLeft?) = new.map Prod.fst := by
    simp [List.filterMap_map, Function.comp_def]
  refine ⟨new.map fun p => (.inl p.1, p.2), ?_, ?_, ?_, ?_, ?_, ?_⟩
  · rw [hnew.declarations, h.declarations]
    simp
  · exact fun ident hident => hnew.keeps ident (h.known ident hident)
  · rw [List.filterMap_append, h.definitions]
    simp [List.filterMap_map, Function.comp_def]
  · rw [List.filterMap_append, hleft]
    exact h.constants.append hnew.once
      fun ident hold hmem => hnew.fresh ident hmem (h.handled ident hold).2
  · rw [List.filterMap_append, hleft, List.forall_mem_append]
    refine ⟨fun ident hident => ?_, fun ident hident => ?_⟩
    · exact ⟨(h.handled ident hident).1, hnew.keeps ident (h.handled ident hident).2⟩
    · exact ⟨fun hseeded => hnew.fresh ident hident (h.known ident hseeded),
        hnew.handled ident hident⟩
  · rw [List.forall_mem_append]
    refine ⟨h.named, fun p hp => ?_⟩
    obtain ⟨q, hq, rfl⟩ := List.mem_map.mp hp
    exact hnew.named q hq

/-- Emitting a definition. -/
theorem Listing.addDefinition (h : Listing cfg seeded names entries e) {name : String}
    {d : Decl} (hname : d.name? = some (escape name)) :
    Listing cfg seeded (names ++ [name]) (entries ++ [(.inr name, d)]) (e.push d) := by
  have hleft : (entries ++ [((.inr name, d) : Origin × Decl)]).filterMap
      (fun p => p.1.getLeft?) = entries.filterMap fun p => p.1.getLeft? := by
    simp [List.filterMap_cons]
  refine ⟨by simp [Emission.push, h.declarations], h.known, ?_, ?_, ?_, ?_⟩
  · rw [List.filterMap_append, h.definitions]
    rfl
  · rw [hleft]
    exact h.constants
  · rw [hleft]
    exact h.handled
  · rw [List.forall_mem_append]
    refine ⟨h.named, fun p hp x hx => ?_⟩
    rw [List.mem_singleton.mp hp] at hx ⊢
    rw [← hx, hname]
    rfl

/-- The nodes below a limit declare constants and nothing else. -/
theorem onlyConstants_below (cfg : Config) (s : Store) (limit : TermId) (scope : Scope) :
    ∀ c < limit, Visits (OnlyConstants cfg) (fun _ => True) (cfg.translateNode s scope c)
      fun _ => Supplied s (fun _ => True) scope c → s.Covered (fun _ => True) c :=
  fun c _ => (onlyConstants_translateNode cfg s c scope).imp fun _ _ _ => covered_univ s c

theorem Listing.translate (h : Listing cfg seeded names entries e) {s : Store}
    {root : TermId} {t : TranslatedTerm} (hrun : cfg.translate s root e = (.ok t, e')) :
    ∃ new, Listing cfg seeded names (entries ++ new) e' := by
  obtain ⟨hroot, -⟩ := run_of_translate_eq_ok hrun
  exact h.addConstants (visits_lifted (accumulates_onlyConstants cfg)
    (onlyConstants_below cfg s (root + 1)) _ (Nat.lt_succ_self root) _ _ _ hroot).1

theorem Listing.define (h : Listing cfg seeded names entries e) {s : Store} {name : String}
    {ty body : TermId} {d : Decl} (hrun : cfg.define s name ty body e = (.ok d, e')) :
    ∃ new, Listing cfg seeded (names ++ [name]) (entries ++ new) e' := by
  obtain ⟨e₁, hd, rfl⟩ := run_of_define_eq_ok hrun
  have hty : ty < max ty body + 1 := Nat.lt_succ_of_le (le_max_left ty body)
  have hbody : body < max ty body + 1 := Nat.lt_succ_of_le (le_max_right ty body)
  obtain ⟨new, hnew⟩ := h.addConstants (visits_definition (accumulates_onlyConstants cfg)
    (onlyConstants_below cfg s (max ty body + 1)) _ _ hty hbody _ _ _ hd).1
  refine ⟨new ++ [(.inr name, d)], ?_⟩
  rw [← List.append_assoc]
  exact hnew.addDefinition (name?_translateDefinition hd)

/-- One call that does not fail. -/
theorem Listing.perform (h : Listing cfg seeded names entries e) {call : ModuleCall}
    {r : ModuleResult} (hrun : cfg.perform e call = (.ok r, e')) :
    ∃ new, Listing cfg seeded (names ++ call.definedName?.toList) (entries ++ new) e' := by
  cases call with
  | translate s root =>
      obtain ⟨t, hcall, rfl⟩ := perform_translate_eq_ok hrun
      simpa [ModuleCall.definedName?] using h.translate hcall
  | define s name ty body =>
      obtain ⟨d, hcall, rfl⟩ := perform_define_eq_ok hrun
      exact h.define hcall

theorem Listing.performAll (calls : List ModuleCall) (h : Listing cfg seeded names entries e)
    (hok : ∀ r ∈ (cfg.performAll e calls).1, r.isOk) :
    ∃ new, Listing cfg seeded (names ++ calls.filterMap ModuleCall.definedName?)
      (entries ++ new) (cfg.performAll e calls).2 := by
  induction calls generalizing e names entries with
  | nil => exact ⟨[], by simpa [Config.performAll] using h⟩
  | cons call calls ih =>
      rcases hrun : cfg.perform e call with ⟨err | r, e₁⟩
      · rw [performAll_cons hrun] at hok
        exact absurd (hok _ List.mem_cons_self) (by simp [Except.isOk, Except.toBool])
      · rw [performAll_cons hrun] at hok ⊢
        obtain ⟨new, hnew⟩ := h.perform hrun
        obtain ⟨new', hnew'⟩ := ih hnew (fun r hr => hok r (List.mem_cons_of_mem _ hr))
        refine ⟨new ++ new', ?_⟩
        rw [← List.append_assoc]
        cases hdef : call.definedName? <;>
          simpa [hdef, List.filterMap_cons] using hnew'

end Calls

/-! ## Names of their own -/

namespace Config

/-- A constant that a module pass has dealt with and that was neither there at its start nor
is left out by the table. -/
def Provides (cfg : Config) (seeded : List Ident) (calls : List ModuleCall) (ident : Ident) :
    Prop :=
  cfg.Owes seeded ident ∧ (cfg.performAll (.startingWith seeded) calls).2.isHandled ident = true

/-- Some definition or constant is called this. -/
def Called (cfg : Config) (constants : Ident → Prop) (names : List String) (x : String) : Prop :=
  x ∈ names ∨ ∃ ident, constants ident ∧ cfg.plainName ident = x

/-- What keeps the spellings of constants and of definitions apart. -/
structure SpelledApart (cfg : Config) (constants : Ident → Prop) (names : List String) :
    Prop where
  /-- Identifiers have parts that are not empty and have no dots. -/
  wellNamed : ∀ ident, constants ident → ident.WellNamed
  /-- No definition is called like a constant. -/
  apart : ∀ ident, constants ident → cfg.plainName ident ∉ names
  /-- A reserved word and what it is escaped to are not both called for. -/
  unescaped : ∀ w, isReserved w → cfg.Called constants names w →
    ¬cfg.Called constants names (w ++ "_")

/-- How an origin is called, before reserved words are escaped. -/
def plainOrigin (cfg : Config) : Origin → String
  | .inl ident => cfg.plainName ident
  | .inr name => name

/-- An origin that is one of some constants and definitions. -/
def IsOrigin (constants : Ident → Prop) (names : List String) : Origin → Prop
  | .inl ident => constants ident
  | .inr name => name ∈ names

section SpelledApart

variable {cfg : Config} {constants : Ident → Prop} {names : List String} {o o' : Origin}

theorem called_plainOrigin (h : IsOrigin constants names o) :
    cfg.Called constants names (cfg.plainOrigin o) := by
  cases o with
  | inl ident => exact Or.inr ⟨ident, h, rfl⟩
  | inr name => exact Or.inl h

/-- Escaping tells apart what is called for. -/
theorem SpelledApart.eq_of_escape_eq (h : cfg.SpelledApart constants names) {x y : String}
    (hx : cfg.Called constants names x) (hy : cfg.Called constants names y)
    (heq : escape x = escape y) : x = y := by
  unfold escape at heq
  split at heq <;> rename_i hresx <;> split at heq <;> rename_i hresy
  · exact (String.append_left_inj "_").mp heq
  · exact absurd (heq ▸ hy) (h.unescaped x hresx hx)
  · exact absurd (heq ▸ hx) (h.unescaped y hresy hy)
  · exact heq

/-- Origins that are spelled apart are told apart by what they are called. -/
theorem SpelledApart.eq_of_plainOrigin_eq (h : cfg.SpelledApart constants names)
    (ho : IsOrigin constants names o) (ho' : IsOrigin constants names o')
    (heq : cfg.plainOrigin o = cfg.plainOrigin o') : o = o' := by
  cases o with
  | inl ident =>
      cases o' with
      | inl ident' =>
          rw [eq_of_plainName_eq (h.wellNamed ident ho) (h.wellNamed ident' ho') heq]
      | inr name =>
          obtain rfl : cfg.plainName ident = name := heq
          exact absurd ho' (h.apart ident ho)
  | inr name =>
      cases o' with
      | inl ident =>
          obtain rfl : name = cfg.plainName ident := heq
          exact absurd ho (h.apart ident ho')
      | inr name' => exact congrArg Sum.inr heq

end SpelledApart

end Config

/-- A list of origins has no repetition if its constants and its definitions have none. -/
theorem nodup_origins {os : List Origin} (hleft : (os.filterMap Sum.getLeft?).Nodup)
    (hright : (os.filterMap Sum.getRight?).Nodup) : os.Nodup := by
  induction os with
  | nil => exact List.nodup_nil
  | cons o os ih =>
      rw [List.nodup_cons]
      cases o with
      | inl ident =>
          simp only [List.filterMap_cons, Sum.getLeft?_inl, Sum.getRight?_inl,
            List.nodup_cons] at hleft hright
          refine ⟨fun hmem => hleft.1 ?_, ih hleft.2 hright⟩
          exact List.mem_filterMap.mpr ⟨_, hmem, rfl⟩
      | inr name =>
          simp only [List.filterMap_cons, Sum.getLeft?_inr, Sum.getRight?_inr,
            List.nodup_cons] at hleft hright
          refine ⟨fun hmem => hright.1 ?_, ih hleft hright.2⟩
          exact List.mem_filterMap.mpr ⟨_, hmem, rfl⟩

section Names

variable {cfg : Config} {seeded : List Ident} {names : List String}
  {entries : List (Origin × Decl)} {e : Emission}

/-- A declaration that has a name is called like its origin, up to the escape. -/
theorem Listing.name_eq_escape (h : Listing cfg seeded names entries e)
    (hrename : ∀ ident name, cfg.defSite? ident ≠ some (.rename name)) {o : Origin} {d : Decl}
    (hmem : (o, d) ∈ entries) {x : String} (hx : d.name? = some x) :
    x = escape (cfg.plainOrigin o) ∧
      Config.IsOrigin (fun ident => cfg.Owes seeded ident ∧ e.isHandled ident = true) names o := by
  have hname := h.named _ hmem x hx
  cases o with
  | inl ident =>
      have hhandled := h.handled ident (List.mem_filterMap.mpr ⟨_, hmem, rfl⟩)
      have hsite : cfg.defSite? ident = some .preserve := by
        simp only [Config.nameOf?, Config.declaredName?] at hname
        split at hname <;> rename_i hsite
        · exact hsite
        · exact absurd hsite (hrename ident _)
        · cases hname
      simp only [Config.nameOf?, Config.declaredName?, hsite, Option.some.injEq] at hname
      rw [← hname, Config.qualifiedName_eq_escape]
      exact ⟨rfl, ⟨hhandled.1, .preserve, hsite, by simp⟩, hhandled.2⟩
  | inr name =>
      simp only [Config.nameOf?, Option.some.injEq] at hname
      refine ⟨hname.symm, ?_⟩
      rw [Config.IsOrigin, ← h.definitions]
      exact List.mem_filterMap.mpr ⟨_, hmem, rfl⟩

/-- The names of a listing have no repetition, if constants and definitions are spelled
apart. -/
theorem Listing.nodup_names (h : Listing cfg seeded names entries e)
    (hrename : ∀ ident name, cfg.defSite? ident ≠ some (.rename name)) (hnames : names.Nodup)
    (hspelled : cfg.SpelledApart
      (fun ident => cfg.Owes seeded ident ∧ e.isHandled ident = true) names) :
    (e.declarations.toList.filterMap Decl.name?).Nodup := by
  have horigins : (entries.map Prod.fst).Nodup := by
    refine nodup_origins ?_ ?_
    · simpa [List.filterMap_map, Function.comp_def] using h.constants
    · rw [List.filterMap_map]
      exact h.definitions ▸ hnames
  rw [h.declarations, List.filterMap_map, List.Nodup, List.pairwise_filterMap]
  refine (List.pairwise_map.mp horigins).imp_of_mem fun {p q} hp hq hne x hx y hy heq => hne ?_
  obtain ⟨hxp, hop⟩ := h.name_eq_escape hrename hp hx
  obtain ⟨hyq, hoq⟩ := h.name_eq_escape hrename hq hy
  refine hspelled.eq_of_plainOrigin_eq hop hoq (hspelled.eq_of_escape_eq
    (Config.called_plainOrigin hop) (Config.called_plainOrigin hoq) ?_)
  rw [← hxp, ← hyq, heq]

end Names

/-- The unit value, a constant of the current module, and two constants of other modules
with one text. -/
def spellings : Store :=
  ofNodes [.unitType, .unit, .constant ⟨⟨["Main"]⟩, "f"⟩ 0 (some 1),
    .constant ⟨⟨["A", "B"]⟩, "c"⟩ 0 (some 1), .constant ⟨⟨["A.B"]⟩, "c"⟩ 0 (some 1)]

theorem spellings_node : spellings.node 0 = .unitType ∧ spellings.node 1 = .unit ∧
    spellings.node 2 = .constant ⟨⟨["Main"]⟩, "f"⟩ 0 (some 1) ∧
    spellings.node 3 = .constant ⟨⟨["A", "B"]⟩, "c"⟩ 0 (some 1) ∧
    spellings.node 4 = .constant ⟨⟨["A.B"]⟩, "c"⟩ 0 (some 1) :=
  ⟨rfl, rfl, rfl, rfl, rfl⟩

theorem spellings_namedTerms_unit : untreated.namedTerms spellings 1 = [] := by
  have hsize : spellings.size = 5 := rfl
  refine sharedTermsBy_eq (by simp) fun t => ?_
  simp [hsize, tally, spellings_node.2.1, renderedChildren, Node.children,
    Node.childrenWithDepth, Std.HashMap.getElem?_insert]

theorem spellings_namedTerms_constant {id : TermId} {ident : Ident}
    (hnode : spellings.node id = .constant ident 0 (some 1)) :
    untreated.namedTerms spellings id = [] := by
  have hsize : spellings.size = 5 := rfl
  refine sharedTermsBy_eq (by simp) fun t => ?_
  simp [hsize, tally, hnode, renderedChildren, Std.HashMap.getElem?_insert]

theorem spellings_piChain : spellings.piChain 0 = ([], 0) :=
  piChain_of_not (by simp [spellings_node])

theorem untreated_defSite? (ident : Ident) : untreated.defSite? ident = some .preserve := by
  simp [Config.defSite?, untreated_find?]

/-- A definition of the unit value. -/
theorem define_spellings (name : String) (e : Emission) :
    let d := Decl.definition (escape name) [] (some (.var "Unit")) (.var "Unit.unit")
    untreated.perform e (.define spellings name 0 1) = (.ok (.definition d), e.push d) := by
  obtain ⟨h0, h1, -⟩ := spellings_node
  have hrun : (untreated.emitDefinition spellings name 0 1).run e = .ok
      (.definition (escape name) [] (some (.var "Unit")) (.var "Unit.unit"),
        e.push (.definition (escape name) [] (some (.var "Unit")) (.var "Unit.unit"))) := by
    simp [Config.emitDefinition, translateDefinition, spellings_piChain, translateLifted,
      spellings_namedTerms_unit, translateTerm, Scope.ofUnit, translateNode_eq, translateStep,
      h0, h1]
    rfl
  intro d
  rw [Config.perform, Config.define, Emission.attempt_eq_ok.mpr hrun]
  rfl

/-- A constant of the store is declared by the first reference to it. -/
theorem translate_spellings {id : TermId} {ident : Ident}
    (hnode : spellings.node id = .constant ident 0 (some 1)) {e : Emission}
    (he : e.isHandled ident = false) :
    ∃ t e', untreated.perform e (.translate spellings id) = (.ok (.term t), e') ∧
      e'.declarations.toList = e.declarations.toList ++
        [.definition (untreated.qualifiedName ident) [] (some (.var "Unit"))
          (.var "Unit.unit")] ∧
      ∀ other, e'.isHandled other = true ↔ other = ident ∨ e.isHandled other = true := by
  obtain ⟨h0, h1, -⟩ := spellings_node
  have hlt0 : 0 < id := lt_of_node_constant hnode 0 (by simp)
  have hlt1 : 1 < id := lt_of_node_constant hnode 1 (by simp)
  obtain ⟨t, e', hrun, he'⟩ : ∃ t e', (untreated.termWithDeclarations spellings id).run e =
      .ok (t, e') ∧ e'.declarations.toList = e.declarations.toList ++
        [.definition (untreated.qualifiedName ident) [] (some (.var "Unit"))
          (.var "Unit.unit")] ∧
      ∀ other, e'.isHandled other = true ↔ other = ident ∨ e.isHandled other = true := by
    simp [Config.termWithDeclarations, Config.translateRoot, translateLifted,
      spellings_namedTerms_constant hnode, spellings_namedTerms_unit, translateTerm,
      Scope.ofUnit, translateNode_eq, translateStep, hnode, translateConstant,
      declareConstant, he, untreated_find?, declaration, translateDefinition,
      spellings_piChain, renderBelow_eq, h0, h1, hlt0, hlt1, translateIdent,
      untreated_useSite, translateTerms]
    exact ⟨_, _, rfl, by simp [Emission.push, Emission.handle], isHandled_handle e ident⟩
  refine ⟨t, e', ?_, he'⟩
  rw [Config.perform, Config.translate, Emission.attempt_eq_ok.mpr hrun]
  rfl

theorem performAll_pair {cfg : Config} {e e₁ e₂ : Emission} {call call' : ModuleCall}
    {r r' : Except TranslateError ModuleResult} (h : cfg.perform e call = (r, e₁))
    (h' : cfg.perform e₁ call' = (r', e₂)) :
    cfg.performAll e [call, call'] = ([r, r'], e₂) := by
  rw [performAll_cons h, performAll_cons h']
  rfl

end TermGraph
