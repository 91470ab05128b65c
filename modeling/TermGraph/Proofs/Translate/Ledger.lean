import Mathlib
import TermGraph.Proofs.Translate.Lexical
import TermGraph.Proofs.Translate.Session
import TermGraph.Proofs.Translate.Visit

/-!
# Declarations come once and in dependency order

A ledger says of each declaration of a module pass what it is for.  Noting that a constant
is dealt with comes before the translation of its body, so for a while the constant looks
declared when it is not.  But its own parts are older, so none of them refers to it, and
neither does anything that is declared for them.  Whatever else a declaration mentions has
been declared by the time the declaration itself is added.
-/

namespace TermGraph

open Target Store

/-- No two constants share an identifier. -/
def Store.DistinctConstants (s : Store) : Prop :=
  ∀ c c' ident ty body ty' body', s.node c = .constant ident ty body →
    s.node c' = .constant ident ty' body' → c = c'

namespace Config

variable (cfg : Config)

/-- What becomes of the definition of an identifier, unless this is left open. -/
def defSite? (ident : Ident) : Option DefSite :=
  match cfg.table.find? ident with
  | some treatment => treatment.defSite
  | none => some .preserve

/-- The name under which the definition of an identifier is emitted. -/
def declaredName? (ident : Ident) : Option String :=
  match cfg.defSite? ident with
  | some .preserve => some (cfg.qualifiedName ident)
  | some (.rename name) => some name
  | _ => none

/-- A module pass has to provide the definition of an identifier that is referred to. -/
def Owes (seeded : List Ident) (ident : Ident) : Prop :=
  ident ∉ seeded ∧ ∃ site, cfg.defSite? ident = some site ∧ site ≠ .skip

end Config

/-! ## Ledgers -/

/-- What a declaration is for: a constant, or a call for a definition. -/
inductive Item where
  | constant (s : Store) (id : TermId) (ident : Ident) (ty : TermId) (body : Option TermId)
  | definition (s : Store) (name : String) (ty body : TermId)

/-- A declaration of a module pass, and what it is for. -/
structure Entry where
  item : Item
  decl : Decl

namespace Entry

/-- The identifier of the constant that a declaration is for. -/
def ident? (entry : Entry) : Option Ident :=
  match entry.item with
  | .constant _ _ ident _ _ => some ident
  | .definition _ _ _ _ => none

/-- The call that a declaration is for, and the declaration. -/
def defined? (entry : Entry) : Option (ModuleCall × Decl) :=
  match entry.item with
  | .constant _ _ _ _ _ => none
  | .definition s name ty body => some (.define s name ty body, entry.decl)

/-- A declaration is that of its constant: the text that replaces it, or what its type and
body are translated to under its name, right after some declarations. -/
def Explained (cfg : Config) (before : List Decl) (entry : Entry) : Prop :=
  match entry.item with
  | .constant s id ident ty body => s.node id = .constant ident ty body ∧
      ((∃ text, cfg.defSite? ident = some (.replace text) ∧ entry.decl = .snippet text) ∨
        ∃ name render e e', cfg.declaredName? ident = some name ∧
          (∀ scope, ∀ c < id, render scope c = cfg.translateNode s scope c) ∧
          (declaration cfg s render name ty body).run e = .ok (entry.decl, e') ∧
          e'.declarations.toList = before)
  | .definition _ _ _ _ => True

/-- A declaration refers to a constant of an identifier.  A text that replaces a definition
refers to nothing that the translator knows of. -/
def Mentions (cfg : Config) (entry : Entry) (ident : Ident) : Prop :=
  match entry.item with
  | .constant s _ own ty body => (cfg.declaredName? own).isSome ∧
      ∃ c ∈ s.declarationParts ty body, s.Mentions c ident
  | .definition s _ ty body => ∃ c ∈ s.definitionParts ty body, s.Mentions c ident

end Entry

/-- The identifiers of the constants that declarations are for. -/
def idents (entries : List Entry) : List Ident :=
  entries.filterMap Entry.ident?

/-- Each declaration is explained, none is made twice or without need, and each stands behind
those that it refers to. -/
structure Ledger (cfg : Config) (seeded : List Ident) (entries : List Entry) : Prop where
  once : (idents entries).Nodup
  owed : ∀ ident ∈ idents entries, cfg.Owes seeded ident
  explained : ∀ k (entry : Entry), entries[k]? = some entry →
    entry.Explained cfg ((entries.take k).map Entry.decl)
  ordered : ∀ k (entry : Entry), entries[k]? = some entry → ∀ ident, entry.Mentions cfg ident →
    cfg.Owes seeded ident → ident ∈ idents (entries.take k)

section Ledger

variable {cfg : Config} {seeded : List Ident} {entries : List Entry} {entry : Entry}

@[simp] theorem idents_append (entries new : List Entry) :
    idents (entries ++ new) = idents entries ++ idents new :=
  List.filterMap_append

theorem ledger_nil (cfg : Config) (seeded : List Ident) : Ledger cfg seeded [] := by
  refine ⟨List.nodup_nil, ?_, ?_, ?_⟩ <;> simp [idents]

/-- Adding a declaration. -/
theorem Ledger.snoc (h : Ledger cfg seeded entries)
    (hident : ∀ ident ∈ idents [entry], ident ∉ idents entries ∧ cfg.Owes seeded ident)
    (hexplained : entry.Explained cfg (entries.map Entry.decl))
    (hordered : ∀ ident, entry.Mentions cfg ident → cfg.Owes seeded ident →
      ident ∈ idents entries) : Ledger cfg seeded (entries ++ [entry]) := by
  -- A position is one of the old ones, and then nothing before it changes, or the new one.
  have hcases {k : Nat} {other : Entry} (hk : (entries ++ [entry])[k]? = some other) :
      (entries[k]? = some other ∧ (entries ++ [entry]).take k = entries.take k) ∨
        (other = entry ∧ (entries ++ [entry]).take k = entries) := by
    rcases Nat.lt_trichotomy k entries.length with hlt | rfl | hgt
    · rw [List.getElem?_append_left hlt] at hk
      exact Or.inl ⟨hk, List.take_append_of_le_length hlt.le⟩
    · right
      simpa [eq_comm] using hk
    · rw [List.getElem?_eq_none (by simp; omega)] at hk
      cases hk
  refine ⟨?_, fun ident hmem => ?_, fun k other hk => ?_, fun k other hk => ?_⟩
  · rw [idents_append]
    refine h.once.append ?_ fun ident hmem hnew => (hident ident hnew).1 hmem
    rw [idents, List.filterMap_cons]
    cases entry.ident? <;> simp
  · rw [idents_append] at hmem
    exact (List.mem_append.mp hmem).elim (h.owed ident) fun hnew => (hident ident hnew).2
  · rcases hcases hk with ⟨hold, htake⟩ | ⟨rfl, htake⟩ <;> rw [htake]
    · exact h.explained k other hold
    · exact hexplained
  · rcases hcases hk with ⟨hold, htake⟩ | ⟨rfl, htake⟩ <;> rw [htake]
    · exact h.ordered k other hold
    · exact hordered

end Ledger

/-! ## Keeping the books -/

/-- A ledger for what has been emitted so far.  What has been dealt with was there before the
pass, is not to be defined, is in the ledger, or is still pending. -/
structure Books (cfg : Config) (seeded : List Ident) (pending : Ident → Prop)
    (entries : List Entry) (e : Emission) : Prop where
  ledger : Ledger cfg seeded entries
  declarations : e.declarations.toList = entries.map Entry.decl
  known : ∀ ident ∈ seeded, e.isHandled ident = true
  handled : ∀ ident ∈ idents entries, e.isHandled ident = true
  accounted : ∀ ident, e.isHandled ident = true → ident ∈ seeded ∨
    cfg.defSite? ident = some .skip ∨ ident ∈ idents entries ∨ pending ident

/-- A constant that no node below a limit is. -/
def Pending (s : Store) (limit : TermId) (ident : Ident) : Prop :=
  ∀ c ty body, s.node c = .constant ident ty body → limit ≤ c

/-- Declarations of constants that were not dealt with before. -/
structure Grown (cfg : Config) (seeded : List Ident) (entries new : List Entry)
    (e e' : Emission) : Prop where
  keeps : ∀ ident, e.isHandled ident = true → e'.isHandled ident = true
  ledger : Ledger cfg seeded (entries ++ new)
  declarations : e'.declarations.toList = (entries ++ new).map Entry.decl
  fresh : ∀ ident ∈ idents new, ¬e.isHandled ident = true
  handled : ∀ ident ∈ idents new, e'.isHandled ident = true
  only : ∀ ident, e'.isHandled ident = true →
    e.isHandled ident = true ∨ cfg.defSite? ident = some .skip ∨ ident ∈ idents new
  constants : new.filterMap Entry.defined? = []

section Books

variable {cfg : Config} {seeded : List Ident} {pending : Ident → Prop}
  {entries new new' : List Entry} {e e' e'' : Emission}

theorem Books.mono {pending' : Ident → Prop} (h : Books cfg seeded pending entries e)
    (hpending : ∀ ident, pending ident → pending' ident) :
    Books cfg seeded pending' entries e :=
  { h with accounted := fun ident hident => (h.accounted ident hident).imp_right fun h =>
      h.imp_right fun h => h.imp_right (hpending ident) }

/-- What has been dealt with and has to be provided is in the ledger or pending. -/
theorem Books.mem_or_pending (h : Books cfg seeded pending entries e) {ident : Ident}
    (hhandled : e.isHandled ident = true) (howes : cfg.Owes seeded ident) :
    ident ∈ idents entries ∨ pending ident := by
  obtain ⟨hseeded, site, hsite, hskip⟩ := howes
  rcases h.accounted ident hhandled with hs | hs | hmem
  · exact absurd hs hseeded
  · rw [hsite] at hs
    exact absurd (Option.some.inj hs) hskip
  · exact hmem

/-- Nothing new is pending after constants have been declared. -/
theorem Books.grown (h : Books cfg seeded pending entries e)
    (hnew : Grown cfg seeded entries new e e') :
    Books cfg seeded pending (entries ++ new) e' where
  ledger := hnew.ledger
  declarations := hnew.declarations
  known := fun ident hident => hnew.keeps ident (h.known ident hident)
  handled := by
    intro ident hident
    rw [idents_append] at hident
    exact (List.mem_append.mp hident).elim
      (fun hold => hnew.keeps ident (h.handled ident hold)) (hnew.handled ident)
  accounted := by
    intro ident hident
    rw [idents_append, List.mem_append]
    rcases hnew.only ident hident with hold | hskip | hmem
    · rcases h.accounted ident hold with hs | hskip | hmem | hp
      · exact Or.inl hs
      · exact Or.inr (Or.inl hskip)
      · exact Or.inr (Or.inr (Or.inl (Or.inl hmem)))
      · exact Or.inr (Or.inr (Or.inr hp))
    · exact Or.inr (Or.inl hskip)
    · exact Or.inr (Or.inr (Or.inl (Or.inr hmem)))

theorem Books.grown_nil (h : Books cfg seeded pending entries e) :
    Grown cfg seeded entries [] e e where
  keeps := fun _ h => h
  ledger := by simpa using h.ledger
  declarations := by simpa using h.declarations
  fresh := by simp [idents]
  handled := by simp [idents]
  only := fun _ h => Or.inl h
  constants := rfl

/-- Noting a constant that is not to be defined. -/
theorem Books.grown_skip (h : Books cfg seeded pending entries e) {ident : Ident}
    (hskip : cfg.defSite? ident = some .skip) :
    Grown cfg seeded entries [] e (e.handle ident) where
  keeps := fun other hother => (isHandled_handle e ident other).mpr (Or.inr hother)
  ledger := by simpa using h.ledger
  declarations := h.declarations.trans (by rw [List.append_nil])
  fresh := by simp [idents]
  handled := by simp [idents]
  only := by
    intro other hother
    rcases (isHandled_handle e ident other).mp hother with rfl | hold
    · exact Or.inr (Or.inl hskip)
    · exact Or.inl hold
  constants := rfl

theorem Grown.trans (h : Grown cfg seeded entries new e e')
    (h' : Grown cfg seeded (entries ++ new) new' e' e'') :
    Grown cfg seeded entries (new ++ new') e e'' where
  keeps := fun ident hident => h'.keeps ident (h.keeps ident hident)
  ledger := by simpa using h'.ledger
  declarations := by simpa using h'.declarations
  fresh := by
    intro ident hident
    rw [idents_append] at hident
    rcases List.mem_append.mp hident with hmem | hmem
    · exact h.fresh ident hmem
    · exact fun hold => h'.fresh ident hmem (h.keeps ident hold)
  handled := by
    intro ident hident
    rw [idents_append] at hident
    exact (List.mem_append.mp hident).elim
      (fun hmem => h'.keeps ident (h.handled ident hmem)) (h'.handled ident)
  only := by
    intro ident hident
    rw [idents_append, List.mem_append]
    rcases h'.only ident hident with hmid | hskip | hmem
    · rcases h.only ident hmid with hold | hskip | hmem
      · exact Or.inl hold
      · exact Or.inr (Or.inl hskip)
      · exact Or.inr (Or.inr (Or.inl hmem))
    · exact Or.inr (Or.inl hskip)
    · exact Or.inr (Or.inr (Or.inr hmem))
  constants := by simp [h.constants, h'.constants]

/-- Adding the declaration of a constant that was noted before its body was translated. -/
theorem Grown.push {s : Store} {id ty : TermId} {body : Option TermId} {ident : Ident}
    {site : DefSite} {d : Decl} (hbooks : Books cfg seeded pending entries e)
    (hnot : ¬e.isHandled ident = true) (hsite : cfg.defSite? ident = some site)
    (hskip : site ≠ .skip) (h : Grown cfg seeded entries new (e.handle ident) e')
    (hexplained : Entry.Explained cfg e'.declarations.toList ⟨.constant s id ident ty body, d⟩)
    (hordered : ∀ other, Entry.Mentions cfg ⟨.constant s id ident ty body, d⟩ other →
      cfg.Owes seeded other → other ∈ idents (entries ++ new)) :
    Grown cfg seeded entries (new ++ [⟨.constant s id ident ty body, d⟩]) e (e'.push d) where
  keeps := fun other hother =>
    h.keeps other ((isHandled_handle e ident other).mpr (Or.inr hother))
  ledger := by
    rw [← List.append_assoc]
    refine h.ledger.snoc ?_ (h.declarations ▸ hexplained) hordered
    intro other hother
    obtain rfl : other = ident := by simpa [idents, Entry.ident?] using hother
    have hseeded : other ∉ seeded := fun hmem => hnot (hbooks.known other hmem)
    refine ⟨?_, hseeded, site, hsite, hskip⟩
    -- The identifier was noted before the parts were translated, so they have not declared it.
    rw [idents_append, List.mem_append, not_or]
    refine ⟨fun hold => hnot (hbooks.handled other hold), fun hnew => h.fresh other hnew ?_⟩
    exact (isHandled_handle e other other).mpr (Or.inl rfl)
  declarations := by simp [Emission.push, h.declarations]
  fresh := by
    intro other hother
    rw [idents_append, List.mem_append] at hother
    rcases hother with hother | hother
    · exact fun hold => h.fresh other hother ((isHandled_handle e ident other).mpr (Or.inr hold))
    · obtain rfl : other = ident := by simpa [idents, Entry.ident?] using hother
      exact hnot
  handled := by
    intro other hother
    rw [idents_append, List.mem_append] at hother
    rcases hother with hother | hother
    · exact h.handled other hother
    · obtain rfl : other = ident := by simpa [idents, Entry.ident?] using hother
      exact h.keeps other ((isHandled_handle e other other).mpr (Or.inl rfl))
  only := by
    intro other hother
    rw [idents_append, List.mem_append]
    rcases h.only other hother with hmid | hskip | hnew
    · rcases (isHandled_handle e ident other).mp hmid with rfl | hold
      · exact Or.inr (Or.inr (Or.inr (by simp [idents, Entry.ident?])))
      · exact Or.inl hold
    · exact Or.inr (Or.inl hskip)
    · exact Or.inr (Or.inr (Or.inl hnew))
  constants := by simp [h.constants, Entry.defined?]

end Books

/-! ## One call -/

section Calls

variable {cfg : Config} {seeded : List Ident} {s : Store} {F : Ident → Prop}

/-- A run inside nodes that are older than a limit. -/
structure Continues (cfg : Config) (seeded : List Ident) (s : Store) (limit : TermId)
    (e e' : Emission) : Prop where
  keeps : ∀ ident, e.isHandled ident = true → e'.isHandled ident = true
  grows : ∀ entries, Books cfg seeded (Pending s limit) entries e →
    ∃ new, Grown cfg seeded entries new e e'

theorem accumulates_continues (limit : TermId) :
    Accumulates (Continues cfg seeded s limit) where
  refl := fun _ => ⟨fun _ h => h, fun _ h => ⟨[], h.grown_nil⟩⟩
  trans := by
    intro a b c hab hbc
    refine ⟨fun ident h => hbc.keeps ident (hab.keeps ident h), fun entries hbooks => ?_⟩
    obtain ⟨new, hnew⟩ := hab.grows entries hbooks
    obtain ⟨new', hnew'⟩ := hbc.grows _ (hbooks.grown hnew)
    exact ⟨new ++ new', hnew.trans hnew'⟩
  keeps := fun h => h.keeps _

theorem Continues.mono {limit limit' : TermId} {e e' : Emission}
    (h : Continues cfg seeded s limit e e') (hle : limit ≤ limit') :
    Continues cfg seeded s limit' e e' where
  keeps := h.keeps
  grows := fun entries hbooks => h.grows entries <| hbooks.mono
    fun _ hpending c ty body hnode => hle.trans (hpending c ty body hnode)

/-- What is emitted for a constant. -/
def provide (cfg : Config) (s : Store) (render : Render) (ident : Ident) (ty : TermId)
    (body : Option TermId) : DefSite → Emit Unit
  | .skip => return
  | .replace text => modify (Emission.push (.snippet text))
  | .preserve => do
      let d ← declaration cfg s render (cfg.qualifiedName ident) ty body
      modify (Emission.push d)
  | .rename name => do
      let d ← declaration cfg s render name ty body
      modify (Emission.push d)

/-- The definition of an identifier is noted and provided, unless that has been done or it
is left open what becomes of it. -/
theorem declareConstant_eq (cfg : Config) (s : Store) (render : Render) (ident : Ident)
    (ty : TermId) (body : Option TermId) :
    declareConstant cfg s render ident ty body = (do
      if (← get).isHandled ident then return
      match cfg.defSite? ident with
      | some site => do
          modify (Emission.handle ident)
          provide cfg s render ident ty body site
      | none => throw (.unspecifiedTreatment ident)) := by
  unfold declareConstant Config.defSite?
  refine bind_congr fun e => ?_
  split
  · rfl
  · cases cfg.table.find? ident with
    | none => rfl
    | some treatment =>
        obtain ⟨site, useSite⟩ := treatment
        rcases site with _ | ⟨_ | _ | _ | _⟩ <;> rfl

/-- A constant that is not dealt with yet is noted, and then what is asked for is emitted. -/
theorem run_declareConstant {render : Render} {ident : Ident} {ty : TermId}
    {body : Option TermId} {e e' : Emission} {u : Unit}
    (hrun : (declareConstant cfg s render ident ty body).run e = .ok (u, e'))
    (hnot : ¬e.isHandled ident = true) :
    ∃ site, cfg.defSite? ident = some site ∧
      (provide cfg s render ident ty body site).run (e.handle ident) = .ok (u, e') := by
  unfold declareConstant at hrun
  obtain ⟨_, _, hget, hrun⟩ := run_bind_eq_ok.mp hrun
  cases hget
  rw [if_neg hnot] at hrun
  unfold Config.defSite?
  split at hrun
  · rename_i hfind
    rw [hfind]
    obtain ⟨_, _, hmodify, hrun⟩ := run_bind_eq_ok.mp hrun
    cases hmodify
    exact ⟨.preserve, rfl, hrun⟩
  · rename_i site useSite hfind
    rw [hfind]
    obtain ⟨_, _, hmodify, hrun⟩ := run_bind_eq_ok.mp hrun
    cases hmodify
    exact ⟨site, rfl, by cases site <;> exact hrun⟩
  · cases hrun

theorem declareConstant_of_handled {render : Render} {ident : Ident} {ty : TermId}
    {body : Option TermId} {e e' : Emission} {u : Unit}
    (hrun : (declareConstant cfg s render ident ty body).run e = .ok (u, e'))
    (hhandled : e.isHandled ident = true) : e' = e := by
  unfold declareConstant at hrun
  obtain ⟨_, _, hget, hrun⟩ := run_bind_eq_ok.mp hrun
  cases hget
  rw [if_pos hhandled] at hrun
  cases hrun
  rfl

section Declare

variable {id : TermId} {ident : Ident} {ty : TermId} {body : Option TermId} {e : Emission}
  (hdistinct : s.DistinctConstants) (hnode : s.node id = .constant ident ty body)

include hdistinct hnode in
/-- The constant that is noted is not below itself. -/
theorem Books.handle {entries : List Entry}
    (h : Books cfg seeded (Pending s (id + 1)) entries e) :
    Books cfg seeded (Pending s id) entries (e.handle ident) where
  ledger := h.ledger
  declarations := h.declarations
  known := fun other hother => (isHandled_handle e ident other).mpr (Or.inr (h.known other hother))
  handled := fun other hother =>
    (isHandled_handle e ident other).mpr (Or.inr (h.handled other hother))
  accounted := by
    intro other hother
    rcases (isHandled_handle e ident other).mp hother with rfl | hother
    · -- Only the constant itself has its identifier, and it is not older than itself.
      refine Or.inr (Or.inr (Or.inr fun c ty' body' hnode' => le_of_eq ?_))
      exact hdistinct id c other ty body ty' body' hnode hnode'
    · refine (h.mono fun x hpending c ty' body' hnode' => ?_).accounted other hother
      exact (Nat.le_succ id).trans (hpending c ty' body' hnode')

variable (hvisits : ∀ F scope, ∀ c < id,
  Visits (Continues cfg seeded s (c + 1)) F (cfg.translateNode s scope c) fun _ =>
    Supplied s F scope c → s.Covered F c)
  {render : Render} (hsame : ∀ scope, ∀ c < id, render scope c = cfg.translateNode s scope c)

include hdistinct hnode hvisits hsame in
/-- The declaration of a constant stands behind all that it refers to: what it mentions is
older than the constant, so nothing of it can still be pending. -/
theorem continues_declaration {name : String} {d : Decl} {e₁ : Emission}
    (hname : cfg.declaredName? ident = some name) (hnot : ¬e.isHandled ident = true)
    (hrun : (declaration cfg s render name ty body).run (e.handle ident) = .ok (d, e₁)) :
    Continues cfg seeded s (id + 1) e (e₁.push d) ∧ (e₁.push d).isHandled ident = true := by
  have hparts := lt_of_node_constant hnode
  -- What is dealt with is taken at the end of the translation of the parts.
  have hrender : ∀ scope, ∀ c < id, Visits (Continues cfg seeded s id)
      (fun other => e₁.isHandled other = true) (render scope c) fun _ =>
        Supplied s (fun other => e₁.isHandled other = true) scope c →
          s.Covered (fun other => e₁.isHandled other = true) c := by
    intro scope c hc
    rw [hsame scope c hc]
    exact (hvisits _ scope c hc).relax fun _ _ h => h.mono hc
  obtain ⟨hcontinues, hcovered⟩ :=
    visits_declaration (accumulates_continues id) hrender name hparts _ _ _ hrun
  have hcovered := hcovered fun _ h => h
  have hself : e₁.isHandled ident = true :=
    hcontinues.keeps ident ((isHandled_handle e ident ident).mpr (Or.inl rfl))
  refine ⟨⟨fun other hother => hcontinues.keeps other ?_, fun entries hbooks => ?_⟩, hself⟩
  · exact (isHandled_handle e ident other).mpr (Or.inr hother)
  have hnoted := hbooks.handle hdistinct hnode
  obtain ⟨new, hnew⟩ := hcontinues.grows entries hnoted
  obtain ⟨site, hsite, hskip⟩ : ∃ site, cfg.defSite? ident = some site ∧ site ≠ .skip := by
    unfold Config.declaredName? at hname
    split at hname <;> simp_all
  refine ⟨new ++ [⟨.constant s id ident ty body, d⟩],
    hnew.push hbooks hnot hsite hskip ?_ ?_⟩
  · exact ⟨hnode, Or.inr ⟨name, render, _, e₁, hname, hsame, hrun, rfl⟩⟩
  · rintro other ⟨-, c, hc, hmentions⟩ howes
    rcases (hnoted.grown hnew).mem_or_pending (hcovered c hc other hmentions) howes with h | h
    · exact h
    · -- A pending constant is not older than this one, but what it mentions is.
      obtain ⟨b, ty', body', hshows, hnode'⟩ := hmentions
      have hlt : c < id := lt_of_mem_declarationParts hparts hc
      have hle := (h b ty' body' hnode').trans hshows.reaches.le
      exact absurd hlt (Nat.not_lt.mpr hle)

include hdistinct hnode hvisits hsame in
/-- Dealing with a constant keeps the books, and the constant is dealt with afterwards. -/
theorem visits_declareConstant : Visits (Continues cfg seeded s (id + 1)) F
    (declareConstant cfg s render ident ty body) fun _ => F ident := by
  intro e u e' hrun
  by_cases hhandled : e.isHandled ident = true
  · obtain rfl := declareConstant_of_handled hrun hhandled
    exact ⟨(accumulates_continues (id + 1)).refl e', fun hF => hF ident hhandled⟩
  obtain ⟨site, hsite, hrun⟩ := run_declareConstant hrun hhandled
  have hnoted : (e.handle ident).isHandled ident = true :=
    (isHandled_handle e ident ident).mpr (Or.inl rfl)
  have hkeeps : ∀ other, e.isHandled other = true → (e.handle ident).isHandled other = true :=
    fun other hother => (isHandled_handle e ident other).mpr (Or.inr hother)
  suffices h : Continues cfg seeded s (id + 1) e e' ∧ e'.isHandled ident = true from
    ⟨h.1, fun hF => hF ident h.2⟩
  have hdeclared {name : String} (hname : cfg.declaredName? ident = some name)
      (hrun : (do
        let d ← declaration cfg s render name ty body
        modify (Emission.push d)).run (e.handle ident) = .ok (u, e')) :
      Continues cfg seeded s (id + 1) e e' ∧ e'.isHandled ident = true := by
    obtain ⟨d, e₁, hd, hpush⟩ := run_bind_eq_ok.mp hrun
    cases hpush
    exact continues_declaration hdistinct hnode hvisits hsame hname hhandled hd
  cases site with
  | preserve => exact hdeclared (by simp [Config.declaredName?, hsite]) hrun
  | rename name => exact hdeclared (by simp [Config.declaredName?, hsite]) hrun
  | skip =>
      cases hrun
      exact ⟨⟨hkeeps, fun entries hbooks => ⟨[], hbooks.grown_skip hsite⟩⟩, hnoted⟩
  | replace text =>
      -- The text mentions nothing, so it may stand right behind what has been emitted.
      cases hrun
      refine ⟨⟨hkeeps, fun entries hbooks => ?_⟩, hnoted⟩
      have hstart := (hbooks.handle hdistinct hnode).grown_nil
      refine ⟨[⟨.constant s id ident ty body, .snippet text⟩],
        hstart.push hbooks hhandled hsite (by simp) ?_ ?_⟩
      · exact ⟨hnode, Or.inl ⟨text, hsite, rfl⟩⟩
      · rintro other ⟨hname, -⟩
        simp [Config.declaredName?, hsite] at hname

end Declare

/-- Translating a node keeps the books, and meets all that its target tree refers to. -/
theorem visits_translateNode (hdistinct : s.DistinctConstants) (id : TermId) :
    ∀ (F : Ident → Prop) (scope : Scope), Visits (Continues cfg seeded s (id + 1)) F
      (cfg.translateNode s scope id) fun _ => Supplied s F scope id → s.Covered F id := by
  -- The set is not fixed: the declaration of a constant takes what is dealt with by its own end.
  induction id using Nat.strong_induction_on with
  | _ id ih =>
      intro F scope
      rw [translateNode_eq]
      refine visits_step (accumulates_continues (id + 1)) ?_ scope (Eq.refl id) ?_
      · intro scope c hc
        rw [renderBelow_eq hc]
        exact (ih c hc F scope).relax fun _ _ h => h.mono (Nat.succ_le_succ hc.le)
      · intro c ident ty body hnode hle
        have hdeclare := visits_declareConstant (F := F) hdistinct hnode
          (fun F scope b hb => ih b (lt_of_lt_of_le hb hle) F scope)
          (fun scope b hb => renderBelow_eq (lt_of_lt_of_le hb hle) scope)
        exact hdeclare.relax fun _ _ h => h.mono (Nat.succ_le_succ hle)

/-- The nodes below a limit. -/
theorem visits_below (hdistinct : s.DistinctConstants) (limit : TermId) (scope : Scope) :
    ∀ c < limit, Visits (Continues cfg seeded s limit) F (cfg.translateNode s scope c) fun _ =>
      Supplied s F scope c → s.Covered F c :=
  fun c hc => (visits_translateNode hdistinct c F scope).relax fun _ _ h => h.mono hc

/-! ## Calls -/

/-- Between calls nothing is pending. -/
def Settled (cfg : Config) (seeded : List Ident) (entries : List Entry) (e : Emission) : Prop :=
  Books cfg seeded (fun _ => False) entries e

theorem settled_startingWith (cfg : Config) (seeded : List Ident) :
    Settled cfg seeded [] (.startingWith seeded) where
  ledger := ledger_nil cfg seeded
  declarations := rfl
  known := by simp [Emission.startingWith, Emission.isHandled]
  handled := by simp [idents]
  accounted := by
    intro ident hident
    exact Or.inl (by simpa [Emission.startingWith, Emission.isHandled] using hident)

variable {entries : List Entry} {e e' : Emission}

theorem Settled.mem (h : Settled cfg seeded entries e) {ident : Ident}
    (hhandled : e.isHandled ident = true) (howes : cfg.Owes seeded ident) :
    ident ∈ idents entries :=
  (h.mem_or_pending hhandled howes).resolve_right id

/-- A run of a whole unit keeps the books settled. -/
theorem Settled.grows {limit : TermId} (h : Settled cfg seeded entries e)
    (hcontinues : Continues cfg seeded s limit e e') :
    ∃ new, Settled cfg seeded (entries ++ new) e' ∧ new.filterMap Entry.defined? = [] := by
  obtain ⟨new, hnew⟩ := hcontinues.grows entries (h.mono fun _ hfalse => hfalse.elim)
  exact ⟨new, Books.grown h hnew, hnew.constants⟩

/-- A term that is translated leaves the constants that it mentions in the ledger. -/
theorem settled_translate (hdistinct : s.DistinctConstants)
    (h : Settled cfg seeded entries e) {root : TermId} {t : TranslatedTerm}
    (hrun : cfg.translate s root e = (.ok t, e')) :
    ∃ new, Settled cfg seeded (entries ++ new) e' ∧ new.filterMap Entry.defined? = [] ∧
      ∀ ident, s.Mentions root ident → cfg.Owes seeded ident →
        ident ∈ idents (entries ++ new) := by
  obtain ⟨hroot, -⟩ := run_of_translate_eq_ok hrun
  obtain ⟨hcontinues, hcovered⟩ := visits_lifted (F := fun ident => e'.isHandled ident = true)
    (accumulates_continues (root + 1)) (visits_below hdistinct (root + 1))
    (Scope.ofUnit cfg e s [root]) (Nat.lt_succ_self root) e t.term e' hroot
  obtain ⟨new, hsettled, hnone⟩ := h.grows hcontinues
  refine ⟨new, hsettled, hnone, fun ident hmentions howes => ?_⟩
  -- No subterm has a name yet where the unit starts.
  have hscope : ∀ k, k ∉ (Scope.ofUnit cfg e s [root]).shared :=
    fun k => Std.HashMap.not_mem_empty
  exact hsettled.mem (hcovered (fun _ hother => hother) hscope ident hmentions) howes

/-- A definition that is translated stands behind the constants that it mentions. -/
theorem settled_define (hdistinct : s.DistinctConstants)
    (h : Settled cfg seeded entries e) {name : String} {ty body : TermId} {d : Decl}
    (hrun : cfg.define s name ty body e = (.ok d, e')) :
    ∃ new, Settled cfg seeded (entries ++ new) e' ∧
      new.filterMap Entry.defined? = [(.define s name ty body, d)] := by
  obtain ⟨e₁, hd, rfl⟩ := run_of_define_eq_ok hrun
  have hty : ty < max ty body + 1 := Nat.lt_succ_of_le (le_max_left ty body)
  have hbody : body < max ty body + 1 := Nat.lt_succ_of_le (le_max_right ty body)
  obtain ⟨hcontinues, hcovered⟩ := visits_definition (F := fun ident => e₁.isHandled ident = true)
    (accumulates_continues (max ty body + 1)) (visits_below hdistinct (max ty body + 1))
    (Scope.ofUnit cfg e s [ty, body]) (escape name) hty hbody e d e₁ hd
  obtain ⟨new, hsettled, hnone⟩ := h.grows hcontinues
  have hscope : ∀ k, k ∉ (Scope.ofUnit cfg e s [ty, body]).shared :=
    fun k => Std.HashMap.not_mem_empty
  have hcovered := hcovered (fun _ hother => hother) hscope
  refine ⟨new ++ [⟨.definition s name ty body, d⟩], ?_, by simp [hnone, Entry.defined?]⟩
  rw [← List.append_assoc]
  -- A definition is for no constant.
  have hsame : idents ((entries ++ new) ++ [⟨.definition s name ty body, d⟩]) =
      idents (entries ++ new) := by simp [idents, Entry.ident?]
  refine { hsettled with ledger := ?_, declarations := ?_, handled := ?_, accounted := ?_ }
  · refine hsettled.ledger.snoc (by simp [idents, Entry.ident?]) trivial ?_
    rintro ident ⟨c, hc, hmentions⟩ howes
    exact hsettled.mem (hcovered c hc ident hmentions) howes
  · simp [Emission.push, hsettled.declarations]
  · rw [hsame]
    exact hsettled.handled
  · rw [hsame]
    exact hsettled.accounted

end Calls

/-! ## Passes -/

namespace ModuleCall

/-- The store of a call. -/
def store : ModuleCall → Store
  | .translate s _ => s
  | .define s _ _ _ => s

/-- A call for a definition that does not fail, and the definition. -/
def defined? : ModuleCall × Except TranslateError ModuleResult → Option (ModuleCall × Decl)
  | (call, .ok (.definition d)) => some (call, d)
  | _ => none

end ModuleCall

section Passes

variable {cfg : Config} {seeded : List Ident} {entries : List Entry}

/-- What the results of some calls and a ledger have to do with each other: the calls for
definitions that do not fail have an entry each, and so do the constants that translated
terms mention. -/
structure Reports (cfg : Config) (seeded : List Ident)
    (outcomes : List (ModuleCall × Except TranslateError ModuleResult))
    (before new : List Entry) : Prop where
  definitions : new.filterMap Entry.defined? = outcomes.filterMap ModuleCall.defined?
  terms : ∀ s root t, (.translate s root, .ok (.term t)) ∈ outcomes →
    ∀ ident, s.Mentions root ident → cfg.Owes seeded ident → ident ∈ idents (before ++ new)

/-- One call of a module pass. -/
theorem settled_perform {call : ModuleCall} (hdistinct : call.store.DistinctConstants)
    {e e' : Emission} (h : Settled cfg seeded entries e)
    {r : Except TranslateError ModuleResult} (hrun : cfg.perform e call = (r, e')) :
    ∃ new, Settled cfg seeded (entries ++ new) e' ∧
      Reports cfg seeded [(call, r)] entries new := by
  rcases r with err | r
  · obtain rfl := perform_error hrun
    exact ⟨[], by simpa using h, rfl, by simp⟩
  cases call with
  | translate s root =>
      obtain ⟨t, hcall, rfl⟩ := perform_translate_eq_ok hrun
      obtain ⟨new, hsettled, hnone, hmentions⟩ := settled_translate hdistinct h hcall
      refine ⟨new, hsettled, hnone, fun s' root' t' hmem => ?_⟩
      simp only [List.mem_singleton, Prod.mk.injEq, ModuleCall.translate.injEq] at hmem
      obtain ⟨⟨rfl, rfl⟩, -⟩ := hmem
      exact hmentions
  | define s name ty body =>
      obtain ⟨d, hcall, rfl⟩ := perform_define_eq_ok hrun
      obtain ⟨new, hsettled, hdefined⟩ := settled_define hdistinct h hcall
      exact ⟨new, hsettled, hdefined, by simp⟩

theorem settled_performAll (calls : List ModuleCall)
    (hdistinct : ∀ call ∈ calls, call.store.DistinctConstants) {e : Emission}
    (h : Settled cfg seeded entries e) :
    ∃ new, Settled cfg seeded (entries ++ new) (cfg.performAll e calls).2 ∧
      Reports cfg seeded (calls.zip (cfg.performAll e calls).1) entries new := by
  induction calls generalizing e entries with
  | nil => exact ⟨[], by simpa [Config.performAll] using h, rfl, by simp⟩
  | cons call calls ih =>
      obtain ⟨hcall, hcalls⟩ := List.forall_mem_cons.mp hdistinct
      rcases hrun : cfg.perform e call with ⟨r, e₁⟩
      obtain ⟨new, hsettled, hreports⟩ := settled_perform hcall h hrun
      obtain ⟨new', hsettled', hreports'⟩ := ih hcalls hsettled
      rw [performAll_cons hrun, List.zip_cons_cons]
      refine ⟨new ++ new', by simpa using hsettled', ?_, fun s root t hmem ident hm howes => ?_⟩
      · rw [List.filterMap_append, hreports.definitions, hreports'.definitions,
          ← List.filterMap_append, List.singleton_append]
      · rw [← List.append_assoc, idents_append, List.mem_append]
        rcases List.mem_cons.mp hmem with heq | hmem
        · exact Or.inl (hreports.terms s root t (by simp [heq]) ident hm howes)
        · have hin := hreports'.terms s root t hmem ident hm howes
          rwa [idents_append, List.mem_append] at hin

end Passes

/-- A pair of two constants, where the first one is defined to be the second one. -/
def chained : Store :=
  ofNodes [.unitType, .constant ⟨⟨["M"]⟩, "b"⟩ 0 none, .constant ⟨⟨["M"]⟩, "a"⟩ 0 (some 1),
    .pair 2 1]

theorem chained_distinct : chained.DistinctConstants := by
  have hconstant : ∀ c ident ty body, chained.node c = .constant ident ty body →
      c = 1 ∧ ident.name = "b" ∨ c = 2 ∧ ident.name = "a" := by
    intro c ident ty body hnode
    match c, hnode with
    | 0, hnode | 3, hnode => cases hnode
    | 1, hnode | 2, hnode =>
        cases hnode
        simp
    | c + 4, hnode => cases hnode
  intro c c' ident ty body ty' body' hnode hnode'
  rcases hconstant c ident ty body hnode with ⟨rfl, hname⟩ | ⟨rfl, hname⟩ <;>
    rcases hconstant c' ident ty' body' hnode' with ⟨rfl, hname'⟩ | ⟨rfl, hname'⟩ <;>
      simp_all

end TermGraph
