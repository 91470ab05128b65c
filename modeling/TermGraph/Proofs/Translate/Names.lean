import Mathlib
import TermGraph.Proofs.Name.Fresh
import TermGraph.Proofs.Target.Template
import TermGraph.Proofs.Term.Reach
import TermGraph.Translate.Node

/-!
# Names that a translation refers to

A node is translated to names that its translation does not bind: those of its
identifiers and free variables, those inside templates, and a fixed list of
heads.  All of them, or at least the parts before their first dots, are either
unavailable to the binders of the unit or no names that a binder could have.
-/

namespace TermGraph

open Target

/-- Whether the macros of a table bind no names. -/
def TreatmentTable.BindsNothing (table : TreatmentTable) : Prop :=
  ∀ ident arity template, table.useSite ident = .expand arity template → template.BindsNothing

namespace Config

/-- The names that term formers and literals are translated to. -/
def fixedNames (cfg : Config) : List String :=
  ["true", "false", "Unit.unit", "Unit", "Prod.mk", "Prod", "Prod.fst", "Prod.snd",
    "RecordTypeCons", "RecordTypeNil", "RecordCons", "RecordNil", "RecordProj", "error",
    "Inhabited", "QuantType", cfg.options.bvLiteralCtor, cfg.options.vectorCtor]

/-- Whether something holds of each name that a reference to an identifier is
translated to. -/
def IdentNames (cfg : Config) (Q : String → Prop) (ident : Ident) : Prop :=
  match cfg.table.useSite ident with
  | .preserve => Q (cfg.qualifiedName ident)
  | .rename module name _ => Q (UseSite.renamed module name)
  | .expand _ template => template.NamesAll Q

/-- Whether something holds of each name that a node is translated to. -/
def NodeNames (cfg : Config) (Q : String → Prop) : Node TermId → Prop
  | .free x _ => Q (sanitize x)
  | .global i | .constant i _ _ | .data i _ _ | .ctor i _ _ => cfg.IdentNames Q i
  | .recursor i _ _ _ _ => ∀ target, counterpart? cfg i = some target → Q (target ++ ".rec")
  | _ => True

theorem IdentNames.imp {cfg : Config} {Q Q' : String → Prop} (h : ∀ x, Q x → Q' x)
    {ident : Ident} (hi : cfg.IdentNames Q ident) : cfg.IdentNames Q' ident := by
  unfold IdentNames at *
  split at hi
  · exact h _ hi
  · exact h _ hi
  · exact hi.imp h

theorem NodeNames.imp {cfg : Config} {Q Q' : String → Prop} (h : ∀ x, Q x → Q' x)
    {n : Node TermId} (hn : cfg.NodeNames Q n) : cfg.NodeNames Q' n := by
  cases n with
  | free x ty => exact h _ hn
  | global i => exact IdentNames.imp h hn
  | constant i ty body => exact IdentNames.imp h hn
  | data i ps xs => exact IdentNames.imp h hn
  | ctor i ps xs => exact IdentNames.imp h hn
  | recursor i ps mo order cs => exact fun target ht => h _ (hn target ht)
  | _ => trivial

/-! ## Names that binders of a unit avoid -/

/-- A name that no binder of a unit has: it is unavailable from the start, or it is
not of the form of such a name. -/
def Avoided (cfg : Config) (e : Emission) (s : Store) (roots : List TermId) (x : String) :
    Prop :=
  x ∈ (Scope.ofUnit cfg e s roots).unavailable ∨ ¬ IsOutputName x

end Config

theorem rootOf_eq_self {x : String} (h : '.' ∉ x.toList) : rootOf x = x := by
  have hall : x.toList.takeWhile (· ≠ '.') = x.toList := by
    rw [List.takeWhile_eq_self_iff]
    intro c hc
    exact decide_eq_true fun hdot => h (hdot ▸ hc)
  rw [rootOf, hall, String.ofList_toList]

theorem rootOf_append_dot (front back : String) :
    rootOf (front ++ ("." ++ back)) = rootOf front := by
  have hdot : ("." ++ back).toList = '.' :: back.toList := by simp
  unfold rootOf
  rw [String.toList_append, hdot, List.takeWhile_append]
  split
  · rename_i hall
    have hall' : front.toList.takeWhile (· ≠ '.') = front.toList :=
      List.IsPrefix.eq_of_length (List.takeWhile_prefix _) hall
    rw [List.takeWhile_cons_of_neg (by simp), List.append_nil, hall']
  · rfl

namespace Config

variable {cfg : Config} {e : Emission} {s : Store} {roots : List TermId}

theorem mem_unavailable {x : String}
    (h : x ∈ cfg.reserved ∨ x ∈ cfg.namesInUse s roots) :
    x ∈ (Scope.ofUnit cfg e s roots).unavailable := by
  rw [Scope.ofUnit, Std.HashSet.mem_insertMany_list]
  right
  rw [List.contains_iff_mem, List.mem_append]
  exact h

theorem avoided_of_dot {x : String} (h : '.' ∈ x.toList) : cfg.Avoided e s roots x :=
  Or.inr fun hx => hx.dot_not_mem h

/-- Names with an avoided root are avoided. -/
theorem avoided_of_root {x : String} (h : cfg.Avoided e s roots (rootOf x)) :
    cfg.Avoided e s roots x := by
  by_cases hdot : '.' ∈ x.toList
  · exact avoided_of_dot hdot
  · rwa [rootOf_eq_self hdot] at h

theorem avoided_of_reserved {x : String} (h : x ∈ cfg.reserved) : cfg.Avoided e s roots x :=
  Or.inl (mem_unavailable (Or.inl h))

theorem avoided_of_namesInUse {id : TermId} {root : TermId} (hroot : root ∈ roots)
    (hid : s.Reaches root id) {x : String} (h : x ∈ cfg.rootsOfNode (s.node id)) :
    cfg.Avoided e s roots x := by
  refine Or.inl (mem_unavailable (Or.inr ?_))
  rw [namesInUse, List.mem_flatMap]
  exact ⟨id, Store.mem_preorder_of_reaches hroot hid, h⟩

/-- A name that term formers and literals are translated to begins with a reserved word or
an emitted head, or the options say what it is. -/
theorem fixedNames_cases {x : String} (h : x ∈ cfg.fixedNames) :
    rootOf x ∈ reservedWords ++ emittedHeads ∨ x = cfg.options.bvLiteralCtor ∨
      x = cfg.options.vectorCtor := by
  have hheads : ∀ x ∈ ["true", "false", "Unit.unit", "Unit", "Prod.mk", "Prod", "Prod.fst",
      "Prod.snd", "RecordTypeCons", "RecordTypeNil", "RecordCons", "RecordNil", "RecordProj",
      "error", "Inhabited", "QuantType"], rootOf x ∈ reservedWords ++ emittedHeads := by
    decide
  have hsplit : cfg.fixedNames = ["true", "false", "Unit.unit", "Unit", "Prod.mk", "Prod",
      "Prod.fst", "Prod.snd", "RecordTypeCons", "RecordTypeNil", "RecordCons", "RecordNil",
      "RecordProj", "error", "Inhabited", "QuantType"] ++
      [cfg.options.bvLiteralCtor, cfg.options.vectorCtor] := rfl
  rw [hsplit, List.mem_append] at h
  exact h.imp (hheads x) fun h => by simpa using h

theorem rootOf_fixedNames {x : String} (h : x ∈ cfg.fixedNames) :
    rootOf x ∈ cfg.reserved := by
  unfold reserved
  rcases fixedNames_cases h with h | rfl | rfl
  · exact List.mem_append_left _ (List.mem_append_left _ (List.mem_append_left _ h))
  · exact List.mem_append_right _ List.mem_cons_self
  · exact List.mem_append_right _ (List.mem_cons_of_mem _ List.mem_cons_self)

end Config

/-! ## Identifiers -/

theorem rootOf_joinDots (c : String) (rest : List String) :
    rootOf (joinDots (c :: rest)) = rootOf c := by
  cases rest with
  | nil => rw [joinDots, String.intercalate_singleton]
  | cons d rest =>
      rw [joinDots, String.intercalate_cons_cons, String.append_assoc, rootOf_append_dot]

theorem rootOf_renamed (module : Option String) (name : String) :
    rootOf (UseSite.renamed module name) = rootOf (module.getD name) := by
  cases module with
  | none => rfl
  | some m =>
      rw [UseSite.renamed, String.append_assoc, rootOf_append_dot]
      rfl

/-- An identifier whose parts are not empty and have no dots, as identifiers that
are read from a text are. -/
structure Ident.WellNamed (ident : Ident) : Prop where
  components : ∀ c ∈ ident.module.components, c ≠ "" ∧ '.' ∉ c.toList
  name : ident.name ≠ "" ∧ '.' ∉ ident.name.toList

/-- The identifier that a node refers to. -/
def Node.ident? {α : Type} : Node α → Option Ident
  | .global i | .constant i _ _ | .data i _ _ | .ctor i _ _ | .recursor i _ _ _ _ => some i
  | _ => none

theorem rootOf_escape {name : String} (h : '.' ∉ name.toList) :
    rootOf (escape name) = escape name := by
  refine rootOf_eq_self ?_
  unfold escape
  split
  · simpa using h
  · exact h

namespace Config

variable {cfg : Config} {e : Emission} {s : Store} {roots : List TermId}

/-- What the table can put in front of arguments is avoided. -/
theorem avoided_of_useSite {ident : Ident} {r : String}
    (hsite : cfg.table.useSite ident ≠ .preserve)
    (hr : r ∈ (cfg.table.useSite ident).roots ident.module) : cfg.Avoided e s roots r := by
  unfold TreatmentTable.useSite at hsite hr
  cases hfind : cfg.table.find? ident with
  | none => simp [hfind] at hsite
  | some treatment =>
      rw [hfind] at hr
      refine avoided_of_reserved ?_
      have hmem : (ident, treatment) ∈ cfg.table.entries.toList :=
        Std.HashMap.mem_toList_iff_getElem?_eq_some.mpr hfind
      have htarget : r ∈ cfg.table.targetRoots := by
        rw [TreatmentTable.targetRoots, List.mem_flatMap]
        exact ⟨(ident, treatment), hmem, hr⟩
      exact List.mem_append_left _ (List.mem_append_right _ htarget)

theorem avoided_blankName : cfg.Avoided e s roots blankName :=
  Or.inr fun h => h.ne_blank rfl

/-- What holds of a preserved identifier and of every name with an avoided root
holds of the names of an identifier. -/
theorem identNames_of_avoided (htable : cfg.table.BindsNothing) {Q : String → Prop}
    {ident : Ident} (hpreserve : Q (cfg.qualifiedName ident))
    (hroot : ∀ x, cfg.Avoided e s roots (rootOf x) → Q x) : cfg.IdentNames Q ident := by
  have hsites : ∀ r, cfg.table.useSite ident ≠ .preserve →
      r ∈ (cfg.table.useSite ident).roots ident.module → cfg.Avoided e s roots r :=
    fun r => avoided_of_useSite
  unfold IdentNames
  cases hsite : cfg.table.useSite ident with
  | preserve => exact hpreserve
  | rename module name explicit =>
      rw [hsite] at hsites
      refine hroot _ ?_
      rw [rootOf_renamed]
      exact hsites _ (by simp) (by simp [UseSite.roots])
  | expand arity template =>
      rw [hsite] at hsites
      have hnames := Template.namesAll_of_roots (htable ident arity template hsite) arity
        (show cfg.Avoided e s roots blankName from avoided_blankName)
        fun r hr => hsites r (by simp) hr
      exact hnames.imp hroot

/-- What holds of preserved identifiers and of every name with an avoided root
holds of the names of a node. -/
theorem nodeNames_of_avoided (htable : cfg.table.BindsNothing) {Q : String → Prop}
    {n : Node TermId} (hn : ∀ x ∈ cfg.rootsOfNode n, cfg.Avoided e s roots x)
    (hpreserve : ∀ ident, n.ident? = some ident → Q (cfg.qualifiedName ident))
    (hroot : ∀ x, cfg.Avoided e s roots (rootOf x) → Q x)
    (hrec : ∀ x, Q x → Q (x ++ ".rec")) : cfg.NodeNames Q n := by
  cases n with
  | free x ty =>
      refine hroot _ ?_
      rw [rootOf_eq_self (isOutputName_sanitize x).dot_not_mem]
      exact hn _ (by simp [rootsOfNode])
  | global i => exact identNames_of_avoided htable (hpreserve i rfl) hroot
  | constant i ty body => exact identNames_of_avoided htable (hpreserve i rfl) hroot
  | data i ps xs => exact identNames_of_avoided htable (hpreserve i rfl) hroot
  | ctor i ps xs => exact identNames_of_avoided htable (hpreserve i rfl) hroot
  | recursor i ps mo order cs =>
      intro target htarget
      have hnames := identNames_of_avoided htable (hpreserve i rfl) hroot
      unfold IdentNames at hnames
      unfold counterpart? at htarget
      cases hsite : cfg.table.useSite i with
      | preserve =>
          rw [hsite] at hnames htarget
          cases htarget
          exact hrec _ hnames
      | rename module name explicit =>
          rw [hsite] at hnames htarget
          cases htarget
          exact hrec _ hnames
      | expand arity template =>
          rw [hsite] at htarget
          cases htarget
  | _ => trivial

/-- A preserved identifier of a term is avoided. -/
theorem avoided_qualifiedName {ident : Ident}
    (h : ∀ x ∈ cfg.rootsOfIdent ident, cfg.Avoided e s roots x) :
    cfg.Avoided e s roots (cfg.qualifiedName ident) := by
  unfold qualifiedName
  unfold rootsOfIdent at h
  split
  · rename_i hmodule
    rw [if_pos hmodule] at h
    exact h _ (by simp)
  · exact avoided_of_dot (by simp [Ident.text])

/-- The part before the first dot of a preserved identifier of a term is avoided. -/
theorem avoided_rootOf_qualifiedName {ident : Ident} (hnamed : ident.WellNamed)
    (h : ∀ x ∈ cfg.rootsOfIdent ident, cfg.Avoided e s roots x) :
    cfg.Avoided e s roots (rootOf (cfg.qualifiedName ident)) := by
  unfold qualifiedName
  unfold rootsOfIdent at h
  split
  · rename_i hmodule
    rw [if_pos hmodule] at h
    rw [rootOf_escape hnamed.name.2]
    exact h _ (by simp)
  · rename_i hmodule
    rw [if_neg hmodule] at h
    rw [Ident.text, String.append_assoc, rootOf_append_dot, ModuleName.text]
    cases hcomponents : ident.module.components with
    | nil =>
        have hempty : rootOf (joinDots []) = "" := by decide
        refine Or.inr fun hout => ?_
        obtain ⟨c, rest, hc, _⟩ := hout.starts
        rw [hempty] at hc
        cases hc
    | cons c rest =>
        rw [rootOf_joinDots, rootOf_eq_self (hnamed.components c (by simp [hcomponents])).2]
        exact h c (by simp [hcomponents])

theorem rootsOfNode_of_ident {n : Node TermId} {ident : Ident} (h : n.ident? = some ident) :
    cfg.rootsOfNode n = cfg.rootsOfIdent ident := by
  cases n <;> cases h <;> rfl

/-- Every name that a node of a unit is translated to is avoided. -/
theorem nodeNames_avoided (htable : cfg.table.BindsNothing) {root id : TermId}
    (hroot : root ∈ roots) (hid : s.Reaches root id) :
    cfg.NodeNames (cfg.Avoided e s roots) (s.node id) := by
  have hroots : ∀ x ∈ cfg.rootsOfNode (s.node id), cfg.Avoided e s roots x :=
    fun x => avoided_of_namesInUse hroot hid
  refine nodeNames_of_avoided htable hroots (fun ident hident => ?_)
    (fun x => avoided_of_root) fun x _ => avoided_of_dot (by simp)
  refine avoided_qualifiedName fun x hx => hroots x ?_
  rwa [rootsOfNode_of_ident hident]

/-- The part before the first dot of every name that a node of a unit is translated
to is avoided, if the identifiers are well-named. -/
theorem nodeNames_avoided_rootOf (htable : cfg.table.BindsNothing) {root id : TermId}
    (hroot : root ∈ roots) (hid : s.Reaches root id)
    (hnamed : ∀ ident, (s.node id).ident? = some ident → ident.WellNamed) :
    cfg.NodeNames (fun x => cfg.Avoided e s roots (rootOf x)) (s.node id) := by
  have hroots : ∀ x ∈ cfg.rootsOfNode (s.node id), cfg.Avoided e s roots x :=
    fun x => avoided_of_namesInUse hroot hid
  refine nodeNames_of_avoided htable hroots (fun ident hident => ?_) (fun x hx => hx)
    fun x hx => ?_
  · refine avoided_rootOf_qualifiedName (hnamed ident hident) fun x hx => hroots x ?_
    rwa [rootsOfNode_of_ident hident]
  · have hrec : x ++ ".rec" = x ++ ("." ++ "rec") := rfl
    rwa [hrec, rootOf_append_dot]

end Config

end TermGraph
