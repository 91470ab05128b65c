import TermGraph.Toml.Decode
import TermGraph.Toml.Parse
import TermGraph.Translate.ConfigError
import TermGraph.Translate.Prelude

/-!
# Configured treatments

Treatments that only need names can be configured: by module, then by name, an
entry says what becomes of the uses and of the definition of an identifier.
Entries are kept in the order of the document and enter a table in that order;
an entry that is refused ends this, and those before it stay in the table.
-/

namespace TermGraph

/-- What is configured for uses. -/
inductive UseKind where
  | preserve | rename
  deriving DecidableEq, Repr

/-- What is configured for a definition. -/
inductive DefKind where
  | preserve | rename | replace | skip
  deriving DecidableEq, Repr

namespace UseKind

/-- The name of a kind in a document. -/
def name : UseKind → String
  | preserve => "preserve"
  | rename => "rename"

/-- The kind of a name. -/
def ofName? (s : String) : Option UseKind :=
  [preserve, rename].find? fun k => k.name = s

end UseKind

namespace DefKind

/-- The name of a kind in a document. -/
def name : DefKind → String
  | preserve => "preserve"
  | rename => "rename"
  | replace => "replace"
  | skip => "skip"

/-- The kind of a name. -/
def ofName? (s : String) : Option DefKind :=
  [preserve, rename, replace, skip].find? fun k => k.name = s

end DefKind

/-- One configured treatment. -/
structure TreatmentEntry where
  use : UseKind
  definition : DefKind
  /-- The new name of a renamed use or definition. -/
  name : Option String
  /-- The target module of a renamed use. -/
  module : Option String
  explicit : Bool
  /-- The text of a replaced definition. -/
  snippet : Option String
  deriving DecidableEq, Repr

namespace TreatmentEntry

/-- The entry that sets nothing. -/
def default : TreatmentEntry :=
  ⟨.preserve, .preserve, none, none, false, none⟩

instance : Inhabited TreatmentEntry :=
  ⟨default⟩

/-- The treatment of uses. -/
def useSite (e : TreatmentEntry) : Except MissingSetting UseSite :=
  match e.use, e.name with
  | .preserve, _ => .ok .preserve
  | .rename, some name => .ok (.rename e.module name e.explicit)
  | .rename, none => .error .nameOfUse

/-- The treatment of the definition. -/
def defSite (e : TreatmentEntry) : Except MissingSetting DefSite :=
  match e.definition with
  | .preserve => .ok .preserve
  | .skip => .ok .skip
  | .rename =>
      match e.name with
      | some name => .ok (.rename name)
      | none => .error .nameOfDefinition
  | .replace =>
      match e.snippet with
      | some text => .ok (.replace text)
      | none => .error .snippet

/-- The treatment that an entry describes; a setting that uses call for is
missed first. -/
def toTreatment (e : TreatmentEntry) : Except MissingSetting Treatment := do
  let useSite ← e.useSite
  return ⟨some (← e.defSite), useSite⟩

/-- The keys of an entry. -/
def keys : List String :=
  ["use", "def", "name", "module", "explicit", "snippet"]

/-- A kind of use. -/
def readUse (v : Toml.Value) : Option UseKind :=
  v.asAlternative?.bind UseKind.ofName?

/-- A kind of definition. -/
def readDef (v : Toml.Value) : Option DefKind :=
  v.asAlternative?.bind DefKind.ofName?

/-- The entry of a value: a table of settings, or a list of all settings in the
order of the keys. -/
def ofValue? : Toml.Value → Option TreatmentEntry
  | .table t => do
      guard (Toml.Table.hasOnly t keys)
      return {
        use := ← Toml.Table.getD t "use" readUse .preserve
        definition := ← Toml.Table.getD t "def" readDef .preserve
        name := ← Toml.Table.get? t "name" Toml.Value.asString?
        module := ← Toml.Table.get? t "module" Toml.Value.asString?
        explicit := ← Toml.Table.getD t "explicit" Toml.Value.asBool? false
        snippet := ← Toml.Table.get? t "snippet" Toml.Value.asString? }
  | .array (use :: definition :: name :: module :: explicit :: snippet :: _) => do
      return ⟨← readUse use, ← readDef definition, ← name.asString?.map some,
        ← module.asString?.map some, ← explicit.asBool?, ← snippet.asString?.map some⟩
  | _ => none

end TreatmentEntry

/-- Configured treatments by module and name, in the order of the document. -/
abbrev TreatmentConfig : Type :=
  List (String × List (String × TreatmentEntry))

namespace TreatmentConfig

/-- Sets the value of a key: in its place if the key is there, else at the end. -/
def setKey {α : Type} (key : String) (v : α) : List (String × α) → List (String × α)
  | [] => [(key, v)]
  | (k, a) :: rest => if k = key then (key, v) :: rest else (k, a) :: setKey key v rest

/-- The values of keys, where a later value for a key replaces an earlier one. -/
def ofPairs {α : Type} (pairs : List (String × α)) : List (String × α) :=
  pairs.foldl (fun acc p => setKey p.1 p.2 acc) []

/-- The configuration with the given entries. -/
def ofLists (modules : List (String × List (String × TreatmentEntry))) : TreatmentConfig :=
  ofPairs (modules.map fun p => (p.1, ofPairs p.2))

/-- The entries of a module. -/
def moduleOfValue? (v : Toml.Value) : Option (List (String × TreatmentEntry)) := do
  (← v.asTable?).mapM fun p => (TreatmentEntry.ofValue? p.2).map fun e => (p.1, e)

/-- The configuration that a table holds. -/
def ofTable? (t : Toml.Table) : Option TreatmentConfig := do
  guard (t.hasOnly ["modules"])
  match t.find? "modules" with
  | none => return []
  | some modules =>
      (← modules.asTable?).mapM fun p => (moduleOfValue? p.2).map fun entries => (p.1, entries)

/-- Reads a configuration from a document, which may come from a file. -/
def parse (file : Option String) (text : String) : Except ConfigError TreatmentConfig :=
  match (Toml.parse? text).bind ofTable? with
  | some config => .ok config
  | none => .error (.invalid .treatments file)

/-- Reads a configuration from a file. -/
def load (files : Files) (file : String) : Except ConfigError TreatmentConfig :=
  loadSettings .treatments parse files file

end TreatmentConfig

namespace TreatmentTable

/-- A change of a table that may be refused half way. -/
abbrev Change : Type → Type :=
  ExceptT ConfigError (StateM TreatmentTable)

/-- Enters the configured treatment of an identifier. -/
def addEntry (ident : Ident) (e : TreatmentEntry) : Change Unit := do
  match e.toTreatment with
  | .ok treatment => modify fun t => t.insert ident treatment
  | .error missing => throw (.badTreatment ident missing)

/-- Enters the configured treatments of a module. -/
def addModule (module : String) (entries : List (String × TreatmentEntry)) : Change Unit := do
  match ModuleName.parse module with
  | .error e => throw (.badModule e)
  | .ok m => entries.forM fun p => addEntry ⟨m, p.1⟩ p.2

/-- Enters all configured treatments. -/
def addConfig (config : TreatmentConfig) : Change Unit :=
  config.forM fun p => addModule p.1 p.2

/-- Enters the treatments configured in a file. -/
def addFile (files : Files) (file : String) : Change Unit := do
  match TreatmentConfig.load files file with
  | .error e => throw e
  | .ok config => addConfig config

/-- The table after a change, unless the change is refused. -/
def changed (t : TreatmentTable) (change : Change Unit) : Except ConfigError TreatmentTable :=
  match change.run t with
  | (.ok (), t) => .ok t
  | (.error e, _) => .error e

end TreatmentTable

end TermGraph
