import TermGraph.Toml.Decode
import TermGraph.Toml.Parse
import TermGraph.Translate.ConfigError

/-!
# Translator options

Every option has a default.  Options can be read from a TOML document, which may
set any of them and nothing else.
-/

namespace TermGraph

/-- The options of the translator. -/
structure Options where
  /-- The base of the names of shared subterms. -/
  sharedNameBase : String
  /-- Whether a constructor without a case is an error. -/
  strictEliminators : Bool
  /-- Names that no binder may have, besides the reserved words. -/
  extraReserved : List String
  /-- What is applied to the width and the value of a word literal. -/
  bvLiteralCtor : String
  /-- What is applied to the list of elements of any other vector literal. -/
  vectorCtor : String
  /-- A file with further treatments. -/
  treatmentsFile : Option String
  deriving DecidableEq, Repr

namespace Options

/-- The options that hold where nothing is set. -/
def default : Options where
  sharedNameBase := "x"
  strictEliminators := false
  extraReserved := []
  bvLiteralCtor := "BitVec.ofNat"
  vectorCtor := "Vector.ofList"
  treatmentsFile := none

instance : Inhabited Options :=
  ⟨default⟩

/-- The keys of the options. -/
def keys : List String :=
  ["shared_name_base", "strict_eliminators", "extra_reserved", "bv_literal_ctor",
    "vector_ctor", "treatments_file"]

/-- The options that a table sets. -/
def ofTable? (t : Toml.Table) : Option Options := do
  guard (t.hasOnly keys)
  return {
    sharedNameBase := ← t.getD "shared_name_base" Toml.Value.asString? default.sharedNameBase
    strictEliminators :=
      ← t.getD "strict_eliminators" Toml.Value.asBool? default.strictEliminators
    extraReserved := ← t.getD "extra_reserved" Toml.Value.asStrings? default.extraReserved
    bvLiteralCtor := ← t.getD "bv_literal_ctor" Toml.Value.asString? default.bvLiteralCtor
    vectorCtor := ← t.getD "vector_ctor" Toml.Value.asString? default.vectorCtor
    treatmentsFile := ← t.get? "treatments_file" Toml.Value.asString? }

/-- Reads options from a document, which may come from a file. -/
def parse (file : Option String) (text : String) : Except ConfigError Options :=
  match (Toml.parse? text).bind ofTable? with
  | some options => .ok options
  | none => .error (.invalid .options file)

/-- Reads options from a file. -/
def load (files : Files) (file : String) : Except ConfigError Options :=
  loadSettings .options parse files file

end Options

end TermGraph
