import TermGraph.Name.Ident

/-!
# Configuration errors

What can be wrong with settings.  The text of an error names the outermost
circumstance first; what exactly is wrong inside a file is not told.
-/

namespace TermGraph

/-- A setting that another one calls for. -/
inductive MissingSetting where
  | nameOfUse
  | nameOfDefinition
  | snippet
  deriving DecidableEq, Repr

/-- The wording of a missing setting. -/
def MissingSetting.text : MissingSetting → String
  | nameOfUse => "`use = \"rename\"` requires `name`"
  | nameOfDefinition => "`def = \"rename\"` requires `name`"
  | snippet => "`def = \"replace\"` requires `snippet`"

/-- A kind of settings. -/
inductive Settings where
  | options
  | treatments
  deriving DecidableEq, Repr

/-- What is said of settings that do not fit. -/
def Settings.invalidText : Settings → String
  | options => "invalid translator options"
  | treatments => "invalid special treatment configuration"

/-- What settings are called. -/
def Settings.name : Settings → String
  | options => "translator options"
  | treatments => "special treatments"

/-- Why settings are refused. -/
inductive ConfigError where
  /-- A text that does not fit, from a file or not. -/
  | invalid (what : Settings) (file : Option String)
  | unreadable (what : Settings) (file : String)
  | badModule (error : NameError)
  | badTreatment (ident : Ident) (missing : MissingSetting)
  deriving DecidableEq, Repr

namespace ConfigError

/-- The wording shown to the user. -/
def message : ConfigError → String
  | invalid what none => what.invalidText
  | invalid what (some file) => "in `" ++ file ++ "`: " ++ what.invalidText
  | unreadable what file => "failed to read " ++ what.name ++ " `" ++ file ++ "`"
  | badModule error => error.message
  | badTreatment ident missing => "invalid treatment for `" ++ ident.text ++ "`: " ++ missing.text

end ConfigError

/-- The files that settings can be read from, by name. -/
abbrev Files : Type :=
  String → Option String

/-- Reads settings from a file. -/
def loadSettings {α : Type} (what : Settings)
    (parse : Option String → String → Except ConfigError α) (files : Files) (file : String) :
    Except ConfigError α :=
  match files file with
  | some text => parse (some file) text
  | none => .error (.unreadable what file)

end TermGraph
