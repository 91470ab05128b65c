/-!
# Reserved names of the target language

Words that cannot be used as names, and names that translated term formers
refer to in any case.  A name that is a reserved word is escaped by an
underscore at its end.
-/

namespace TermGraph

namespace Target

/-- Words that no binder may be called. -/
def reservedWords : List String :=
  [ -- control flow
    "if", "then", "else", "let", "in", "do", "for", "while", "match", "with", "fun", "λ",
    "return",
    -- declarations
    "axiom", "theorem", "lemma", "example", "opaque", "def", "abbrev", "instance", "class",
    -- proofs
    "by", "done", "from", "using", "have", "show", "suffices", "calc", "mutual", "at",
    -- modules and namespaces
    "section", "namespace", "end", "variable", "universe", "import", "export", "open",
    "hiding", "renaming",
    -- modifiers
    "private", "protected", "noncomputable", "partial", "unsafe",
    -- types
    "inductive", "coinductive", "structure", "deriving", "extends", "where",
    -- extensions of the language
    "notation", "infix", "infixl", "infixr", "prefix", "postfix", "macro", "elab", "syntax",
    -- sorts and binders
    "Type", "Prop", "Sort", "forall", "exists",
    -- names of literals
    "error", "true", "false"]

/-- Names that term formers are translated to, whatever the configuration. -/
def emittedHeads : List String :=
  ["Unit", "Prod", "RecordCons", "RecordNil", "RecordTypeCons", "RecordTypeNil",
    "RecordProj", "Inhabited", "QuantType"]

/-- Whether a name is a reserved word. -/
def isReserved (name : String) : Bool :=
  reservedWords.contains name

/-- A name that is no reserved word. -/
def escape (name : String) : String :=
  if isReserved name then name ++ "_" else name

end Target

end TermGraph
