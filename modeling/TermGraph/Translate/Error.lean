import TermGraph.Name.Ident

/-!
# Translator errors

Each constructor names a cause, and `TranslateError.message` holds the wording.
-/

namespace TermGraph

/-- Why a term cannot be translated. -/
inductive TranslateError where
  /-- A general fixed point. -/
  | generalRecursion (name : String)
  /-- A bound variable that points past all binders. -/
  | unboundVariable (index depth : Nat)
  /-- A recursor for a datatype that is built from a template. -/
  | recursorWithoutCounterpart (datatype : Ident)
  /-- A template with fewer arguments than it needs. -/
  | tooFewArguments (ident : Ident) (expected actual : Nat)
  | missingEliminator (ctor : Ident)
  /-- A definition whose treatment is left open. -/
  | unspecifiedTreatment (ident : Ident)
  deriving DecidableEq, Repr

namespace TranslateError

/-- The wording shown to the user. -/
def message : TranslateError → String
  | generalRecursion x => "general recursion is not supported (fixed point `" ++ x ++ "`)"
  | unboundVariable i depth =>
      "bound variable #" ++ toString i ++ " is out of range under " ++ toString depth ++
        " binders"
  | recursorWithoutCounterpart i =>
      "datatype `" ++ i.text ++ "` has no direct target counterpart and cannot host a recursor"
  | tooFewArguments i expected actual =>
      "`" ++ i.text ++ "` needs at least " ++ toString expected ++
        " arguments but was applied to " ++ toString actual
  | missingEliminator i => "no eliminator supplied for constructor `" ++ i.text ++ "`"
  | unspecifiedTreatment i =>
      "`" ++ i.text ++ "` reached a definition site but has no definition-site treatment"

end TranslateError

end TermGraph
