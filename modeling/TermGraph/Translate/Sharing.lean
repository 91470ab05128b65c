import TermGraph.Term.Occurrences
import TermGraph.Translate.Scope

/-!
# Which subterms get a name

A shared subterm is given a name if it has no loose variables, is more than a
leaf, and can be translated on its own: an application of a template or a
conditional needs all of its arguments.  Only the positions of a node that appear
in the output count as uses.
-/

namespace TermGraph

namespace Store

/-- Whether a term is the name of the conditional. -/
def isConditional (s : Store) (head : TermId) : Bool :=
  s.asGlobal? head = some (.prelude "ite")

/-- The positions of a node that appear in the output.  A conditional shows
neither its type nor its partial applications, and a constant or a free variable
appears by its name. -/
def renderedChildren (s : Store) : Node TermId → List TermId
  | .app f a =>
      let (head, args) := s.spine f
      if s.isConditional head && 4 ≤ args.length + 1 then (args ++ [a]).drop 1 else [f, a]
  | .constant _ _ _ | .free _ _ => []
  | .array _ elems => elems
  | .recursor _ params motive order cases =>
      params ++ motive :: (cases.filter fun p => order.contains p.1).map (·.2)
  | n => n.children

end Store

namespace Config

/-- The number of arguments that a head needs to be translated. -/
def neededArgs (cfg : Config) (s : Store) (head : TermId) : Nat :=
  let ofTable (ident : Ident) : Nat := match cfg.table.useSite ident with
    | .expand arity _ => arity
    | _ => 0
  match s.node head with
  | .global i => if i = .prelude "ite" then max 4 (ofTable i) else ofTable i
  | .constant i _ _ => ofTable i
  | _ => 0

/-- Whether a shared subterm gets a name. -/
def shouldName (cfg : Config) (s : Store) (id : TermId) : Bool :=
  s.isMemoizable id &&
    let (head, args) := s.spine id
    args.isEmpty || cfg.neededArgs s head ≤ args.length

/-- The subterms of a term that get a name, in the order of their names. -/
def namedTerms (cfg : Config) (s : Store) (root : TermId) : List TermId :=
  s.sharedTermsBy root s.renderedChildren (cfg.shouldName s)

end Config

end TermGraph
