import Std.Data.HashMap
import TermGraph.Term.Store

/-!
# Occurrence counts

The count of a node under a root is the number of positions in distinct
reachable nodes that hold it, and one more for the root itself.  Which positions
of a node are followed is a parameter.  Each node is expanded once, when it is
first met, so the work follows the number of distinct nodes and not the size of
the unfolded term.

A node that is held by several positions is shared.  Naming it pays off when it
is more than a leaf and has no loose variables.
-/

namespace TermGraph

namespace Store

/-- A count for each node met so far. -/
abbrev Counts : Type :=
  Std.HashMap TermId Nat

/-- Counts one more position that holds a node; a node met for the first time
also joins the nodes to expand. -/
def tallyOne (state : Counts × List TermId) (c : TermId) : Counts × List TermId :=
  let (counts, pending) := state
  match counts[c]? with
  | none => (counts.insert c 1, c :: pending)
  | some k => (counts.insert c (k + 1), pending)

/-- Expands pending nodes until none is left; `steps` bounds their number. -/
def tally (s : Store) (select : Node TermId → List TermId) :
    Nat → Counts × List TermId → Counts
  | 0, (counts, _) => counts
  | _ + 1, (counts, []) => counts
  | steps + 1, (counts, id :: pending) =>
      s.tally select steps ((select (s.node id)).foldl tallyOne (counts, pending))

/-- The count of every node reachable from a root through the positions that
`select` picks, by ascending identity.  A node is expanded once, so there are at
most as many expansions as nodes. -/
def countOccurrencesBy (s : Store) (root : TermId) (select : Node TermId → List TermId) :
    List (TermId × Nat) :=
  let counts := s.tally select (s.size + 1) ((∅ : Counts).insert root 1, [root])
  counts.toList.mergeSort fun a b => a.1 ≤ b.1

/-- The count of every node reachable from a root. -/
def countOccurrences (s : Store) (root : TermId) : List (TermId × Nat) :=
  s.countOccurrencesBy root Node.children

/-- Whether naming a shared node pays off: it is not a leaf, and it can stand
outside all binders. -/
def isMemoizable (s : Store) (id : TermId) : Bool :=
  !(s.node id).isTrivial && s.isClosed id

/-- The accepted nodes that more than one selected position holds, ascending. -/
def sharedTermsBy (s : Store) (root : TermId) (select : Node TermId → List TermId)
    (accept : TermId → Bool) : List TermId :=
  ((s.countOccurrencesBy root select).filter fun p => 1 < p.2 && accept p.1).map (·.1)

/-- The accepted nodes that more than one position holds, ascending. -/
def sharedTerms (s : Store) (root : TermId) (accept : TermId → Bool) : List TermId :=
  s.sharedTermsBy root Node.children accept

end Store

end TermGraph
