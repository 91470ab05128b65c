import TermGraph.Term.Store

/-!
# Lifting

Moving a term under `k` more binders raises its loose indices by `k` and leaves
its bound ones alone.  A part without loose variables is shared, not rebuilt, so
lifting a closed term adds no node.
-/

namespace TermGraph

/-- Raises by `amount` the loose indices of a term that are at least `cutoff`. -/
def liftAbove (amount cutoff : Nat) (id : TermId) : Build TermId := do
  let s ← get
  if amount = 0 || (s.looseVars id).all (· < cutoff) then
    return id
  match s.node id with
  | .bound i => intern (.bound (i + amount))
  | n =>
      let n ← n.traverse fun depth c =>
        -- A part is always older than its node.
        if _ : c < id then liftAbove amount (cutoff + depth) c else return c
      intern n
termination_by id

/-- Raises the loose indices of a term by `amount`. -/
def lift (id : TermId) (amount : Nat) : Build TermId :=
  liftAbove amount 0 id

end TermGraph
