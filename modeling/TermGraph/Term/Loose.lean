import TermGraph.Order.Ascending
import TermGraph.Term.Node

/-!
# Loose variables of a layer

A de Bruijn index is loose in a term when it points past every binder inside
the term.  One layer's loose indices follow from those of its parts: seen from
outside `d` binders, index `i + d` of a part is index `i`, and the indices
below `d` are bound.
-/

namespace TermGraph

/-- The indices that stay loose outside `depth` binders, renumbered. -/
def lowerLoose (depth : Nat) (loose : List Nat) : List Nat :=
  (loose.filter (depth ≤ ·)).map (· - depth)

/-- The union of the loose indices of several parts, each under its binders. -/
def unionLoose {α : Type} (look : α → List Nat) : List (α × Nat) → List Nat
  | [] => []
  | (child, depth) :: rest => unionAsc (lowerLoose depth (look child)) (unionLoose look rest)

/-- The loose indices of a layer, ascending, from those of its parts. -/
def Node.looseFrom {α : Type} (look : α → List Nat) : Node α → List Nat
  | .bound i => [i]
  | n => unionLoose look n.childrenWithDepth

theorem unionLoose_congr {α : Type} {look look' : α → List Nat} {cs : List (α × Nat)}
    (h : ∀ c ∈ cs.map (·.1), look c = look' c) : unionLoose look cs = unionLoose look' cs := by
  induction cs with
  | nil => rfl
  | cons c cs ih =>
      obtain ⟨c, d⟩ := c
      simp only [List.map_cons, List.mem_cons, forall_eq_or_imp] at h
      simp only [unionLoose, h.1, ih h.2]

theorem Node.looseFrom_congr {α : Type} {look look' : α → List Nat} {n : Node α}
    (h : ∀ c ∈ n.children, look c = look' c) : n.looseFrom look = n.looseFrom look' := by
  unfold Node.children at h
  cases n <;> simp only [Node.looseFrom] <;> exact unionLoose_congr h

end TermGraph
