import Std.Data.HashMap
import TermGraph.Term.Loose

/-!
# The term store

A store holds term nodes in the order of their creation; the position of a node
is its identity.  A node that is already there is never stored again, so terms
share their equal parts, and a stored node never changes.

Three facts about a single layer are part of the type: parts are older than the
node that holds them, the list of loose variables kept for a node is the one
computed from its parts, and the index finds exactly the stored nodes.  All
that holds of whole terms follows from these by induction on identities.

An identity that the store has not given out reads as the unit value, which has
no parts.
-/

namespace TermGraph

/-- The identity of a node in a store. -/
abbrev TermId : Type :=
  Nat

/-- Nodes that refer to each other by identity, each of them stored once. -/
structure Store where
  /-- The nodes, oldest first. -/
  nodes : Array (Node TermId)
  /-- The loose variables of each node, ascending. -/
  loose : Array (List Nat)
  /-- The identity of each stored node. -/
  index : Std.HashMap (Node TermId) TermId
  size_loose : loose.size = nodes.size
  lt_of_child : ∀ (i : TermId) (n : Node TermId), nodes[i]? = some n →
    ∀ c ∈ n.children, c < i
  loose_eq : ∀ (i : TermId) (n : Node TermId), nodes[i]? = some n →
    loose[i]? = some (n.looseFrom fun c => loose.getD c [])
  index_eq : ∀ (n : Node TermId) (i : TermId), index[n]? = some i ↔ nodes[i]? = some n

namespace Store

/-- The store without nodes. -/
def empty : Store where
  nodes := #[]
  loose := #[]
  index := ∅
  size_loose := rfl
  lt_of_child := by simp
  loose_eq := by simp
  index_eq := by simp

instance : Inhabited Store :=
  ⟨empty⟩

/-- The number of stored nodes. -/
def size (s : Store) : Nat :=
  s.nodes.size

/-- The node of an identity. -/
def node (s : Store) (id : TermId) : Node TermId :=
  s.nodes.getD id .unit

/-- The loose variables of a term, ascending. -/
def looseVars (s : Store) (id : TermId) : List Nat :=
  s.loose.getD id []

/-- A term is closed when it has no loose variables. -/
def isClosed (s : Store) (id : TermId) : Bool :=
  (s.looseVars id).isEmpty

/-- Whether an index is loose in a term. -/
def hasLoose (s : Store) (id : TermId) (index : Nat) : Bool :=
  searchAsc (s.looseVars id) index

/-- The parts of a node are older than the node. -/
theorem lt_of_mem_children (s : Store) {id c : TermId} (h : c ∈ (s.node id).children) :
    c < id := by
  unfold node at h
  rw [Array.getD_eq_getD_getElem?] at h
  cases hn : s.nodes[id]? with
  | none => simp [hn, Node.children, Node.childrenWithDepth] at h
  | some n =>
      rw [hn] at h
      exact s.lt_of_child id n hn c h

/-- Adds a node that is not stored yet and whose parts are. -/
def push (s : Store) (n : Node TermId) (known : ∀ c ∈ n.children, c < s.nodes.size)
    (new : s.index[n]? = none) : Store :=
  match s, known, new with
  | ⟨nodes, loose, index, size_loose, lt_of_child, loose_eq, index_eq⟩, known, new =>
    { nodes := nodes.push n
      loose :=
        let vars := n.looseFrom fun c => loose.getD c []
        loose.push vars
      index := index.insert n nodes.size
      size_loose := by simp [size_loose]
      lt_of_child := by
        intro i m hm
        rw [Array.getElem?_push] at hm
        split at hm
        · rename_i hi
          cases hm
          subst hi
          exact known
        · exact lt_of_child i m hm
      loose_eq := by
        have keep : ∀ (k : Nat) (vars : List Nat), k < nodes.size →
            (loose.push vars).getD k [] = loose.getD k [] := by
          intro k vars hk
          simp only [Array.getD_eq_getD_getElem?, Array.getElem?_push, size_loose]
          rw [if_neg (by omega)]
        intro i m hm
        rw [Array.getElem?_push] at hm
        split at hm
        · rename_i hi
          cases hm
          rw [Array.getElem?_push, size_loose, if_pos hi]
          exact congrArg some (Node.looseFrom_congr fun c hc => (keep c _ (known c hc)).symm)
        · rename_i hi
          rw [Array.getElem?_push, size_loose, if_neg hi, loose_eq i m hm]
          have hlt : i < nodes.size := (Array.getElem?_eq_some_iff.1 hm).1
          refine congrArg some (Node.looseFrom_congr fun c hc => (keep c _ ?_).symm)
          exact Nat.lt_trans (lt_of_child i m hm c hc) hlt
      index_eq := by
        intro m i
        rw [Std.HashMap.getElem?_insert, Array.getElem?_push]
        by_cases hm : n = m
        · subst hm
          rw [if_pos (by simp)]
          constructor
          · intro h
            cases h
            rw [if_pos rfl]
          · intro h
            split at h
            · rename_i hi
              rw [hi]
            · rw [(index_eq n i).2 h] at new
              cases new
        · rw [if_neg (by simpa using hm)]
          rw [index_eq m i]
          split
          · rename_i hi
            subst hi
            simp [hm]
          · rfl }

end Store

/-- A computation that may add nodes to a store. -/
abbrev Build : Type → Type :=
  StateM Store

/-- The identity of a node: the one it has in the store, or the next one, under
which it is then stored.  A node with an unknown part is not stored. -/
def intern (n : Node TermId) : Build TermId := fun s =>
  match h : s.index[n]? with
  | some id => (id, s)
  | none =>
      let id := s.nodes.size
      if known : ∀ c ∈ n.children, c < s.nodes.size then (id, s.push n known h) else (id, s)

end TermGraph
