import Std.Data.HashSet
import TermGraph.Term.Store

/-!
# Reading terms

Views of a stored term: the head and arguments of an application, the binders of
a chain of function types or functions, and the nodes and free variables that a
term reaches.  A view of a chain or an application may be told where to stop, so
that a part with a name of its own is not looked into.
-/

namespace TermGraph

/-- A binder of a chain: its name, its type, and what it binds in. -/
structure Layer where
  name : String
  type : TermId
  body : TermId
  deriving DecidableEq, Repr

namespace Store

/-- The function of an application is older than the application. -/
theorem lt_of_node_app (s : Store) {id f a : TermId} (h : s.node id = .app f a) : f < id :=
  s.lt_of_mem_children (by simp [h, Node.children, Node.childrenWithDepth])

/-- The codomain of a function type is older than the type. -/
theorem lt_of_node_pi (s : Store) {id ty b : TermId} {x : String}
    (h : s.node id = .pi x ty b) : b < id :=
  s.lt_of_mem_children (by simp [h, Node.children, Node.childrenWithDepth])

/-- The body of a function is older than the function. -/
theorem lt_of_node_lam (s : Store) {id ty b : TermId} {x : String}
    (h : s.node id = .lam x ty b) : b < id :=
  s.lt_of_mem_children (by simp [h, Node.children, Node.childrenWithDepth])

/-- The head of an application, and its arguments in front of `args`; a function
where `stop` holds is a head. -/
def spineOnto (s : Store) (stop : TermId → Bool) (id : TermId) (args : List TermId) :
    TermId × List TermId :=
  match h : s.node id with
  | .app f a =>
      have := s.lt_of_node_app h
      if stop f then (f, a :: args) else s.spineOnto stop f (a :: args)
  | _ => (id, args)
termination_by id

/-- The head and the arguments, first argument first, of an application; a
function where `stop` holds is a head. -/
def spineUntil (s : Store) (stop : TermId → Bool) (id : TermId) : TermId × List TermId :=
  s.spineOnto stop id []

/-- The head and the arguments, first argument first, of an application. -/
def spine (s : Store) (id : TermId) : TermId × List TermId :=
  s.spineUntil (fun _ => false) id

/-- The binders that a chain of function types starts with, and what follows
them; a type where `stop` holds ends the chain. -/
def piLayers (s : Store) (stop : TermId → Bool) (id : TermId) : List Layer × TermId :=
  match h : s.node id with
  | .pi x ty b =>
      have := s.lt_of_node_pi h
      if stop b then ([⟨x, ty, b⟩], b)
      else
        let (layers, last) := s.piLayers stop b
        (⟨x, ty, b⟩ :: layers, last)
  | _ => ([], id)
termination_by id

/-- The binders that a chain of functions starts with, and what follows them; a
function where `stop` holds ends the chain. -/
def lamLayers (s : Store) (stop : TermId → Bool) (id : TermId) : List Layer × TermId :=
  match h : s.node id with
  | .lam x ty b =>
      have := s.lt_of_node_lam h
      if stop b then ([⟨x, ty, b⟩], b)
      else
        let (layers, last) := s.lamLayers stop b
        (⟨x, ty, b⟩ :: layers, last)
  | _ => ([], id)
termination_by id

/-- The binders, by name and type, that a chain of function types starts with,
and what follows them. -/
def piChain (s : Store) (id : TermId) : List (String × TermId) × TermId :=
  let (layers, last) := s.piLayers (fun _ => false) id
  (layers.map fun l => (l.name, l.type), last)

/-- The binders, by name and type, that a chain of functions starts with, and
what follows them. -/
def lamChain (s : Store) (id : TermId) : List (String × TermId) × TermId :=
  let (layers, last) := s.lamLayers (fun _ => false) id
  (layers.map fun l => (l.name, l.type), last)

/-- The identifier of a node that is a built-in. -/
def asGlobal? (s : Store) (id : TermId) : Option Ident :=
  match s.node id with
  | .global i => some i
  | _ => none

/-- The value of a boolean literal. -/
def asBool? (s : Store) (id : TermId) : Option Bool :=
  match s.node id with
  | .bool b => some b
  | _ => none

/-- The value of a number literal. -/
def asNat? (s : Store) (id : TermId) : Option Nat :=
  match s.node id with
  | .nat n => some n
  | _ => none

/-- Whether a node is a free variable. -/
def isFree (s : Store) (id : TermId) : Bool :=
  match s.node id with
  | .free _ _ => true
  | _ => false

/-- What a walk over terms has met: the nodes, as a set and latest first. -/
structure Visited where
  seen : Std.HashSet TermId
  order : List TermId

/-- Visits a term and then its parts from left to right, skipping what has been
met before. -/
def visit (s : Store) (id : TermId) (v : Visited) : Visited :=
  if v.seen.contains id then v
  else
    let ⟨seen, order⟩ := v
    (s.node id).children.foldl
      -- A part is always older than its node.
      (fun v c => if _ : c < id then s.visit c v else v) ⟨seen.insert id, id :: order⟩
termination_by id

/-- The nodes that some terms reach, each once, in the order in which a walk
from left to right first meets them. -/
def preorder (s : Store) (roots : List TermId) : List TermId :=
  (roots.foldl (fun v root => s.visit root v) ⟨∅, []⟩).order.reverse

/-- The nodes of a term written out as a tree, in preorder: the node of the term,
and then the nodes of its parts from left to right. -/
def positions (s : Store) (id : TermId) : List TermId :=
  id :: (s.node id).children.flatMap fun c =>
    -- A part is always older than its node.
    if _ : c < id then s.positions c else []
termination_by id

theorem positions_eq (s : Store) (id : TermId) :
    s.positions id = id :: (s.node id).children.flatMap s.positions := by
  rw [positions, List.flatMap_def, List.flatMap_def]
  refine congrArg (id :: List.flatten ·) (List.map_congr_left fun c hc => ?_)
  rw [dif_pos (s.lt_of_mem_children hc)]

/-- Takes nodes off a stack until it is empty.  A node that has been seen before is
dropped; any other one is replaced by its parts, the leftmost on top.  The free
variables among them are kept, latest first.  A stack stands for the positions of its
nodes, and every step leaves fewer of them. -/
def searchFree (s : Store) (seen : Std.HashSet TermId) (found : List TermId) :
    List TermId → List TermId
  | [] => found
  | id :: stack =>
      if seen.contains id then s.searchFree seen found stack
      else
        s.searchFree (seen.insert id) (if s.isFree id then id :: found else found)
          ((s.node id).children ++ stack)
termination_by stack => (stack.flatMap s.positions).length
decreasing_by
  all_goals
    rw [List.flatMap_cons, s.positions_eq id]
    simp only [List.flatMap_append, List.length_append, List.length_cons]
    omega

/-- The free variables that a term reaches, in the order in which the search meets
them. -/
def freeVariables (s : Store) (root : TermId) : List TermId :=
  (s.searchFree ∅ [] [root]).reverse

end Store

end TermGraph
