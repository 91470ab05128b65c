import Mathlib
import TermGraph.Proofs.Term.Reach
import TermGraph.Proofs.Term.Shift

/-!
# The search for free variables follows the unfolded term

The search works off a stack on which one node may stand many times.  Working off its top
node does what a recursive visit of that node does, so the search meets nodes in the order
of the recursive walk.  The recursive walk in turn skips a node only when everything that
the node reaches has been met: a node whose visit has not ended yet is younger than all
nodes below it.  So it meets the nodes in the order in which they first stand in the term
written out as a tree.
-/

namespace TermGraph

/-! ## The order of first occurrences -/

/-- Dropping repetitions adds the elements one after the other to those met before. -/
theorem eraseDups_eq_foldl_insert (xs : List Nat) :
    xs.eraseDups = (xs.foldl (fun met x => met.insert x) []).reverse := by
  suffices h : ∀ met : List Nat, List.eraseDupsBy.loop (fun x y => x == y) xs met =
      (xs.foldl (fun met x => met.insert x) met).reverse from h []
  induction xs with
  | nil => exact fun _ => rfl
  | cons x xs ih =>
      intro met
      rw [List.eraseDupsBy.loop, List.foldl_cons]
      by_cases hx : x ∈ met
      · have hany : met.any (fun y => x == y) = true :=
          List.any_eq_true.mpr ⟨x, hx, beq_self_eq_true x⟩
        rw [hany, List.insert_of_mem hx]
        exact ih met
      · have hany : met.any (fun y => x == y) = false :=
          List.any_eq_false.mpr fun y hy heq => hx (eq_of_beq heq ▸ hy)
        rw [hany, List.insert_of_not_mem hx]
        exact ih (x :: met)

theorem nodup_foldl_insert (xs : List Nat) :
    ∀ {met : List Nat}, met.Nodup → (xs.foldl (fun met x => met.insert x) met).Nodup := by
  induction xs with
  | nil => exact fun h => h
  | cons x xs ih => exact fun h => ih h.insert

theorem foldl_insert_of_subset {xs : List Nat} :
    ∀ {met : List Nat}, xs ⊆ met → xs.foldl (fun met x => met.insert x) met = met := by
  induction xs with
  | nil => exact fun _ => rfl
  | cons x xs ih =>
      intro met h
      obtain ⟨hx, hxs⟩ := List.cons_subset.mp h
      rw [List.foldl_cons, List.insert_of_mem hx, ih hxs]

/-! ## The unfolded term in preorder -/

namespace Tree

/-- A tree and all trees in it, in preorder: the tree, and then what its parts hold, from
left to right. -/
noncomputable def preorder : Tree → List Tree
  | .node n => .node n :: n.children.flatMap fun t =>
      -- A part is always smaller than its layer.
      if _ : sizeOf t < sizeOf n then t.preorder else []
termination_by t => sizeOf t
decreasing_by
  simp only [Tree.node.sizeOf_spec]
  omega

theorem preorder_node (n : Node Tree) :
    (Tree.node n).preorder = .node n :: n.children.flatMap preorder := by
  rw [preorder]
  exact congrArg _ (List.flatMap_congr fun t ht => dif_pos (sizeOf_lt_of_mem_children ht))

end Tree

namespace Store

variable {s : Store}

/-- The positions of a term are those of its tree. -/
theorem map_unfold_positions (id : TermId) :
    (s.positions id).map s.unfold = (s.unfold id).preorder := by
  induction id using Nat.strong_induction_on with
  | _ id ih =>
      have hparts : ((s.node id).children.flatMap s.positions).map s.unfold =
          (s.node id).children.flatMap fun c => (s.unfold c).preorder := by
        rw [List.map_flatMap]
        exact List.flatMap_congr fun c hc => ih c (s.lt_of_mem_children hc)
      rw [positions_eq, List.map_cons, hparts, unfold_eq, Tree.preorder_node, Node.children_map,
        List.flatMap_map]

theorem mem_positions_iff {id x : TermId} : x ∈ s.positions id ↔ s.Reaches id x := by
  constructor
  · induction id using Nat.strong_induction_on with
    | _ id ih =>
        intro hx
        rw [positions_eq, List.mem_cons, List.mem_flatMap] at hx
        rcases hx with rfl | ⟨c, hc, hx⟩
        · exact .refl x
        · exact (reaches_of_mem_children hc).trans (ih c (s.lt_of_mem_children hc) hx)
  · intro hx
    induction hx using Relation.ReflTransGen.head_induction_on with
    | refl => rw [positions_eq]; exact List.mem_cons_self
    | head hc _ ih =>
        rw [positions_eq]
        exact List.mem_cons_of_mem _ (List.mem_flatMap.mpr ⟨_, hc, ih⟩)

/-! ## The recursive walk follows the unfolded term -/

/-- Whatever is older than a bound and has been met is met with all that it reaches. -/
def Visited.ClosedBelow (s : Store) (v : Visited) (bound : TermId) : Prop :=
  ∀ y ∈ v.order, y < bound → s.positions y ⊆ v.order

/-- A piece of a walk leaves no node behind of which only a part has been met. -/
theorem Visited.Extends.closedBelow {v v' : Visited} (h : Extends s v v') {bound : TermId}
    (hv : v.ClosedBelow s bound) : v'.ClosedBelow s bound := by
  intro y
  induction y using Nat.strong_induction_on with
  | _ y ih =>
      intro hy hlt
      by_cases hold : y ∈ v.order
      · exact fun x hx => h.subset (hv y hold hlt hx)
      · intro x hx
        rw [positions_eq, List.mem_cons, List.mem_flatMap] at hx
        rcases hx with rfl | ⟨c, hc, hx⟩
        · exact hy
        · have hcy := s.lt_of_mem_children hc
          exact ih c hcy (h.children y hy hold hc) (hcy.trans hlt) hx

/-- Visits of several nodes add the positions of all of them, if each visit does so for its
node. -/
theorem order_foldl_visit {bound : TermId} {cs : List TermId}
    (hcs : ∀ c ∈ cs, ∀ v : Visited, v.Consistent → v.ClosedBelow s bound →
      (s.visit c v).order = (s.positions c).foldl (fun met x => met.insert x) v.order) :
    ∀ v : Visited, v.Consistent → v.ClosedBelow s bound →
      (cs.foldl (fun v c => s.visit c v) v).order =
        (cs.flatMap s.positions).foldl (fun met x => met.insert x) v.order := by
  induction cs with
  | nil => exact fun _ _ _ => rfl
  | cons c cs ih =>
      intro v hv hclosed
      obtain ⟨hext, -⟩ := extends_visit s c v hv
      have hrest := ih (fun d hd => hcs d (List.mem_cons_of_mem c hd)) _ hext.consistent
        (hext.closedBelow hclosed)
      rw [List.foldl_cons, List.flatMap_cons, List.foldl_append, hrest,
        hcs c List.mem_cons_self v hv hclosed]

/-- A visit adds the positions of its node one after the other to what has been met. -/
theorem order_visit (id : TermId) :
    ∀ v : Visited, v.Consistent → v.ClosedBelow s (id + 1) →
      (s.visit id v).order = (s.positions id).foldl (fun met x => met.insert x) v.order := by
  induction id using Nat.strong_induction_on with
  | _ id ih =>
      intro v hv hclosed
      by_cases hseen : v.seen.contains id = true
      · have hmem : id ∈ v.order := (hv id).mp hseen
        rw [visit_of_seen hseen, foldl_insert_of_subset (hclosed id hmem (Nat.lt_succ_self id))]
      · have hnew : id ∉ v.order := fun hmem => hseen ((hv id).mpr hmem)
        -- The node itself is met before its parts are, so only older nodes are met with all
        -- that they reach while the parts are visited.
        have hbelow : Visited.ClosedBelow s ⟨v.seen.insert id, id :: v.order⟩ id := by
          intro y hy hlt
          have hold : y ∈ v.order := (List.mem_cons.mp hy).resolve_left (Nat.ne_of_lt hlt)
          exact fun x hx => List.mem_cons_of_mem _ (hclosed y hold (Nat.lt_succ_of_lt hlt) hx)
        have hparts : ∀ c ∈ (s.node id).children, ∀ u : Visited, u.Consistent →
            u.ClosedBelow s id →
              (s.visit c u).order = (s.positions c).foldl (fun met x => met.insert x) u.order := by
          intro c hc u hu hub
          have hlt := s.lt_of_mem_children hc
          exact ih c hlt u hu fun y hy hyc => hub y hy (Nat.lt_of_lt_of_le hyc hlt)
        rw [visit_of_new hseen, positions_eq, List.foldl_cons, List.insert_of_not_mem hnew]
        exact order_foldl_visit hparts _ (hv.meet id) hbelow

/-- The walk from a root meets the nodes in the order in which they first stand in the
unfolded term. -/
theorem preorder_eq_eraseDups (root : TermId) :
    s.preorder [root] = (s.positions root).eraseDups := by
  have hconsistent : Visited.Consistent ⟨∅, []⟩ := by intro id; simp
  have hclosed : Visited.ClosedBelow s ⟨∅, []⟩ (root + 1) := fun y hy => absurd hy List.not_mem_nil
  rw [preorder, List.foldl_cons, List.foldl_nil, order_visit root _ hconsistent hclosed,
    eraseDups_eq_foldl_insert]

/-! ## The stack follows the recursive walk -/

theorem searchFree_nil (seen : Std.HashSet TermId) (found : List TermId) :
    s.searchFree seen found [] = found := by
  rw [searchFree]

/-- The search that has met what a walk has met. -/
def searchAfter (s : Store) (v : Visited) (stack : List TermId) : List TermId :=
  s.searchFree v.seen (v.order.filter s.isFree) stack

/-- Working off several nodes on top of the stack does what visiting them in turn does, if
it is so for each of them. -/
theorem searchAfter_append {cs : List TermId} {stack : List TermId}
    (hcs : ∀ c ∈ cs, ∀ v stack,
      s.searchAfter v (c :: stack) = s.searchAfter (s.visit c v) stack) :
    ∀ v, s.searchAfter v (cs ++ stack) =
      s.searchAfter (cs.foldl (fun v c => s.visit c v) v) stack := by
  induction cs with
  | nil => exact fun _ => rfl
  | cons c cs ih =>
      intro v
      rw [List.cons_append, hcs c List.mem_cons_self,
        ih fun d hd => hcs d (List.mem_cons_of_mem c hd), List.foldl_cons]

/-- Working off the top of the stack does what a visit of that node does. -/
theorem searchAfter_cons (id : TermId) :
    ∀ (v : Visited) (stack : List TermId),
      s.searchAfter v (id :: stack) = s.searchAfter (s.visit id v) stack := by
  induction id using Nat.strong_induction_on with
  | _ id ih =>
      intro v stack
      rw [searchAfter, searchFree]
      by_cases hseen : v.seen.contains id = true
      · rw [if_pos hseen, visit_of_seen hseen, searchAfter]
      · -- The parts of the node now lie on top of the stack.
        rw [if_neg hseen, visit_of_new hseen, ← List.filter_cons]
        exact searchAfter_append (fun c hc => ih c (s.lt_of_mem_children hc))
          ⟨v.seen.insert id, id :: v.order⟩

theorem freeVariables_eq_filter_preorder (root : TermId) :
    s.freeVariables root = (s.preorder [root]).filter s.isFree := by
  have h : s.searchFree ∅ [] [root] = (s.visit root ⟨∅, []⟩).order.filter s.isFree := by
    have hstart := searchAfter_cons (s := s) root ⟨∅, []⟩ []
    rwa [searchAfter, searchAfter, List.filter_nil, searchFree_nil] at hstart
  rw [freeVariables, h, preorder, List.filter_reverse, List.foldl_cons, List.foldl_nil]

/-! ## Main statement -/

theorem isFree_iff {id : TermId} : s.isFree id = true ↔ ∃ x ty, s.node id = .free x ty := by
  unfold isFree
  split
  · rename_i x ty hnode
    exact iff_of_true rfl ⟨x, ty, hnode⟩
  · rename_i hnot
    exact iff_of_false Bool.false_ne_true fun ⟨x, ty, hnode⟩ => hnot x ty hnode

/-- The search, which ends because every step leaves fewer positions on the stack, returns
the free variables that a term reaches, each once, in the order in which they first stand in
the preorder of the unfolded term. -/
theorem freeVariables_exact (s : Store) (root : TermId) :
    s.freeVariables root = (s.positions root).eraseDups.filter s.isFree ∧
      (s.positions root).map s.unfold = (s.unfold root).preorder ∧
      (∀ id, id ∈ s.freeVariables root ↔
        s.Reaches root id ∧ ∃ x ty, s.node id = .free x ty) ∧
      (s.freeVariables root).Nodup := by
  have heq : s.freeVariables root = (s.positions root).eraseDups.filter s.isFree := by
    rw [freeVariables_eq_filter_preorder, preorder_eq_eraseDups]
  refine ⟨heq, map_unfold_positions root, fun id => ?_, ?_⟩
  · rw [heq, List.mem_filter, List.mem_eraseDups, mem_positions_iff, isFree_iff]
  · rw [heq, eraseDups_eq_foldl_insert]
    exact (List.nodup_reverse.mpr (nodup_foldl_insert _ List.nodup_nil)).filter _

end Store

end TermGraph
