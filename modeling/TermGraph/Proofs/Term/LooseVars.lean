import Mathlib
import TermGraph.Proofs.Term.Growth

/-!
# What the kept loose variables mean

The loose variables of a node are computed once, from the lists of its parts.  Said on
the tree of the node, they are the indices that occur past every binder around them:
one layer of the tree hands an index of a part on just as one layer of the store does,
so the two agree by induction on the identity.  The lists are ascending, since the union
of ascending lists is, and that is what looking an index up by halving needs.
-/

namespace TermGraph

/-! ## Free indices of a tree -/

namespace Tree

/-- The index `j` is written somewhere in a tree, under `d` of the binders of the tree. -/
inductive Occurs : Tree → Nat → Nat → Prop where
  | bound (j : Nat) : Occurs (.node (.bound j)) 0 j
  | part {n : Node Tree} {t : Tree} {d e j : Nat} (hpart : (t, e) ∈ n.childrenWithDepth)
      (h : Occurs t d j) : Occurs (.node n) (e + d) j

/-- The index `i` of the surroundings of a tree is written in it: under `d` binders that
is the index `d + i`. -/
def Free (t : Tree) (i : Nat) : Prop :=
  ∃ d, t.Occurs d (d + i)

/-- An index is free in a layer that is this index, and where it is free in a part once
the binders in front of the part are counted. -/
theorem free_node {n : Node Tree} {i : Nat} :
    (Tree.node n).Free i ↔ n = .bound i ∨ ∃ p ∈ n.childrenWithDepth, p.1.Free (i + p.2) := by
  constructor
  · rintro ⟨d, h⟩
    generalize hj : d + i = j at h
    cases h with
    | bound =>
        obtain rfl : i = j := by omega
        exact Or.inl rfl
    | @part _ t d e _ hpart h =>
        refine Or.inr ⟨(t, e), hpart, d, ?_⟩
        have hsum : d + (i + e) = j := by omega
        show t.Occurs d (d + (i + e))
        rwa [hsum]
  · rintro (rfl | ⟨⟨t, e⟩, hpart, d, h⟩)
    · refine ⟨0, ?_⟩
      rw [Nat.zero_add]
      exact .bound i
    · refine ⟨e + d, ?_⟩
      have hsum : e + d + i = d + (i + e) := by omega
      rw [hsum]
      exact .part hpart h

theorem free_bound {i j : Nat} : (Tree.node (.bound j)).Free i ↔ i = j := by
  simp [free_node, Node.childrenWithDepth, eq_comm]

end Tree

/-! ## One layer -/

theorem mem_lowerLoose {depth i : Nat} {loose : List Nat} :
    i ∈ lowerLoose depth loose ↔ i + depth ∈ loose := by
  simp only [lowerLoose, List.mem_map, List.mem_filter, decide_eq_true_eq]
  constructor
  · rintro ⟨j, ⟨hj, hle⟩, rfl⟩
    rwa [Nat.sub_add_cancel hle]
  · intro h
    exact ⟨i + depth, ⟨h, by omega⟩, by omega⟩

theorem mem_unionLoose {α : Type} {look : α → List Nat} {parts : List (α × Nat)} {i : Nat} :
    i ∈ unionLoose look parts ↔ ∃ p ∈ parts, i + p.2 ∈ look p.1 := by
  induction parts with
  | nil => simp [unionLoose]
  | cons p parts ih =>
      simp only [unionLoose, mem_unionAsc, mem_lowerLoose, ih, List.mem_cons,
        exists_eq_or_imp]

theorem Node.mem_looseFrom {α : Type} {look : α → List Nat} {n : Node α} {i : Nat} :
    i ∈ n.looseFrom look ↔ n = .bound i ∨ ∃ p ∈ n.childrenWithDepth, i + p.2 ∈ look p.1 := by
  cases n with
  | bound j => simp [looseFrom, childrenWithDepth, eq_comm]
  | _ => simp only [looseFrom, mem_unionLoose, reduceCtorEq, false_or]

theorem ascending_lowerLoose {depth : Nat} {loose : List Nat} (h : Ascending loose) :
    Ascending (lowerLoose depth loose) := by
  unfold Ascending lowerLoose at *
  rw [List.pairwise_map, List.pairwise_filter]
  refine h.imp fun {a b} hab ha _ => ?_
  simp only [decide_eq_true_eq] at ha
  omega

theorem ascending_unionLoose {α : Type} {look : α → List Nat} {parts : List (α × Nat)}
    (h : ∀ p ∈ parts, Ascending (look p.1)) : Ascending (unionLoose look parts) := by
  induction parts with
  | nil => exact List.Pairwise.nil
  | cons p parts ih =>
      simp only [List.mem_cons, forall_eq_or_imp] at h
      exact ascending_unionAsc (ascending_lowerLoose h.1) (ih h.2)

theorem Node.ascending_looseFrom {α : Type} {look : α → List Nat} {n : Node α}
    (h : ∀ p ∈ n.childrenWithDepth, Ascending (look p.1)) : Ascending (n.looseFrom look) := by
  cases n with
  | bound i => exact List.pairwise_singleton _ i
  | _ => exact ascending_unionLoose h

namespace Store

variable {s : Store}

theorem looseVars_eq (s : Store) (id : TermId) :
    s.looseVars id = (s.node id).looseFrom s.looseVars := by
  unfold looseVars node
  rw [Array.getD_eq_getD_getElem?, Array.getD_eq_getD_getElem?]
  cases hn : s.nodes[id]? with
  | none =>
      have hsize : s.loose[id]? = none := by
        rw [Array.getElem?_eq_none_iff, s.size_loose]
        exact Array.getElem?_eq_none_iff.mp hn
      rw [hsize]
      rfl
  | some n =>
      rw [s.loose_eq id n hn]
      rfl

/-- A loose variable of a part is loose in the node, unless the node binds it. -/
theorem mem_looseVars_of_part {id c : TermId} {d i : Nat}
    (hc : (c, d) ∈ (s.node id).childrenWithDepth) (h : i + d ∈ s.looseVars c) :
    i ∈ s.looseVars id := by
  rw [looseVars_eq, Node.mem_looseFrom]
  exact Or.inr ⟨(c, d), hc, h⟩

theorem looseVars_of_node_bound {id : TermId} {i : Nat} (h : s.node id = .bound i) :
    s.looseVars id = [i] := by
  rw [looseVars_eq, h]
  rfl

/-- The loose variables of a node are ascending if those of its older parts are. -/
theorem ascending_looseVars (s : Store) (id : TermId) : Ascending (s.looseVars id) := by
  induction id using Nat.strong_induction_on with
  | _ id ih =>
      rw [looseVars_eq]
      exact Node.ascending_looseFrom fun p hp =>
        ih p.1 (s.lt_of_mem_children (Node.mem_children_of_mem hp))

/-- Halving finds an index, because the kept list is ascending. -/
theorem hasLoose_iff_mem {id : TermId} {i : Nat} :
    s.hasLoose id i = true ↔ i ∈ s.looseVars id := by
  rw [hasLoose, searchAsc_iff (s.ascending_looseVars id)]

/-! ## Exactness -/

/-- The kept indices of a node are the free ones of its tree, by induction on the
identity: a layer passes the indices of its parts on in the same way in both. -/
theorem mem_looseVars_iff {id : TermId} :
    ∀ {i : Nat}, i ∈ s.looseVars id ↔ (s.unfold id).Free i := by
  induction id using Nat.strong_induction_on with
  | _ id ih =>
      intro i
      have hparts : (∃ p ∈ (s.node id).childrenWithDepth, i + p.2 ∈ s.looseVars p.1) ↔
          ∃ p ∈ (s.node id).childrenWithDepth, (s.unfold p.1).Free (i + p.2) := by
        refine exists_congr fun p => and_congr_right fun hp => ?_
        exact ih p.1 (s.lt_of_mem_children (Node.mem_children_of_mem hp))
      rw [looseVars_eq, unfold_eq, Node.mem_looseFrom, Tree.free_node, Node.map_eq_bound, hparts,
        Node.childrenWithDepth_map]
      simp only [List.mem_map, exists_exists_and_eq_and]

theorem isClosed_iff {id : TermId} : s.isClosed id = true ↔ ∀ i, ¬(s.unfold id).Free i := by
  rw [isClosed, List.isEmpty_iff, List.eq_nil_iff_forall_not_mem]
  exact forall_congr' fun i => not_congr mem_looseVars_iff

theorem hasLoose_iff {id : TermId} {i : Nat} :
    s.hasLoose id i = true ↔ (s.unfold id).Free i :=
  hasLoose_iff_mem.trans mem_looseVars_iff

/-- The loose variables that a store keeps are exact, after any calls: ascending, and the
indices that occur in the tree of the node past all the binders around them. -/
theorem looseVars_exact (calls : List Build.Call) (id : TermId) :
    Ascending ((empty.after calls).looseVars id) ∧
      (∀ i, i ∈ (empty.after calls).looseVars id ↔
        ∃ d, ((empty.after calls).unfold id).Occurs d (d + i)) ∧
      ((empty.after calls).isClosed id = true ↔
        ∀ i, ¬((empty.after calls).unfold id).Free i) ∧
      ∀ i, (empty.after calls).hasLoose id i = true ↔ ((empty.after calls).unfold id).Free i :=
  ⟨ascending_looseVars _ id, fun _ => mem_looseVars_iff, isClosed_iff, fun _ => hasLoose_iff⟩

end Store

end TermGraph
