import Mathlib
import TermGraph.Term.Inspect

/-!
# What a term reaches

A node reaches itself and whatever its parts reach.  Parts are older than their
node, so nothing reached is younger.  The walk behind `preorder` meets every
reached node: when it leaves a node, all parts of every node met on the way have
been met as well.
-/

namespace TermGraph

namespace Store

/-- A node that is not stored is not found. -/
theorem index_eq_none {s : Store} {n : Node TermId} (h : n ∉ s.nodes.toList) :
    s.index[n]? = none := by
  cases hi : s.index[n]? with
  | none => rfl
  | some i =>
      have hmem : n ∈ s.nodes := Array.mem_of_getElem? ((s.index_eq n i).mp hi)
      exact absurd (Array.mem_toList_iff.mpr hmem) h

/-- A store with one more node, if the node is new and its parts are stored. -/
def withNode (s : Store) (n : Node TermId) : Store :=
  if h : (∀ c ∈ n.children, c < s.nodes.size) ∧ n ∉ s.nodes.toList then
    s.push n h.1 (index_eq_none h.2)
  else s

/-- The store of some nodes, oldest first. -/
def ofNodes (nodes : List (Node TermId)) : Store :=
  nodes.foldl withNode empty

/-- A node reaches another one through parts of parts. -/
def Reaches (s : Store) : TermId → TermId → Prop :=
  Relation.ReflTransGen fun id c => c ∈ (s.node id).children

variable {s : Store}

theorem Reaches.refl (id : TermId) : s.Reaches id id :=
  Relation.ReflTransGen.refl

theorem Reaches.trans {a b c : TermId} (hab : s.Reaches a b) (hbc : s.Reaches b c) :
    s.Reaches a c :=
  Relation.ReflTransGen.trans hab hbc

theorem reaches_of_mem_children {id c : TermId} (h : c ∈ (s.node id).children) :
    s.Reaches id c :=
  Relation.ReflTransGen.single h

theorem Reaches.le {id c : TermId} (h : s.Reaches id c) : c ≤ id := by
  induction h with
  | refl => exact le_rfl
  | tail _ hc ih => exact le_trans (le_of_lt (s.lt_of_mem_children hc)) ih

namespace Visited

/-- Every node that has been met is in the set, and nothing else is. -/
def Consistent (v : Visited) : Prop :=
  ∀ id, v.seen.contains id = true ↔ id ∈ v.order

/-- What a piece of a walk adds: nodes, all of whose parts are met by its end. -/
structure Extends (s : Store) (v v' : Visited) : Prop where
  consistent : v'.Consistent
  subset : v.order ⊆ v'.order
  children : ∀ id ∈ v'.order, id ∉ v.order → (s.node id).children ⊆ v'.order

theorem Extends.refl {v : Visited} (h : v.Consistent) : Extends s v v :=
  ⟨h, List.Subset.refl _, fun _ hid hnot => absurd hid hnot⟩

theorem Extends.trans {a b c : Visited} (hab : Extends s a b) (hbc : Extends s b c) :
    Extends s a c := by
  refine ⟨hbc.consistent, fun id h => hbc.subset (hab.subset h), ?_⟩
  intro id hid hnot
  by_cases hb : id ∈ b.order
  · exact fun c hc => hbc.subset (hab.children id hb hnot hc)
  · exact hbc.children id hid hb

/-- A walk over several nodes meets all of them. -/
theorem extends_foldl (step : Visited → TermId → Visited) (ids : List TermId)
    (hstep : ∀ id ∈ ids, ∀ v : Visited, v.Consistent →
      Extends s v (step v id) ∧ id ∈ (step v id).order)
    {v : Visited} (hv : v.Consistent) :
    Extends s v (ids.foldl step v) ∧ ids ⊆ (ids.foldl step v).order := by
  induction ids generalizing v with
  | nil => exact ⟨.refl hv, by simp⟩
  | cons id rest ih =>
      obtain ⟨hfirst, hid⟩ := hstep id (by simp) v hv
      obtain ⟨hrest, hmem⟩ :=
        ih (fun i hi => hstep i (by simp [hi])) hfirst.consistent
      refine ⟨hfirst.trans hrest, ?_⟩
      rw [List.cons_subset]
      exact ⟨hrest.subset hid, hmem⟩

end Visited

open Visited

theorem visit_of_seen {id : TermId} {v : Visited} (h : v.seen.contains id = true) :
    s.visit id v = v := by
  rw [visit, if_pos h]

theorem visit_of_new {id : TermId} {v : Visited} (h : ¬v.seen.contains id = true) :
    s.visit id v = (s.node id).children.foldl (fun v c => s.visit c v)
      ⟨v.seen.insert id, id :: v.order⟩ := by
  rw [visit, if_neg h]
  exact List.foldl_ext _ _ _ fun _ c hc => dif_pos (s.lt_of_mem_children hc)

/-- A node that is met for the first time joins both the set and the list. -/
theorem Visited.Consistent.meet {v : Visited} (hv : v.Consistent) (id : TermId) :
    Consistent ⟨v.seen.insert id, id :: v.order⟩ := by
  intro c
  simp only [Std.HashSet.contains_insert, Bool.or_eq_true, beq_iff_eq, List.mem_cons, hv c]
  exact or_congr eq_comm Iff.rfl

/-- A visit meets its node and leaves no part of a newly met node unmet. -/
theorem extends_visit (s : Store) (id : TermId) :
    ∀ v : Visited, v.Consistent → Extends s v (s.visit id v) ∧ id ∈ (s.visit id v).order := by
  induction id using Nat.strong_induction_on with
  | _ id ih =>
      intro v hv
      by_cases hseen : v.seen.contains id = true
      · rw [visit_of_seen hseen]
        exact ⟨.refl hv, (hv id).mp hseen⟩
      · rw [visit_of_new hseen]
        obtain ⟨hext, hmem⟩ := extends_foldl (fun v c => s.visit c v) (s.node id).children
          (fun c hc u hu => ih c (s.lt_of_mem_children hc) u hu) (hv.meet id)
        refine ⟨⟨hext.consistent, fun c hc => hext.subset (by simp [hc]), ?_⟩,
          hext.subset (by simp)⟩
        intro c hc hnot
        by_cases hcid : c = id
        · subst hcid
          exact hmem
        · exact hext.children c hc (by simp [hcid, hnot])

/-- The walk meets everything that the roots reach. -/
theorem mem_preorder_of_reaches {roots : List TermId} {root id : TermId}
    (hroot : root ∈ roots) (h : s.Reaches root id) : id ∈ s.preorder roots := by
  have hempty : Consistent ⟨∅, []⟩ := by intro c; simp
  obtain ⟨hext, hmem⟩ := extends_foldl (s := s) (fun v root => s.visit root v) roots
    (fun r _ v hv => extends_visit s r v hv) hempty
  rw [preorder, List.mem_reverse]
  induction h with
  | refl => exact hmem hroot
  | tail _ hc ih => exact hext.children _ ih (by simp) hc

end Store

end TermGraph
