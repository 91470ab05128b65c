import Mathlib
import TermGraph.Proofs.Term.Reach
import TermGraph.Term.Build

/-!
# Maximal sharing

Unfolding a node through its parts gives a tree.  A store compares only single layers
when it takes in a node, yet two of its nodes never unfold to one tree: by induction on
the identity the parts of two such nodes are the same nodes, so the two layers are equal,
and equal layers are stored once.  Every way to build terms goes through `intern`, which
only ever adds a node behind the others.
-/

namespace TermGraph

/-! ## Layers -/

namespace Node

variable {α β : Type}

theorem childrenWithDepth_map (f : Nat → α → β) (n : Node α) :
    (n.map f).childrenWithDepth = n.childrenWithDepth.map fun p => (f p.2 p.1, p.2) := by
  cases n with
  | constant i ty body => cases body <;> rfl
  | _ => simp [map, traverse, childrenWithDepth, Function.comp_def]

theorem children_map (f : α → β) (n : Node α) :
    (n.map fun _ => f).children = n.children.map f := by
  rw [children, children, childrenWithDepth_map, List.map_map, List.map_map]
  rfl

theorem map_congr {f g : Nat → α → β} {n : Node α}
    (h : ∀ p ∈ n.childrenWithDepth, f p.2 p.1 = g p.2 p.1) : n.map f = n.map g := by
  have hlist : ∀ cs : List α, (∀ c ∈ cs, (c, 0) ∈ n.childrenWithDepth) →
      cs.map (f 0) = cs.map (g 0) :=
    fun _ hcs => List.map_congr_left fun c hc => h (c, 0) (hcs c hc)
  have hnamed : ∀ {γ : Type} (ps : List (γ × α)), (∀ p ∈ ps, (p.2, 0) ∈ n.childrenWithDepth) →
      ps.map (fun p => (p.1, f 0 p.2)) = ps.map fun p => (p.1, g 0 p.2) :=
    fun _ hps => List.map_congr_left fun p hp => Prod.ext rfl (h (p.2, 0) (hps p hp))
  cases n with
  | constant i ty body =>
      cases body <;> simpa [map, traverse, childrenWithDepth] using h
  | recordType fs | record fs =>
      have hfs := hnamed fs fun p hp => by simpa [childrenWithDepth] using ⟨p.1, hp⟩
      simpa [map, traverse] using hfs
  | array ty es =>
      have hty := h (ty, 0) (by simp [childrenWithDepth])
      have hes := hlist es fun c hc => by simp [childrenWithDepth, hc]
      simpa [map, traverse, hty] using hes
  | data i ps xs | ctor i ps xs =>
      have hps := hlist ps fun c hc => by simp [childrenWithDepth, hc]
      have hxs := hlist xs fun c hc => by simp [childrenWithDepth, hc]
      simpa [map, traverse] using And.intro hps hxs
  | recursor i ps mo order cs =>
      have hps := hlist ps fun c hc => by simp [childrenWithDepth, hc]
      have hmo := h (mo, 0) (by simp [childrenWithDepth])
      have hcs := hnamed cs fun p hp => by
        simpa [childrenWithDepth] using Or.inr (Or.inr ⟨p.1, hp⟩)
      simpa [map, traverse, hmo] using And.intro hps hcs
  | global _ | bound _ | sort _ _ | nat _ | string _ | bool _ | unit | unitType => rfl
  | _ => simpa [map, traverse, childrenWithDepth] using h

theorem map_map {γ : Type} (f : Nat → α → β) (g : Nat → β → γ) (n : Node α) :
    (n.map f).map g = n.map fun d c => g d (f d c) := by
  cases n with
  | constant i ty body => cases body <;> rfl
  | _ => simp [map, traverse, Function.comp_def]

theorem map_self (n : Node α) : (n.map fun _ c => c) = n := by
  cases n with
  | constant i ty body => cases body <;> rfl
  | _ => simp [map, traverse]

theorem map_eq_bound {f : Nat → α → β} {n : Node α} {i : Nat} :
    n.map f = .bound i ↔ n = .bound i := by
  cases n with
  | constant x ty body => cases body <;> simp [map, traverse]
  | _ => simp [map, traverse]

/-- A part stands under some binders of the layer. -/
theorem mem_children_of_mem {n : Node α} {p : α × Nat} (hp : p ∈ n.childrenWithDepth) :
    p.1 ∈ n.children :=
  List.mem_map_of_mem hp

/-- Replacing the parts and putting them back gives the same layer. -/
theorem map_map_of_inverse {f : α → β} {g : β → α} {n : Node α}
    (h : ∀ c ∈ n.children, g (f c) = c) : ((n.map fun _ => f).map fun _ => g) = n := by
  rw [map_map, map_congr (g := fun _ c => c) fun p hp => h p.1 (mem_children_of_mem hp),
    map_self]

/-- Two layers that look alike once their parts are renamed are equal, if no part of one
gets the name of another part of the other. -/
theorem eq_of_map_eq [Nonempty α] {f : α → β} {n m : Node α}
    (hnm : (n.map fun _ => f) = m.map fun _ => f)
    (h : ∀ c ∈ n.children, ∀ d ∈ m.children, f c = f d → c = d) : n = m := by
  have hchildren : n.children.map f = m.children.map f := by
    rw [← children_map, ← children_map, hnm]
  let g : β → α := Function.invFunOn f {c | c ∈ n.children}
  have hgm : ∀ d ∈ m.children, g (f d) = d := by
    intro d hd
    have hfd : f d ∈ n.children.map f := hchildren ▸ List.mem_map_of_mem hd
    have hex : ∃ c ∈ {c | c ∈ n.children}, f c = f d := List.mem_map.mp hfd
    exact h _ (Function.invFunOn_mem hex) d hd (Function.invFunOn_eq hex)
  have hgn : ∀ c ∈ n.children, g (f c) = c := by
    intro c hc
    have hfc : f c ∈ m.children.map f := hchildren ▸ List.mem_map_of_mem hc
    obtain ⟨d, hd, hdc⟩ := List.mem_map.mp hfc
    rw [← hdc, hgm d hd]
    exact (h c hc d hd hdc.symm).symm
  calc n = (n.map fun _ => f).map fun _ => g := (map_map_of_inverse hgn).symm
    _ = (m.map fun _ => f).map fun _ => g := by rw [hnm]
    _ = m := map_map_of_inverse hgm

end Node

/-! ## Trees -/

/-- A whole term: a layer whose parts are terms. -/
inductive Tree where
  | node (layer : Node Tree)

namespace Store

/-- The tree of a term. -/
def unfold (s : Store) (id : TermId) : Tree :=
  .node ((s.node id).map fun _ c =>
    -- A part is always older than its node.
    if _ : c < id then s.unfold c else .node .unit)
termination_by id

variable {s : Store}

theorem unfold_eq (s : Store) (id : TermId) :
    s.unfold id = .node ((s.node id).map fun _ => s.unfold) := by
  rw [unfold]
  refine congrArg Tree.node (Node.map_congr fun p hp => ?_)
  rw [dif_pos (s.lt_of_mem_children (Node.mem_children_of_mem hp))]

/-- A node is stored once. -/
theorem eq_of_node_eq {i j : TermId} (hi : i < s.size) (hj : j < s.size)
    (h : s.node i = s.node j) : i = j := by
  have hget : ∀ {k : TermId}, k < s.size → s.nodes[k]? = some (s.node k) := by
    intro k hk
    rw [node, Array.getD_eq_getD_getElem?, Array.getElem?_eq_getElem hk, Option.getD_some]
  have hindex := (s.index_eq (s.node i) i).mpr (hget hi)
  rw [h, (s.index_eq (s.node j) j).mpr (hget hj)] at hindex
  exact (Option.some.inj hindex).symm

/-- Two stored nodes with one tree are one node. -/
theorem eq_of_unfold_eq {i : TermId} (hi : i < s.size) :
    ∀ {j : TermId}, j < s.size → s.unfold i = s.unfold j → i = j := by
  induction i using Nat.strong_induction_on with
  | _ i ih =>
      intro j hj h
      rw [unfold_eq, unfold_eq, Tree.node.injEq] at h
      refine eq_of_node_eq hi hj (Node.eq_of_map_eq h fun c hc d hd hcd => ?_)
      have hci := s.lt_of_mem_children hc
      have hdj := s.lt_of_mem_children hd
      exact ih c hci (lt_trans hci hi) (lt_trans hdj hj) hcd

end Store

end TermGraph
