import Mathlib
import TermGraph.Proofs.Term.LooseVars

/-!
# Lifting is the shift

On trees the shift raises the indices that point past a cutoff, and the cutoff grows by
one under every binder.  Lifting does the same to a stored term, layer by layer, and
stops early where the kept loose variables say that nothing would change.  Layers are
rebuilt while the store grows, so a result is described by its tree, which later nodes do
not affect; that two ways of lifting end in one node then is a fact about trees, because
no tree is stored twice.
-/

namespace TermGraph

/-! ## Trees -/

namespace Tree

theorem sizeOf_snd_lt {γ : Type} [SizeOf γ] {ps : List (γ × Tree)} {t : Tree}
    (h : t ∈ ps.map (·.2)) : sizeOf t < sizeOf ps := by
  obtain ⟨p, hp, rfl⟩ := List.mem_map.mp h
  have hpair := List.sizeOf_lt_of_mem hp
  have hsnd : sizeOf p.2 < sizeOf p := by
    rw [Prod.mk.sizeOf_spec p.1 p.2]
    omega
  exact lt_trans hsnd hpair

/-- A part of a layer is smaller than the layer. -/
theorem sizeOf_lt_of_mem_children {n : Node Tree} {t : Tree} (h : t ∈ n.children) :
    sizeOf t < sizeOf n := by
  have hlist : ∀ ts : List Tree, t ∈ ts → sizeOf t < sizeOf ts :=
    fun _ => List.sizeOf_lt_of_mem
  cases n with
  | constant i ty body =>
      cases body <;> simp [Node.children, Node.childrenWithDepth] at h ⊢ <;> grind
  | recordType fs | record fs =>
      have hfs : sizeOf t < sizeOf fs :=
        sizeOf_snd_lt (by simpa [Node.children, Node.childrenWithDepth] using h)
      simp only [Node.recordType.sizeOf_spec, Node.record.sizeOf_spec]
      omega
  | array ty es =>
      have hes := hlist es
      simp [Node.children, Node.childrenWithDepth] at h ⊢
      grind
  | data i ps xs | ctor i ps xs =>
      have hps := hlist ps
      have hxs := hlist xs
      simp [Node.children, Node.childrenWithDepth] at h ⊢
      grind
  | recursor i ps mo order cs =>
      have hps := hlist ps
      have hcs : t ∈ cs.map (·.2) → sizeOf t < sizeOf cs := sizeOf_snd_lt
      simp [Node.children, Node.childrenWithDepth] at h hcs ⊢
      grind
  | _ => simp [Node.children, Node.childrenWithDepth] at h ⊢ <;> grind

/-- What holds of a layer once it holds of the parts holds of every tree. -/
theorem induct {P : Tree → Prop}
    (step : ∀ n : Node Tree, (∀ p ∈ n.childrenWithDepth, P p.1) → P (.node n)) (t : Tree) :
    P t :=
  match t with
  | .node n => step n fun p hp =>
      have := sizeOf_lt_of_mem_children (Node.mem_children_of_mem hp)
      induct step p.1
termination_by sizeOf t
decreasing_by
  simp only [Tree.node.sizeOf_spec]
  omega

/-- Raises by `amount` the indices that point at least `cutoff` binders past the tree. -/
noncomputable def shift (amount cutoff : Nat) : Tree → Tree
  | .node (.bound i) => .node (.bound (if i < cutoff then i else i + amount))
  | .node n => .node (n.map fun d t =>
      -- A part is always smaller than its layer.
      if _ : sizeOf t < sizeOf n then t.shift amount (cutoff + d) else t)
termination_by t => sizeOf t
decreasing_by
  simp only [Tree.node.sizeOf_spec]
  omega

theorem shift_bound (amount cutoff i : Nat) :
    (Tree.node (.bound i)).shift amount cutoff =
      .node (.bound (if i < cutoff then i else i + amount)) := by
  rw [shift]

theorem shift_node {n : Node Tree} (hn : ∀ i, n ≠ .bound i) (amount cutoff : Nat) :
    (Tree.node n).shift amount cutoff =
      .node (n.map fun d t => t.shift amount (cutoff + d)) := by
  rw [shift]
  · refine congrArg Tree.node (Node.map_congr fun p hp => ?_)
    rw [dif_pos (sizeOf_lt_of_mem_children (Node.mem_children_of_mem hp))]
  · exact hn

/-- A shift leaves a tree alone if all its free indices are below the cutoff. -/
theorem shift_eq_self {amount : Nat} (t : Tree) :
    ∀ {cutoff : Nat}, (∀ i, t.Free i → i < cutoff) → t.shift amount cutoff = t := by
  induction t using induct with
  | step n ih =>
      intro cutoff hfree
      by_cases hbound : ∃ i, n = .bound i
      · obtain ⟨i, rfl⟩ := hbound
        have hlt : i < cutoff := hfree i (free_bound.mpr rfl)
        rw [shift_bound, if_pos hlt]
      · rw [shift_node (not_exists.mp hbound), Node.map_congr (g := fun _ t => t), Node.map_self]
        intro p hp
        refine ih p hp fun i hi => ?_
        -- An index of the part below its binders is below the raised cutoff anyway.
        by_cases hpi : i < p.2
        · omega
        · have hpart : p.1.Free (i - p.2 + p.2) := by rwa [Nat.sub_add_cancel (not_lt.mp hpi)]
          have hlt := hfree (i - p.2) (free_node.mpr (Or.inr ⟨p, hp, hpart⟩))
          omega

theorem shift_zero (t : Tree) : ∀ cutoff : Nat, t.shift 0 cutoff = t := by
  induction t using induct with
  | step n ih =>
      intro cutoff
      by_cases hbound : ∃ i, n = .bound i
      · obtain ⟨i, rfl⟩ := hbound
        rw [shift_bound, Nat.add_zero, ite_self]
      · rw [shift_node (not_exists.mp hbound), Node.map_congr (g := fun _ t => t), Node.map_self]
        exact fun p hp => ih p hp _

/-- Shifting twice shifts by the sum: an index that the first shift raised is past the
cutoff of the second, and one that it left is below. -/
theorem shift_shift (j k : Nat) (t : Tree) :
    ∀ cutoff : Nat, (t.shift j cutoff).shift k cutoff = t.shift (j + k) cutoff := by
  induction t using induct with
  | step n ih =>
      intro cutoff
      by_cases hbound : ∃ i, n = .bound i
      · obtain ⟨i, rfl⟩ := hbound
        simp only [shift_bound]
        by_cases hi : i < cutoff
        · simp only [if_pos hi]
        · rw [if_neg hi, if_neg (by omega), if_neg hi, Nat.add_assoc]
      · have hn := not_exists.mp hbound
        rw [shift_node hn, shift_node fun i hi => hn i (Node.map_eq_bound.mp hi), shift_node hn,
          Node.map_map]
        exact congrArg Tree.node (Node.map_congr fun p hp => ih p hp _)

/-- The free indices of a shifted tree are the shifted free indices. -/
theorem free_shift {k : Nat} (t : Tree) : ∀ {cutoff i : Nat}, (t.shift k cutoff).Free i ↔
    ∃ j, t.Free j ∧ i = if j < cutoff then j else j + k := by
  induction t using induct with
  | step n ih =>
      intro cutoff i
      by_cases hbound : ∃ j, n = .bound j
      · obtain ⟨j, rfl⟩ := hbound
        simp only [shift_bound, free_bound, exists_eq_left]
      · have hn := not_exists.mp hbound
        simp only [shift_node hn, free_node, Node.map_eq_bound, hn, false_or,
          Node.childrenWithDepth_map, List.mem_map, exists_exists_and_eq_and]
        constructor
        · rintro ⟨p, hp, hfree⟩
          obtain ⟨j, hj, hij⟩ := (ih p hp).mp hfree
          -- Only indices past the binders in front of the part come from outside.
          have hle : p.2 ≤ j := by split at hij <;> omega
          refine ⟨j - p.2, ⟨p, hp, by rwa [Nat.sub_add_cancel hle]⟩, ?_⟩
          split at hij <;> split <;> omega
        · rintro ⟨j, ⟨p, hp, hj⟩, rfl⟩
          refine ⟨p, hp, (ih p hp).mpr ⟨j + p.2, hj, ?_⟩⟩
          split <;> split <;> omega

end Tree

/-! ## Trees in a growing store -/

namespace Store

variable {s s' : Store}

/-- What is stored keeps its tree. -/
theorem Extends.unfold_eq (h : s.Extends s') {id : TermId} (hid : id < s.size) :
    s'.unfold id = s.unfold id := by
  induction id using Nat.strong_induction_on with
  | _ id ih =>
      rw [Store.unfold_eq, Store.unfold_eq, h.node_eq id hid]
      refine congrArg Tree.node (Node.map_congr fun p hp => ?_)
      have hlt := s.lt_of_mem_children (Node.mem_children_of_mem hp)
      exact ih p.1 hlt (lt_trans hlt hid)

/-- The term is stored and has the tree. -/
structure Spells (s : Store) (id : TermId) (t : Tree) : Prop where
  lt_size : id < s.size
  unfold_eq : s.unfold id = t

theorem spells_unfold {id : TermId} (hid : id < s.size) : s.Spells id (s.unfold id) :=
  ⟨hid, rfl⟩

theorem Spells.mono {id : TermId} {t : Tree} (h : s.Spells id t) (hext : s.Extends s') :
    s'.Spells id t where
  lt_size := lt_of_lt_of_le h.lt_size hext.size_le
  unfold_eq := (hext.unfold_eq h.lt_size).trans h.unfold_eq

/-- One tree is stored under one identity. -/
theorem Spells.eq {i j : TermId} {t : Tree} (hi : s.Spells i t) (hj : s.Spells j t) : i = j :=
  eq_of_unfold_eq hi.lt_size hj.lt_size (hi.unfold_eq.trans hj.unfold_eq.symm)

/-- A layer of stored parts, whose trees make up the given layer. -/
structure SpellsLayer (s : Store) (n : Node TermId) (layer : Node Tree) : Prop where
  lt_size : ∀ c ∈ n.children, c < s.size
  map_eq : (n.map fun _ => s.unfold) = layer

end Store

/-! ## Computations that make something -/

namespace Build

open Store

variable {α β γ δ : Type} {s : Store}

/-- Started in `s` or later, the computation only adds nodes, and its result is as
described in the store it ends in and in every later one. -/
def Makes (s : Store) (m : Build α) (R : Store → α → Prop) : Prop :=
  ∀ t, s.Extends t → t.Extends (m t).2 ∧ ∀ u, (m t).2.Extends u → R u (m t).1

theorem Makes.later {s' : Store} {m : Build α} {R : Store → α → Prop} (h : Makes s m R)
    (hs : s.Extends s') : Makes s' m R :=
  fun t ht => h t (hs.trans ht)

theorem Makes.imp {m : Build α} {P R : Store → α → Prop} (h : Makes s m P)
    (hPR : ∀ t a, s.Extends t → P t a → R t a) : Makes s m R := by
  intro t ht
  obtain ⟨hext, hP⟩ := h t ht
  exact ⟨hext, fun u hu => hPR u _ (ht.trans (hext.trans hu)) (hP u hu)⟩

theorem makes_pure {a : α} {R : Store → α → Prop} (h : ∀ t, s.Extends t → R t a) :
    Makes s (pure a) R :=
  fun t ht => ⟨.refl t, fun u hu => h u (ht.trans hu)⟩

theorem makes_get_bind {f : Store → Build α} {R : Store → α → Prop}
    (hf : ∀ t, s.Extends t → Makes t (f t) R) : Makes s (get >>= f) R :=
  fun t ht => hf t ht t (.refl t)

theorem makes_bind {m : Build α} {f : α → Build β} {P : Store → α → Prop}
    {R : Store → β → Prop} (hm : Makes s m P)
    (hf : ∀ t a, s.Extends t → (∀ u, t.Extends u → P u a) → Makes t (f a) R) :
    Makes s (m >>= f) R := by
  intro t ht
  obtain ⟨hmid, hP⟩ := hm t ht
  obtain ⟨hend, hR⟩ := hf (m t).2 (m t).1 (ht.trans hmid) hP (m t).2 (.refl _)
  exact ⟨hmid.trans hend, hR⟩

theorem makes_map {m : Build α} {mk : α → β} {P : Store → α → Prop} {R : Store → β → Prop}
    (hm : Makes s m P) (h : ∀ t a, P t a → R t (mk a)) :
    Makes s (m >>= fun a => pure (mk a)) R :=
  makes_bind hm fun _ a _ hP => makes_pure fun u hu => h u a (hP u hu)

/-- Two computations in a row: what the first one made is still there after the second. -/
theorem makes_map₂ {m : Build α} {m' : Build β} {mk : α → β → γ} {P : Store → α → Prop}
    {Q : Store → β → Prop} {R : Store → γ → Prop} (hm : Makes s m P) (hm' : Makes s m' Q)
    (h : ∀ t a b, P t a → Q t b → R t (mk a b)) :
    Makes s (m >>= fun a => m' >>= fun b => pure (mk a b)) R := by
  refine makes_bind hm fun t a ht hP => makes_bind (hm'.later ht) fun u b hu hQ => ?_
  exact makes_pure fun v hv => h v a b (hP v (hu.trans hv)) (hQ v hv)

theorem makes_map₃ {m : Build α} {m' : Build β} {m'' : Build γ} {mk : α → β → γ → δ}
    {P : Store → α → Prop} {Q : Store → β → Prop} {Q' : Store → γ → Prop}
    {R : Store → δ → Prop} (hm : Makes s m P) (hm' : Makes s m' Q) (hm'' : Makes s m'' Q')
    (h : ∀ t a b c, P t a → Q t b → Q' t c → R t (mk a b c)) :
    Makes s (m >>= fun a => m' >>= fun b => m'' >>= fun c => pure (mk a b c)) R := by
  refine makes_bind hm fun t a ht hP => ?_
  refine makes_map₂ (P := fun u b => P u a ∧ Q u b) (fun u hu => ?_) (hm''.later ht)
    fun u b c hab hc => h u a b c hab.1 hab.2 hc
  obtain ⟨hext, hQ⟩ := hm' u (ht.trans hu)
  exact ⟨hext, fun v hv => ⟨hP v (hu.trans (hext.trans hv)), hQ v hv⟩⟩

/-- Computations for the entries of a list, if what is read off a result does not change
any more: reading the results gives what was wanted for each entry. -/
theorem makes_mapM {f : α → Build β} {as : List α} (known : β → TermId)
    (view : Store → β → γ) (want : α → γ)
    (h : ∀ a ∈ as, Makes s (f a) fun t b => known b < t.size ∧ view t b = want a) :
    Makes s (as.mapM f) fun t bs =>
      (∀ c ∈ bs.map known, c < t.size) ∧ bs.map (view t) = as.map want := by
  induction as with
  | nil => exact makes_pure fun t _ => ⟨by simp, rfl⟩
  | cons a as ih =>
      rw [List.mapM_cons]
      refine makes_map₂ (h a List.mem_cons_self)
        (ih fun a' ha' => h a' (List.mem_cons_of_mem a ha')) fun t b bs hb hbs => ?_
      constructor
      · rw [List.map_cons, List.forall_mem_cons]
        exact ⟨hb.1, hbs.1⟩
      · rw [List.map_cons, List.map_cons, hb.2, hbs.2]

/-- The node that `intern` hands out is the node it was given. -/
theorem makes_intern {n : Node TermId} (known : ∀ c ∈ n.children, c < s.size) :
    Makes s (intern n) fun t id => id < t.size ∧ t.node id = n := by
  intro t ht
  have hknown : ∀ c ∈ n.children, c < t.nodes.size :=
    fun c hc => lt_of_lt_of_le (known c hc) ht.size_le
  -- Either the node is found where the index says, or it goes behind the others.
  have hstored : (intern n t).1 < (intern n t).2.size ∧
      (intern n t).2.node (intern n t).1 = n := by
    unfold intern
    split
    · rename_i id hid
      have hget := (t.index_eq n id).mp hid
      refine ⟨(Array.getElem?_eq_some_iff.mp hget).1, ?_⟩
      show t.nodes.getD id .unit = n
      rw [Array.getD_eq_getD_getElem?, hget, Option.getD_some]
    · rw [dif_pos hknown]
      constructor
      · show t.nodes.size < (t.nodes.push n).size
        rw [Array.size_push]
        exact Nat.lt_succ_self _
      · show (t.nodes.push n).getD t.nodes.size .unit = n
        rw [Array.getD_eq_getD_getElem?, Array.getElem?_push_size, Option.getD_some]
  refine ⟨grows_intern n t, fun u hu => ⟨lt_of_lt_of_le hstored.1 hu.size_le, ?_⟩⟩
  rw [hu.node_eq _ hstored.1, hstored.2]

theorem makes_intern_layer {n : Node TermId} {layer : Node Tree} (h : s.SpellsLayer n layer) :
    Makes s (intern n) fun t id => t.Spells id (.node layer) := by
  refine (makes_intern h.lt_size).imp fun u id hu hid => ⟨hid.1, ?_⟩
  rw [unfold_eq, hid.2, ← h.map_eq]
  refine congrArg Tree.node (Node.map_congr fun p hp => ?_)
  exact hu.unfold_eq (h.lt_size p.1 (Node.mem_children_of_mem hp))

/-! ## Layers -/

/-- Rebuilding the parts of a layer rebuilds the layer: the parts are made one after the
other, and the earlier ones are kept while the later ones are made. -/
theorem makes_traverse {f : Nat → TermId → Build TermId} {g : Nat → TermId → Tree}
    {n : Node TermId} (hf : ∀ p ∈ n.childrenWithDepth,
      Makes s (f p.2 p.1) fun t id => t.Spells id (g p.2 p.1)) :
    Makes s (n.traverse f) fun t m => t.SpellsLayer m (n.map g) := by
  have hone : ∀ {c : TermId} {d : Nat}, (c, d) ∈ n.childrenWithDepth →
      Makes s (f d c) fun t id => id < t.size ∧ t.unfold id = g d c := by
    intro c d hp t ht
    obtain ⟨hext, hspells⟩ := hf (c, d) hp t ht
    exact ⟨hext, fun u hu => ⟨(hspells u hu).lt_size, (hspells u hu).unfold_eq⟩⟩
  have hlist : ∀ cs : List TermId, (∀ c ∈ cs, (c, 0) ∈ n.childrenWithDepth) →
      Makes s (cs.mapM (f 0)) fun t ids =>
        (∀ c ∈ ids, c < t.size) ∧ ids.map t.unfold = cs.map (g 0) := by
    intro cs hcs
    have hmakes := makes_mapM (s := s) id _ _ fun c hc => hone (hcs c hc)
    simpa only [List.map_id] using hmakes
  have hnamed : ∀ {γ : Type} (ps : List (γ × TermId)),
      (∀ p ∈ ps, (p.2, 0) ∈ n.childrenWithDepth) →
      Makes s (ps.mapM fun p => do return (p.1, ← f 0 p.2)) fun t qs =>
        (∀ c ∈ qs.map Prod.snd, c < t.size) ∧
          qs.map (fun q => (q.1, t.unfold q.2)) = ps.map fun p => (p.1, g 0 p.2) :=
    fun ps hps => makes_mapM Prod.snd _ _ fun p hp =>
      makes_map (hone (hps p hp)) fun t id hid => ⟨hid.1, congrArg (Prod.mk p.1) hid.2⟩
  cases n with
  | global i | bound i | sort l fl | nat k | string t | bool b | unit | unitType =>
      exact makes_pure fun t _ => ⟨by simp [Node.children, Node.childrenWithDepth], rfl⟩
  | constant i ty body =>
      have hty := hone (c := ty) (d := 0) (by cases body <;> simp [Node.childrenWithDepth])
      cases body with
      | none =>
          refine makes_map hty fun t ty' hty' => ?_
          exact ⟨by simp [Node.children, Node.childrenWithDepth, hty'],
            by simp [Node.map, Node.traverse, hty']⟩
      | some b =>
          have hb := hone (c := b) (d := 0) (by simp [Node.childrenWithDepth])
          refine makes_map₂ hty hb fun t ty' b' hty' hb' => ?_
          exact ⟨by simp [Node.children, Node.childrenWithDepth, hty', hb'],
            by simp [Node.map, Node.traverse, hty', hb']⟩
  | free x a | pairLeft a | pairRight a | proj a x =>
      have ha := hone (c := a) (d := 0) (by simp [Node.childrenWithDepth])
      refine makes_map ha fun t a' ha' => ?_
      exact ⟨by simp [Node.children, Node.childrenWithDepth, ha'],
        by simp [Node.map, Node.traverse, ha']⟩
  | app a b | pair a b | pairType a b =>
      have ha := hone (c := a) (d := 0) (by simp [Node.childrenWithDepth])
      have hb := hone (c := b) (d := 0) (by simp [Node.childrenWithDepth])
      refine makes_map₂ ha hb fun t a' b' ha' hb' => ?_
      exact ⟨by simp [Node.children, Node.childrenWithDepth, ha', hb'],
        by simp [Node.map, Node.traverse, ha', hb']⟩
  | recordType fs | record fs =>
      have hfs := hnamed fs fun p hp => by simpa [Node.childrenWithDepth] using ⟨p.1, hp⟩
      refine makes_map hfs fun t fs' hfs' => ?_
      constructor
      · rw [Node.children, Node.childrenWithDepth, List.map_map]
        exact hfs'.1
      · simpa [Node.map, Node.traverse] using hfs'.2
  | array ty es =>
      have hty := hone (c := ty) (d := 0) (by simp [Node.childrenWithDepth])
      have hes := hlist es fun c hc => by simp [Node.childrenWithDepth, hc]
      refine makes_map₂ hty hes fun t ty' es' hty' hes' => ?_
      exact ⟨by simpa [Node.children, Node.childrenWithDepth, hty'] using hes'.1,
        by simpa [Node.map, Node.traverse, hty'] using hes'.2⟩
  | data i ps xs | ctor i ps xs =>
      have hps := hlist ps fun c hc => by simp [Node.childrenWithDepth, hc]
      have hxs := hlist xs fun c hc => by simp [Node.childrenWithDepth, hc]
      refine makes_map₂ hps hxs fun t ps' xs' hps' hxs' => ?_
      constructor
      · simp only [Node.children, Node.childrenWithDepth, List.map_append, List.map_map,
          Function.comp_def, List.map_id', List.forall_mem_append]
        exact ⟨hps'.1, hxs'.1⟩
      · simpa [Node.map, Node.traverse] using And.intro hps'.2 hxs'.2
  | recursor i ps mo order cs =>
      have hps := hlist ps fun c hc => by simp [Node.childrenWithDepth, hc]
      have hmo := hone (c := mo) (d := 0) (by simp [Node.childrenWithDepth])
      have hcs := hnamed cs fun p hp => by
        simpa [Node.childrenWithDepth] using Or.inr (Or.inr ⟨p.1, hp⟩)
      refine makes_map₃ hps hmo hcs fun t ps' mo' cs' hps' hmo' hcs' => ?_
      constructor
      · simp only [Node.children, Node.childrenWithDepth, List.map_append, List.map_cons,
          List.map_map, Function.comp_def, List.map_id', List.forall_mem_append,
          List.forall_mem_cons]
        exact ⟨hps'.1, hmo'.1, hcs'.1⟩
      · simpa [Node.map, Node.traverse, hmo'] using And.intro hps'.2 hcs'.2
  | lam x ty b | pi x ty b | fix x ty b =>
      have hty := hone (c := ty) (d := 0) (by simp [Node.childrenWithDepth])
      have hb := hone (c := b) (d := 1) (by simp [Node.childrenWithDepth])
      refine makes_map₂ hty hb fun t ty' b' hty' hb' => ?_
      exact ⟨by simp [Node.children, Node.childrenWithDepth, hty', hb'],
        by simp [Node.map, Node.traverse, hty', hb']⟩
  | letIn x ty v b =>
      have hty := hone (c := ty) (d := 0) (by simp [Node.childrenWithDepth])
      have hv := hone (c := v) (d := 0) (by simp [Node.childrenWithDepth])
      have hb := hone (c := b) (d := 1) (by simp [Node.childrenWithDepth])
      refine makes_map₃ hty hv hb fun t ty' v' b' hty' hv' hb' => ?_
      exact ⟨by simp [Node.children, Node.childrenWithDepth, hty', hv', hb'],
        by simp [Node.map, Node.traverse, hty', hv', hb']⟩

/-- Lifting shifts, by induction on the lifted term.  It stops where the term has no loose
index past the cutoff, and there the shift changes nothing. -/
theorem makes_liftAbove (amount : Nat) (id : TermId) : ∀ cutoff : Nat, id < s.size →
    Makes s (liftAbove amount cutoff id) fun t r =>
      t.Spells r ((s.unfold id).shift amount cutoff) := by
  induction id using Nat.strong_induction_on with
  | _ id ih =>
      intro cutoff hid
      rw [liftAbove]
      refine makes_get_bind fun t ht => ?_
      -- The store may have grown, but the term and its loose variables are the same.
      rw [ht.node_eq id hid, ht.looseVars_eq id hid]
      split
      · rename_i hstop
        have hself : (s.unfold id).shift amount cutoff = s.unfold id := by
          rw [Bool.or_eq_true, decide_eq_true_eq, List.all_eq_true] at hstop
          rcases hstop with rfl | hbelow
          · exact Tree.shift_zero _ _
          · refine Tree.shift_eq_self _ fun i hi => ?_
            exact of_decide_eq_true (hbelow i (mem_looseVars_iff.mpr hi))
        refine makes_pure fun u hu => ?_
        rw [hself]
        exact (spells_unfold hid).mono (ht.trans hu)
      · rename_i hgo
        rw [Store.unfold_eq]
        split
        · rename_i i hnode
          have hle : ¬i < cutoff := by
            intro hlt
            simp [looseVars_of_node_bound hnode, hlt] at hgo
          have hshift : (Tree.node ((s.node id).map fun _ => s.unfold)).shift amount cutoff =
              .node (.bound (i + amount)) := by
            rw [Node.map_eq_bound.mpr hnode, Tree.shift_bound, if_neg hle]
          rw [hshift]
          exact makes_intern_layer ⟨by simp [Node.children, Node.childrenWithDepth], rfl⟩
        · rename_i hbound
          -- Parts are lifted one after the other, each past the binders in front of it.
          rw [Tree.shift_node (fun i hi => hbound i (Node.map_eq_bound.mp hi)), Node.map_map]
          refine makes_bind (makes_traverse (g := fun d c => (s.unfold c).shift amount (cutoff + d))
            fun p hp => ?_) fun u n hu hn => makes_intern_layer (hn u (.refl u))
          have hlt := s.lt_of_mem_children (Node.mem_children_of_mem hp)
          rw [dif_pos hlt]
          exact (ih p.1 hlt _ (lt_trans hlt hid)).later ht

end Build

namespace Store

variable {s : Store} {id : TermId}

/-! ## What lifting gives -/

theorem spells_lift {t : Tree} (h : s.Spells id t) (k : Nat) :
    (lift id k s).2.Spells (lift id k s).1 (t.shift k 0) := by
  have hmakes := Build.makes_liftAbove k id 0 h.lt_size s (.refl s)
  rw [h.unfold_eq] at hmakes
  exact hmakes.2 _ (.refl _)

/-- Lifting finds the shifted tree wherever it is stored. -/
theorem lift_eq_of_spells {t : Tree} {k r : Nat} (h : s.Spells id t)
    (hr : s.Spells r (t.shift k 0)) : (lift id k s).1 = r :=
  (spells_lift h k).eq (hr.mono (Build.grows_lift id k s))

theorem looseVars_lift (hid : id < s.size) (k : Nat) :
    (lift id k s).2.looseVars (lift id k s).1 = (s.looseVars id).map (· + k) := by
  have hspells := spells_lift (spells_unfold hid) k
  have hascending : ((s.looseVars id).map (· + k)).Pairwise (· < ·) := by
    rw [List.pairwise_map]
    exact (s.ascending_looseVars id).imp fun hlt => Nat.add_lt_add_right hlt k
  refine List.Pairwise.eq_of_mem_iff (ascending_looseVars _ _) hascending fun i => ?_
  rw [mem_looseVars_iff, hspells.unfold_eq, Tree.free_shift]
  simp only [Nat.not_lt_zero, if_false, List.mem_map, mem_looseVars_iff]
  exact exists_congr fun j => and_congr_right fun _ => eq_comm

/-- Nothing is built where nothing changes. -/
theorem lift_eq_self {k : Nat} (h : s.isClosed id = true ∨ k = 0) : lift id k s = (id, s) := by
  have hstop : (decide (k = 0) || (s.looseVars id).all (· < 0)) = true := by
    rcases h with h | rfl
    · rw [isClosed, List.isEmpty_iff] at h
      rw [h, List.all_nil, Bool.or_true]
    · rfl
  rw [lift, liftAbove]
  show (if (decide (k = 0) || (s.looseVars id).all (· < 0)) = true then pure id
    else _ : Build TermId) s = (id, s)
  rw [if_pos hstop]
  rfl

/-- The result type of an arrow is the shifted target, which does not use the new binder. -/
theorem arrow_result {source target : TermId} (hsource : source < s.size)
    (htarget : target < s.size) :
    ∃ body, (Build.arrow source target s).2.node (Build.arrow source target s).1 =
        .pi "_" source body ∧
      (Build.arrow source target s).2.unfold body = (s.unfold target).shift 1 0 ∧
        (Build.arrow source target s).2.hasLoose body 0 = false := by
  have harrow : Build.arrow source target s =
      intern (.pi "_" source (lift target 1 s).1) (lift target 1 s).2 := rfl
  have hspells := spells_lift (spells_unfold htarget) 1
  have hgrows := Build.grows_lift target 1 s
  have hknown : ∀ c ∈ (Node.pi "_" source (lift target 1 s).1).children,
      c < (lift target 1 s).2.size := by
    simp only [Node.children, Node.childrenWithDepth, List.map_cons, List.map_nil,
      List.forall_mem_cons]
    exact ⟨lt_of_lt_of_le hsource hgrows.size_le, hspells.lt_size, by simp⟩
  obtain ⟨hext, hnode⟩ := Build.makes_intern hknown _ (.refl _)
  have hbody := hspells.mono hext
  rw [harrow]
  refine ⟨(lift target 1 s).1, (hnode _ (.refl _)).2, hbody.unfold_eq, ?_⟩
  rw [← Bool.not_eq_true, hasLoose_iff, hbody.unfold_eq, Tree.free_shift]
  rintro ⟨j, -, hj⟩
  rw [if_neg (Nat.not_lt_zero j)] at hj
  omega

/-- A function that passes its argument to, and takes it from, what surrounds it. -/
def openStore : Store :=
  ofNodes [.unitType, .bound 0, .bound 1, .app 2 1, .lam "x" 0 3]

theorem openStore_node : openStore.node 0 = .unitType ∧ openStore.node 1 = .bound 0 ∧
    openStore.node 2 = .bound 1 ∧ openStore.node 3 = .app 2 1 ∧
    openStore.node 4 = .lam "x" 0 3 :=
  ⟨rfl, rfl, rfl, rfl, rfl⟩

end Store

end TermGraph
