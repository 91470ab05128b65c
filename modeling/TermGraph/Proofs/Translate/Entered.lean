import Mathlib
import TermGraph.Proofs.Term.Tally

/-!
# How often a node is entered

A unit enters the value of each named subterm, and then the term itself.  From a node that
is entered it goes on to the positions that count, except for those that hold a named
subterm.  So a named subterm is entered once, and any other node as often as the nodes that
hold it.

A node that is counted once has one position that holds it.  So a node is entered at most
once, unless it is part of something that is counted more than once and has no name.
-/

namespace TermGraph

namespace Store

/-- A term shows another one through positions that count as uses. -/
def Renders (s : Store) : TermId → TermId → Prop :=
  Relation.ReflTransGen fun id c => c ∈ s.renderedChildren (s.node id)

/-- A term shows another one, and nothing from it on down to the other one has a name. -/
def Unfolds (s : Store) (ids : List TermId) : TermId → TermId → Prop :=
  Relation.ReflTransGen fun id c => c ∈ s.renderedChildren (s.node id) ∧ c ∉ ids

/-- The nodes that are entered for a node, as often as they are entered; a named subterm
of it is not. -/
def entered (s : Store) (named : TermId → Bool) (id : TermId) : List TermId :=
  id :: (s.renderedChildren (s.node id)).flatMap fun c =>
    -- A position of a node holds an older one.
    if _ : c < id then (if named c then [] else s.entered named c) else []
termination_by id

/-- The nodes that are entered for a position that holds a node. -/
def enteredAt (s : Store) (named : TermId → Bool) (id : TermId) : List TermId :=
  if named id then [] else s.entered named id

/-- The nodes that are entered for the values of named subterms, and for the term that
they belong to. -/
def enteredInUnit (s : Store) (named : TermId → Bool) (ids : List TermId) (root : TermId) :
    List TermId :=
  ids.flatMap (s.entered named) ++ s.enteredAt named root

variable {s : Store} {named : TermId → Bool} {q : TermId}

theorem lt_of_mem_renderedChildren {id c : TermId}
    (h : c ∈ s.renderedChildren (s.node id)) : c < id :=
  (strictlyWithin_of_mem_renderedChildren h).choose_spec.2

theorem entered_eq (named : TermId → Bool) (id : TermId) :
    s.entered named id =
      id :: (s.renderedChildren (s.node id)).flatMap (s.enteredAt named) := by
  rw [entered]
  congr 1
  refine List.flatMap_congr fun c hc => ?_
  rw [dif_pos (lt_of_mem_renderedChildren hc), enteredAt]

/-- A node is entered for itself and for the positions that it holds. -/
theorem count_entered_eq (named : TermId → Bool) (id q : TermId) :
    (s.entered named id).count q = (if id = q then 1 else 0) +
      ((s.renderedChildren (s.node id)).map fun c => (s.enteredAt named c).count q).sum := by
  rw [entered_eq, List.count_cons, List.count_flatMap, Nat.add_comm]
  simp only [beq_iff_eq, Function.comp_def]

/-! ## Entered nodes and the nodes that hold them -/

theorem heldBy_append (select : Node TermId → List TermId) (ps ps' : List TermId) :
    s.heldBy select (ps ++ ps') q = s.heldBy select ps q + s.heldBy select ps' q := by
  simp [heldBy]

/-- If each of several lists has a node as often as its members hold it, apart from some
more times, then so do all of them together. -/
theorem count_flatMap_of_heldBy {select : Node TermId → List TermId}
    {f : TermId → List TermId} {more : TermId → Nat} {cs : List TermId}
    (h : ∀ c ∈ cs, (f c).count q = more c + s.heldBy select (f c) q) :
    (cs.flatMap f).count q = (cs.map more).sum + s.heldBy select (cs.flatMap f) q := by
  induction cs with
  | nil => simp [heldBy]
  | cons c cs ih =>
      obtain ⟨hc, hcs⟩ := List.forall_mem_cons.mp h
      rw [List.flatMap_cons, List.count_append, hc, ih hcs, heldBy_append, List.map_cons,
        List.sum_cons]
      omega

theorem sum_map_ite_eq (cs : List TermId) (q : TermId) :
    (cs.map fun c => if c = q then 1 else 0).sum = cs.count q := by
  induction cs with
  | nil => rfl
  | cons c cs ih =>
      rw [List.map_cons, List.sum_cons, ih, List.count_cons, Nat.add_comm]
      simp

/-- Without a name, a node is entered once at the start, if it is the first one, and once
for each position of an entered node that holds it. -/
theorem count_entered (hq : named q = false) (id : TermId) :
    (s.entered named id).count q =
      (if id = q then 1 else 0) + s.heldBy s.renderedChildren (s.entered named id) q := by
  induction id using Nat.strong_induction_on with
  | _ id ih =>
      have hpart : ∀ c ∈ s.renderedChildren (s.node id), (s.enteredAt named c).count q =
          (if c = q then 1 else 0) + s.heldBy s.renderedChildren (s.enteredAt named c) q := by
        intro c hc
        unfold enteredAt
        split
        · rename_i hc
          rw [if_neg fun h => by simp [h, hq] at hc]
          rfl
        · exact ih c (lt_of_mem_renderedChildren hc)
      have hparts := count_flatMap_of_heldBy hpart
      rw [sum_map_ite_eq] at hparts
      rw [entered_eq, List.count_cons, hparts, heldBy, heldBy, List.map_cons, List.sum_cons]
      simp only [beq_iff_eq]
      omega

/-- A named subterm is only entered at the start. -/
theorem count_entered_of_named (hq : named q = true) (id : TermId) :
    (s.entered named id).count q = if id = q then 1 else 0 := by
  induction id using Nat.strong_induction_on with
  | _ id ih =>
      have hparts : ((s.renderedChildren (s.node id)).flatMap (s.enteredAt named)).count q = 0 := by
        refine List.count_eq_zero.mpr fun hmem => ?_
        obtain ⟨c, hc, hmem⟩ := List.mem_flatMap.mp hmem
        unfold enteredAt at hmem
        split at hmem
        · cases hmem
        · rename_i hnot
          have hcount := ih c (lt_of_mem_renderedChildren hc)
          rw [if_neg fun h : c = q => hnot (h ▸ hq)] at hcount
          exact List.count_eq_zero.mp hcount hmem
      rw [entered_eq, List.count_cons, hparts, Nat.zero_add]
      simp

theorem count_enteredAt (hq : named q = false) (id : TermId) :
    (s.enteredAt named id).count q =
      (if id = q then 1 else 0) + s.heldBy s.renderedChildren (s.enteredAt named id) q := by
  unfold enteredAt
  split
  · rename_i hid
    rw [if_neg fun h => by simp [h, hq] at hid]
    rfl
  · exact count_entered hq id

/-- A unit enters a node without a name once at the start, if it is the root, and once for
each position of an entered node that holds it. -/
theorem count_enteredInUnit (hq : named q = false) {ids : List TermId} (hids : q ∉ ids)
    (root : TermId) :
    (s.enteredInUnit named ids root).count q = (if root = q then 1 else 0) +
      s.heldBy s.renderedChildren (s.enteredInUnit named ids root) q := by
  have hvalues := count_flatMap_of_heldBy fun t (_ : t ∈ ids) => count_entered (s := s) hq t
  rw [sum_map_ite_eq, List.count_eq_zero.mpr hids] at hvalues
  rw [enteredInUnit, List.count_append, hvalues, count_enteredAt hq, heldBy_append]
  omega

/-- A unit enters a named subterm once. -/
theorem count_enteredInUnit_of_named {ids : List TermId} (hids : ids.Nodup)
    (hq : named q = true) (hmem : q ∈ ids) (root : TermId) :
    (s.enteredInUnit named ids root).count q = 1 := by
  have hroot : (s.enteredAt named root).count q = 0 := by
    unfold enteredAt
    split
    · rfl
    · rename_i hnot
      rw [count_entered_of_named hq, if_neg fun h : root = q => hnot (h ▸ hq)]
  have hvalues : (ids.map fun t => (s.entered named t).count q).sum = ids.count q := by
    rw [← sum_map_ite_eq]
    exact congrArg List.sum (List.map_congr_left fun t _ => count_entered_of_named hq t)
  rw [enteredInUnit, List.count_append, hroot, List.count_flatMap, Function.comp_def, hvalues,
    List.count_eq_one_of_mem hids hmem]

/-! ## Nodes that are counted once -/

section Once

variable {root : TermId} {accept : TermId → Bool}

/-- What is entered for a node is shown by it. -/
theorem renders_of_mem_entered {id c : TermId} (h : c ∈ s.entered named id) :
    s.Renders id c := by
  induction id using Nat.strong_induction_on with
  | _ id ih =>
      rw [entered_eq, List.mem_cons, List.mem_flatMap] at h
      rcases h with rfl | ⟨b, hb, h⟩
      · exact .refl
      · unfold enteredAt at h
        split at h
        · cases h
        · exact .head hb (ih b (lt_of_mem_renderedChildren hb) h)

variable {expanded : List TermId} {counts : Counts}
  (htally : Tallied s s.renderedChildren root expanded (counts, []))

include htally

omit htally in
/-- Nodes that are entered at most once each hold a node no more often than all counted
nodes do. -/
theorem heldBy_le {ps : List TermId} (hnodup : expanded.Nodup) (hsub : ∀ p ∈ ps, p ∈ expanded)
    (hone : ∀ p, q ∈ s.renderedChildren (s.node p) → ps.count p ≤ 1) :
    s.heldBy s.renderedChildren ps q ≤ s.heldBy s.renderedChildren expanded q := by
  rw [heldBy, heldBy, Finset.sum_list_map_count, ← List.sum_toFinset _ hnodup]
  refine le_trans (Finset.sum_le_sum fun p _ => ?_)
    (Finset.sum_le_sum_of_subset fun p hp =>
      List.mem_toFinset.mpr (hsub p (List.mem_toFinset.mp hp)))
  by_cases hq : q ∈ s.renderedChildren (s.node p)
  · exact (Nat.mul_le_mul_right _ (hone p hq)).trans_eq (Nat.one_mul _)
  · simp [List.count_eq_zero.mpr hq]

/-- What a unit enters has been counted. -/
theorem Tallied.mem_of_mem_enteredInUnit {ids : List TermId} (hids : ∀ t ∈ ids, t ∈ expanded)
    {p : TermId} (hp : p ∈ s.enteredInUnit named ids root) : p ∈ expanded := by
  rcases List.mem_append.mp hp with hp | hp
  · obtain ⟨t, ht, hp⟩ := List.mem_flatMap.mp hp
    exact htally.mem_of_reachesBy (hids t ht) (renders_of_mem_entered hp)
  · unfold enteredAt at hp
    split at hp
    · cases hp
    · exact htally.mem_of_reachesBy htally.root_mem (renders_of_mem_entered hp)

/-- A node without a name that is counted once is entered at most once, if the nodes that
hold it are. -/
theorem Tallied.count_enteredInUnit_le {ids : List TermId} (hids : ∀ t ∈ ids, t ∈ expanded)
    (hname : named q = false) (hnot : q ∉ ids) (hcount : counts.getD q 0 ≤ 1)
    (hone : ∀ p ∈ expanded, q ∈ s.renderedChildren (s.node p) →
      (s.enteredInUnit named ids root).count p ≤ 1) :
    (s.enteredInUnit named ids root).count q ≤ 1 := by
  have hentered : ∀ p ∈ s.enteredInUnit named ids root, p ∈ expanded :=
    fun p hp => htally.mem_of_mem_enteredInUnit hids hp
  have hheld : s.heldBy s.renderedChildren (s.enteredInUnit named ids root) q ≤
      s.heldBy s.renderedChildren expanded q := by
    refine heldBy_le (by simpa using htally.nodup) hentered fun p hp => ?_
    by_cases hmem : p ∈ expanded
    · exact hone p hmem hp
    · rw [List.count_eq_zero.mpr fun h => hmem (hentered p h)]
      exact Nat.zero_le 1
  rw [htally.count q] at hcount
  rw [count_enteredInUnit hname hnot]
  simp only [@eq_comm _ root] at hcount ⊢
  omega

end Once

/-- A node is entered at most once if every node that is counted more often, and unfolds
to it, is accepted. -/
theorem count_enteredInUnit_le_one {root n : TermId} {accept : TermId → Bool}
    (hthrough : ∀ r k, (r, k) ∈ s.countOccurrencesBy root s.renderedChildren → 1 < k →
      s.Unfolds (s.sharedTermsBy root s.renderedChildren accept) r n → accept r = true)
    (hnamed : ∀ k, named k = true ↔ k ∈ s.sharedTermsBy root s.renderedChildren accept) :
    (s.enteredInUnit named (s.sharedTermsBy root s.renderedChildren accept) root).count n ≤
      1 := by
  have hlt : ∀ id, ∀ c ∈ s.renderedChildren (s.node id), c < id :=
    fun id c => lt_of_mem_renderedChildren
  obtain ⟨expanded, htally⟩ := tallied_of_select hlt rfl root
  have hnodup : (s.sharedTermsBy root s.renderedChildren accept).Nodup :=
    (ascending_sharedTermsBy root accept).imp ne_of_lt
  have hshared : ∀ t, t ∈ s.sharedTermsBy root s.renderedChildren accept ↔ _ :=
    fun t => mem_sharedTermsBy
  have hoccurs : ∀ r k, (s.tally s.renderedChildren (s.size + 1)
      ((∅ : Counts).insert root 1, [root]))[r]? = some k →
        (r, k) ∈ s.countOccurrencesBy root s.renderedChildren :=
    fun _ _ => mem_countOccurrencesBy.mpr
  generalize s.sharedTermsBy root s.renderedChildren accept = ids
    at hthrough hnamed hnodup hshared ⊢
  generalize s.tally s.renderedChildren (s.size + 1) ((∅ : Counts).insert root 1, [root]) = counts
    at htally hshared hoccurs
  have hone : ∀ q, named q = true → (s.enteredInUnit named ids root).count q = 1 := fun q hq =>
    count_enteredInUnit_of_named hnodup hq ((hnamed q).mp hq) root
  have hids : ∀ t ∈ ids, t ∈ expanded := by
    intro t ht
    obtain ⟨k, hk, -⟩ := (hshared t).mp ht
    exact htally.mem_counts_iff.mp (Std.HashMap.mem_iff_isSome_getElem?.mpr (by rw [hk]; rfl))
  obtain ⟨top, htop⟩ := expanded.toFinset.exists_le
  -- The nodes that hold a node are younger, so the induction goes down from the youngest.
  suffices h : ∀ d q, top - q = d → s.Unfolds ids q n →
      (s.enteredInUnit named ids root).count q ≤ 1 from h _ n rfl .refl
  intro d
  induction d using Nat.strong_induction_on with
  | _ d ih =>
      rintro q rfl hq
      cases hname : named q with
      | true => exact le_of_eq (hone q hname)
      | false =>
          have hnot : q ∉ ids := fun h => by simp [(hnamed q).mpr h] at hname
          have hcount : counts.getD q 0 ≤ 1 := by
            by_contra hmany
            have hget : counts[q]? = some (counts.getD q 0) := by
              rw [Std.HashMap.getD_eq_getD_getElem?] at hmany ⊢
              cases h : counts[q]? with
              | none => simp [h] at hmany
              | some k => rfl
            have haccept := hthrough q _ (hoccurs q _ hget) (Nat.not_le.mp hmany) hq
            exact hnot ((hshared q).mpr ⟨_, hget, Nat.not_le.mp hmany, haccept⟩)
          refine htally.count_enteredInUnit_le hids hname hnot hcount fun p hmem hp => ?_
          have hlt := lt_of_mem_renderedChildren hp
          have hle := htop p (List.mem_toFinset.mpr hmem)
          exact ih (top - p) (Nat.sub_lt_sub_left (hlt.trans_le hle) hlt) p rfl
            (.head ⟨hp, hnot⟩ hq)

end Store

end TermGraph
