import Mathlib
import TermGraph.Proofs.Term.Occurrences

/-!
# Occurrence counts are exact

The walk that counts occurrences is done when no node is pending.  By then every node that
has been counted has been expanded once, and its count is the number of positions of
expanded nodes that hold it, and one more for the root.  There are no more expansions than
stored nodes and the root, so the walk is never cut short.  Where no position leads back to
a root, what is shared below it depends on the nodes that it holds, and not on their order.

The positions that are selected may lead anywhere in the store, also back to nodes that
have been expanded: the root starts with a count, so it is not expanded again either.
-/

namespace TermGraph

namespace Store

variable {s : Store} {select : Node TermId → List TermId} {root : TermId}

/-- The number of positions of some nodes that hold a node. -/
def heldBy (s : Store) (select : Node TermId → List TermId) (nodes : List TermId)
    (id : TermId) : Nat :=
  (nodes.map fun p => (select (s.node p)).count id).sum

/-- A node reaches another one through selected positions. -/
def ReachesBy (s : Store) (select : Node TermId → List TermId) : TermId → TermId → Prop :=
  Relation.ReflTransGen fun id c => c ∈ select (s.node id)

/-- The walk from a state, whatever its length, ends with some counts. -/
inductive TallyEnds (s : Store) (select : Node TermId → List TermId) :
    Counts × List TermId → Counts → Prop where
  | done (counts : Counts) : TallyEnds s select (counts, []) counts
  | expand {counts counts' : Counts} {id : TermId} {pending : List TermId}
      (h : TallyEnds s select ((select (s.node id)).foldl tallyOne (counts, pending)) counts') :
      TallyEnds s select (counts, id :: pending) counts'

/-- The state of a walk from a root that has expanded some nodes. -/
structure Tallied (s : Store) (select : Node TermId → List TermId) (root : TermId)
    (expanded : List TermId) (state : Counts × List TermId) : Prop where
  nodup : (expanded ++ state.2).Nodup
  mem : ∀ id, id ∈ state.1 ↔ id ∈ expanded ++ state.2
  count : ∀ id, state.1.getD id 0 =
    (if id = root then 1 else 0) + s.heldBy select expanded id

/-! ## One expansion -/

theorem getD_tallyOne (state : Counts × List TermId) (c id : TermId) :
    (tallyOne state c).1.getD id 0 = state.1.getD id 0 + if c = id then 1 else 0 := by
  obtain ⟨counts, pending⟩ := state
  have hcount : counts.getD c 0 = (counts[c]?).getD 0 := Std.HashMap.getD_eq_getD_getElem?
  unfold tallyOne
  dsimp only
  split <;> rename_i hget <;> simp only [Std.HashMap.getD_insert, beq_iff_eq]
  all_goals
    by_cases hid : c = id
    · subst hid
      simp [hcount, hget]
    · simp [hid]

theorem getD_foldl_tallyOne (cs : List TermId) (state : Counts × List TermId) (id : TermId) :
    (cs.foldl tallyOne state).1.getD id 0 = state.1.getD id 0 + cs.count id := by
  induction cs generalizing state with
  | nil => rfl
  | cons c cs ih =>
      rw [List.foldl_cons, ih, getD_tallyOne, List.count_cons]
      simp only [beq_iff_eq, Nat.add_assoc, Nat.add_comm (cs.count id)]

/-- A node joins the pending ones when it is counted for the first time. -/
theorem tallyOne_pending {expanded : List TermId} {state : Counts × List TermId}
    (hnodup : (expanded ++ state.2).Nodup) (hmem : ∀ id, id ∈ state.1 ↔ id ∈ expanded ++ state.2)
    (c : TermId) : (expanded ++ (tallyOne state c).2).Nodup ∧
      (∀ id, id ∈ (tallyOne state c).1 ↔ id ∈ expanded ++ (tallyOne state c).2) ∧
      ∀ id, id ∈ expanded ++ (tallyOne state c).2 ↔ id = c ∨ id ∈ expanded ++ state.2 := by
  obtain ⟨counts, pending⟩ := state
  dsimp only at hnodup hmem
  unfold tallyOne
  dsimp only
  split
  · rename_i hnone
    have hnew : c ∉ expanded ++ pending := by
      rw [← hmem, Std.HashMap.mem_iff_isSome_getElem?, hnone]
      simp
    have hjoin : ∀ id, id ∈ expanded ++ c :: pending ↔ id = c ∨ id ∈ expanded ++ pending := by
      intro id
      simp only [List.mem_append, List.mem_cons]
      tauto
    refine ⟨List.nodup_middle.mpr (List.nodup_cons.mpr ⟨hnew, hnodup⟩), fun id => ?_, hjoin⟩
    rw [Std.HashMap.mem_insert, hjoin, ← hmem, beq_iff_eq, eq_comm]
  · rename_i k hsome
    have hold : c ∈ expanded ++ pending := by
      rw [← hmem, Std.HashMap.mem_iff_isSome_getElem?, hsome]
      rfl
    refine ⟨hnodup, fun id => ?_, fun id => ?_⟩
    · rw [Std.HashMap.mem_insert, beq_iff_eq, hmem]
      exact or_iff_right_of_imp fun h => h ▸ hold
    · exact (or_iff_right_of_imp fun h => h ▸ hold).symm

theorem foldl_tallyOne_pending {expanded : List TermId} (cs : List TermId) :
    ∀ {state : Counts × List TermId}, (expanded ++ state.2).Nodup →
      (∀ id, id ∈ state.1 ↔ id ∈ expanded ++ state.2) →
      (expanded ++ (cs.foldl tallyOne state).2).Nodup ∧
      (∀ id, id ∈ (cs.foldl tallyOne state).1 ↔
        id ∈ expanded ++ (cs.foldl tallyOne state).2) ∧
      ∀ id, id ∈ expanded ++ (cs.foldl tallyOne state).2 ↔
        id ∈ cs ∨ id ∈ expanded ++ state.2 := by
  induction cs with
  | nil => exact fun hnodup hmem => ⟨hnodup, hmem, by simp⟩
  | cons c cs ih =>
      intro state hnodup hmem
      obtain ⟨hnodup₁, hmem₁, hjoin₁⟩ := tallyOne_pending hnodup hmem c
      obtain ⟨hnodup₂, hmem₂, hjoin₂⟩ := ih hnodup₁ hmem₁
      refine ⟨hnodup₂, hmem₂, fun id => ?_⟩
      rw [List.foldl_cons, hjoin₂, hjoin₁, List.mem_cons]
      tauto

/-- Expanding a pending node. -/
theorem Tallied.expand {expanded pending : List TermId} {counts : Counts} {id : TermId}
    (h : Tallied s select root expanded (counts, id :: pending)) :
    Tallied s select root (id :: expanded)
      ((select (s.node id)).foldl tallyOne (counts, pending)) ∧
    ∀ c, c ∈ (id :: expanded) ++
        ((select (s.node id)).foldl tallyOne (counts, pending)).2 ↔
      c ∈ select (s.node id) ∨ c ∈ expanded ++ id :: pending := by
  have hnodup : (id :: expanded ++ pending).Nodup := by
    simpa using List.nodup_middle.mp h.nodup
  have hmove : ∀ c, c ∈ id :: expanded ++ pending ↔ c ∈ expanded ++ id :: pending := by
    intro c
    simp only [List.cons_append, List.mem_cons, List.mem_append]
    tauto
  have hmem : ∀ c, c ∈ (counts, pending).1 ↔ c ∈ id :: expanded ++ (counts, pending).2 :=
    fun c => (h.mem c).trans (hmove c).symm
  obtain ⟨hnodup', hmem', hjoin'⟩ := foldl_tallyOne_pending (select (s.node id)) hnodup hmem
  refine ⟨⟨hnodup', hmem', fun c => ?_⟩, fun c => ?_⟩
  · rw [getD_foldl_tallyOne, h.count c, heldBy, heldBy, List.map_cons, List.sum_cons]
    omega
  · rw [hjoin', hmove]

/-! ## The whole walk -/

/-- A walk with enough steps ends when no node is pending. -/
theorem exists_tallied (bound : Finset TermId)
    (hclosed : ∀ id ∈ bound, ∀ c ∈ select (s.node id), c ∈ bound) (steps : Nat) :
    ∀ {expanded : List TermId} {state : Counts × List TermId},
      Tallied s select root expanded state → (∀ c ∈ expanded ++ state.2, c ∈ bound) →
      bound.card ≤ steps + expanded.length →
      s.TallyEnds select state (s.tally select steps state) ∧
        ∃ expanded', Tallied s select root expanded' (s.tally select steps state, []) := by
  induction steps with
  | zero =>
      intro expanded state h hbound hcard
      -- All nodes of the bound have been expanded, so none is left to be pending.
      have hlength : (expanded ++ state.2).length ≤ bound.card := by
        rw [← List.toFinset_card_of_nodup h.nodup]
        exact Finset.card_le_card fun c hc => hbound c (List.mem_toFinset.mp hc)
      rw [List.length_append] at hlength
      have hnone : state.2 = [] := List.eq_nil_of_length_eq_zero (by omega)
      obtain ⟨counts, pending⟩ := state
      subst hnone
      exact ⟨.done counts, expanded, h⟩
  | succ steps ih =>
      rintro expanded ⟨counts, pending⟩ h hbound hcard
      cases pending with
      | nil => exact ⟨.done counts, expanded, h⟩
      | cons id pending =>
          obtain ⟨hnext, hjoin⟩ := h.expand
          have hbound' : ∀ c ∈ (id :: expanded) ++
              ((select (s.node id)).foldl tallyOne (counts, pending)).2, c ∈ bound := by
            intro c hc
            rcases (hjoin c).mp hc with hc | hc
            · exact hclosed id (hbound id (by simp)) c hc
            · exact hbound c hc
          obtain ⟨hends, hexpanded⟩ := ih hnext hbound' (by rw [List.length_cons]; omega)
          exact ⟨.expand hends, hexpanded⟩

/-- The walk from a root is not cut short if it stays among as many nodes as it may
expand. -/
theorem tallied_of_bound (bound : Finset TermId) (hroot : root ∈ bound)
    (hclosed : ∀ id ∈ bound, ∀ c ∈ select (s.node id), c ∈ bound)
    (hcard : bound.card ≤ s.size + 1) :
    s.TallyEnds select ((∅ : Counts).insert root 1, [root])
        (s.tally select (s.size + 1) ((∅ : Counts).insert root 1, [root])) ∧
      ∃ expanded, Tallied s select root expanded
        (s.tally select (s.size + 1) ((∅ : Counts).insert root 1, [root]), []) := by
  have hstart : Tallied s select root [] ((∅ : Counts).insert root 1, [root]) := by
    refine ⟨by simp, fun id => ?_, fun id => ?_⟩
    · simp [@eq_comm _ root]
    · simp [Std.HashMap.getD_insert, heldBy, @eq_comm _ root]
  exact exists_tallied bound hclosed _ hstart (by simpa using hroot) (by simpa using hcard)

/-- An identity that the store has not given out has no parts. -/
theorem node_eq_unit {id : TermId} (h : s.size ≤ id) : s.node id = .unit := by
  unfold node
  rw [Array.getD_eq_getD_getElem?, Array.getElem?_eq_none h]
  rfl

/-- Every counted node is expanded once, and its count is the number of positions of
counted nodes that hold it, and one more for the root. -/
theorem tallied_of_select (hlt : ∀ id, ∀ c ∈ select (s.node id), c < id)
    (hunit : select .unit = []) (root : TermId) :
    ∃ expanded, Tallied s select root expanded
      (s.tally select (s.size + 1) ((∅ : Counts).insert root 1, [root]), []) := by
  refine (tallied_of_bound (insert root (Finset.range s.size)) ?_ ?_ ?_).2
  · exact Finset.mem_insert_self _ _
  · intro id hid c hc
    rcases Nat.lt_or_ge id s.size with hsize | hsize
    · exact Finset.mem_insert_of_mem (Finset.mem_range.mpr ((hlt id c hc).trans hsize))
    · rw [node_eq_unit hsize, hunit] at hc
      cases hc
  · simpa using Finset.card_insert_le root (Finset.range s.size)

/-! ## Counted nodes are the reached ones -/

section Ended

variable {expanded : List TermId} {counts : Counts}
  (htally : Tallied s select root expanded (counts, []))

include htally

theorem Tallied.mem_counts_iff {id : TermId} : id ∈ counts ↔ id ∈ expanded := by
  simpa using htally.mem id

theorem Tallied.mem_expanded {id : TermId} (hid : 0 < counts.getD id 0) : id ∈ expanded := by
  rw [← htally.mem_counts_iff]
  by_contra hnot
  rw [Std.HashMap.getD_eq_fallback hnot] at hid
  exact lt_irrefl 0 hid

theorem Tallied.root_mem : root ∈ expanded := by
  refine htally.mem_expanded ?_
  rw [htally.count root, if_pos rfl]
  exact Nat.lt_add_right _ Nat.zero_lt_one

/-- A node that a counted node reaches is counted: it is held by a position of one. -/
theorem Tallied.mem_of_reachesBy {b c : TermId} (hb : b ∈ expanded)
    (hc : s.ReachesBy select b c) : c ∈ expanded := by
  induction hc with
  | refl => exact hb
  | @tail b c _ hbc ih =>
      refine htally.mem_expanded ?_
      have hheld : 0 < s.heldBy select expanded c :=
        lt_of_lt_of_le (List.count_pos_iff.mpr hbc)
          (List.single_le_sum (by simp) _ (List.mem_map_of_mem (f := fun p =>
            (select (s.node p)).count c) ih))
      rw [htally.count c]
      exact Nat.lt_add_left _ hheld

end Ended

/-- Nothing is counted that the root does not reach. -/
theorem reachesBy_of_mem_tally {steps : Nat} {id : TermId}
    (h : id ∈ s.tally select steps ((∅ : Counts).insert root 1, [root])) :
    s.ReachesBy select root id := by
  have hstep : ∀ id, s.ReachesBy select root id → ∀ c ∈ select (s.node id),
      s.ReachesBy select root c := fun _ hid _ hc => hid.tail hc
  exact countsHold_tally hstep steps (countsHold_start .refl) id h

/-! ## Roots that hold the same -/

section Roots

variable {root' : TermId} {expanded : List TermId} {counts : Counts}

theorem heldBy_of_mem (select : Node TermId → List TermId) {t : TermId} (h : root ∈ expanded) :
    s.heldBy select expanded t =
      (select (s.node root)).count t + s.heldBy select (expanded.erase root) t :=
  ((List.perm_cons_erase h).map fun p => (select (s.node p)).count t).sum_eq

theorem mem_sharedTermsBy_iff_getD {accept : TermId → Bool} {t : TermId} :
    t ∈ s.sharedTermsBy root select accept ↔
      1 < (s.tally select (s.size + 1) ((∅ : Counts).insert root 1, [root])).getD t 0 ∧
        accept t = true := by
  rw [mem_sharedTermsBy, Std.HashMap.getD_eq_getD_getElem?]
  cases (s.tally select (s.size + 1) ((∅ : Counts).insert root 1, [root]))[t]? <;> simp

section Below

variable (hlt : ∀ id, ∀ c ∈ select (s.node id), c < id)

include hlt

theorem ReachesBy.le {b c : TermId} (h : s.ReachesBy select b c) : c ≤ b := by
  induction h with
  | refl => exact le_rfl
  | tail _ hc ih => exact (hlt _ _ hc).le.trans ih

/-- A node is held by younger ones only. -/
theorem heldBy_eq_zero {nodes : List TermId} {t : TermId} (h : ∀ p ∈ nodes, p ≤ t) :
    s.heldBy select nodes t = 0 := by
  refine List.sum_eq_zero fun n hn => ?_
  obtain ⟨p, hp, rfl⟩ := List.mem_map.mp hn
  exact List.count_eq_zero.mpr fun hmem => (hlt p t hmem).not_ge (h p hp)

/-- A root is not among the nodes that its positions reach, and all others that it reaches
are. -/
theorem ne_and_reachesBy_iff {c : TermId} :
    (c ≠ root ∧ s.ReachesBy select root c) ↔
      ∃ p ∈ select (s.node root), s.ReachesBy select p c := by
  constructor
  · rintro ⟨hne, h⟩
    obtain rfl | ⟨p, hp, hpc⟩ := h.cases_head
    · exact absurd rfl hne
    · exact ⟨p, hp, hpc⟩
  · rintro ⟨p, hp, hpc⟩
    exact ⟨((hpc.le hlt).trans_lt (hlt root p hp)).ne, hpc.head hp⟩

/-- No position leads back to the root, which is counted once.  So the nodes that are counted
more than once are those that several positions hold. -/
theorem Tallied.one_lt_count_iff (htally : Tallied s select root expanded (counts, []))
    (hreach : ∀ c ∈ expanded, s.ReachesBy select root c) (t : TermId) :
    1 < counts.getD t 0 ↔ 1 < s.heldBy select expanded t := by
  rw [htally.count t]
  split
  · rename_i hroot
    rw [heldBy_eq_zero hlt fun p hp => hroot ▸ (hreach p hp).le hlt]
    omega
  · rw [Nat.zero_add]

/-- The nodes that are counted from a root besides the root itself. -/
theorem exists_tallied_below (hunit : select .unit = []) (root : TermId) :
    ∃ below : List TermId, below.Nodup ∧
      (∀ c, c ∈ below ↔ ∃ p ∈ select (s.node root), s.ReachesBy select p c) ∧
      ∀ accept t, t ∈ s.sharedTermsBy root select accept ↔
        1 < (select (s.node root)).count t + s.heldBy select below t ∧ accept t = true := by
  obtain ⟨expanded, htally⟩ := tallied_of_select hlt hunit root
  have hnodup : expanded.Nodup := by simpa using htally.nodup
  have hreach (c : TermId) : c ∈ expanded ↔ s.ReachesBy select root c :=
    ⟨fun h => reachesBy_of_mem_tally (htally.mem_counts_iff.mpr h),
      htally.mem_of_reachesBy htally.root_mem⟩
  refine ⟨expanded.erase root, hnodup.erase root, fun c => ?_, fun accept t => ?_⟩
  · rw [hnodup.mem_erase_iff, hreach, ne_and_reachesBy_iff hlt]
  · rw [mem_sharedTermsBy_iff_getD, htally.one_lt_count_iff hlt fun c => (hreach c).mp,
      ← heldBy_of_mem select htally.root_mem]

/-- A root is not shared itself. -/
theorem lt_of_mem_sharedTermsBy (hunit : select .unit = []) {accept : TermId → Bool} {t : TermId}
    (ht : t ∈ s.sharedTermsBy root select accept) : t < root := by
  obtain ⟨below, -, hbelow, hshared⟩ := exists_tallied_below hlt hunit root
  by_contra hge
  rw [not_lt] at hge
  have hroot : (select (s.node root)).count t = 0 :=
    List.count_eq_zero.mpr fun hmem => (hlt root t hmem).not_ge hge
  have hheld : s.heldBy select below t = 0 := heldBy_eq_zero hlt fun p hp => by
    obtain ⟨c, hc, hpc⟩ := (hbelow p).mp hp
    exact (((hpc.le hlt).trans_lt (hlt root c hc)).trans_le hge).le
  have hmany := ((hshared accept t).mp ht).1
  omega

/-- Roots that hold the same nodes, in any order, have the same shared nodes. -/
theorem sharedTermsBy_eq_of_perm (hunit : select .unit = [])
    (hperm : (select (s.node root)).Perm (select (s.node root'))) (accept : TermId → Bool) :
    s.sharedTermsBy root select accept = s.sharedTermsBy root' select accept := by
  obtain ⟨below, hnodup, hbelow, hshared⟩ := exists_tallied_below hlt hunit root
  obtain ⟨below', hnodup', hbelow', hshared'⟩ := exists_tallied_below hlt hunit root'
  have hsame : below.Perm below' := (List.perm_ext_iff_of_nodup hnodup hnodup').mpr fun c => by
    simp only [hbelow, hbelow', hperm.mem_iff]
  refine List.Pairwise.eq_of_mem_iff (ascending_sharedTermsBy root accept)
    (ascending_sharedTermsBy root' accept) fun t => ?_
  have hheld : s.heldBy select below t = s.heldBy select below' t := (hsame.map _).sum_eq
  rw [hshared, hshared', hperm.count_eq, hheld]

end Below

end Roots

/-! ## Main statement -/

/-- If the selected positions of stored nodes hold stored nodes, counting from a stored root
ends.  Counted are exactly the nodes that the root reaches through selected positions, in
ascending order, each with the number of selected positions of reached nodes that hold it,
and one more for the root; shared are exactly the accepted nodes that are counted more than
once, in ascending order. -/
theorem countOccurrencesBy_exact (s : Store) (root : TermId)
    (select : Node TermId → List TermId) (accept : TermId → Bool) (hroot : root < s.size)
    (hselect : ∀ id < s.size, ∀ c ∈ select (s.node id), c < s.size) :
    ∃ (counts : Counts) (reached : Finset TermId),
      s.TallyEnds select ((∅ : Counts).insert root 1, [root]) counts ∧
      s.countOccurrencesBy root select = counts.toList.mergeSort (fun a b => a.1 ≤ b.1) ∧
      (∀ id, id ∈ reached ↔ s.ReachesBy select root id) ∧
      ((s.countOccurrencesBy root select).map (·.1)).Pairwise (· < ·) ∧
      (∀ id k, (id, k) ∈ s.countOccurrencesBy root select ↔ id ∈ reached ∧
        k = (∑ p ∈ reached, (select (s.node p)).count id) + if id = root then 1 else 0) ∧
      (s.sharedTermsBy root select accept).Pairwise (· < ·) ∧
      ∀ id, id ∈ s.sharedTermsBy root select accept ↔
        accept id = true ∧ ∃ k, (id, k) ∈ s.countOccurrencesBy root select ∧ 1 < k := by
  obtain ⟨hends, expanded, htally⟩ := tallied_of_bound (Finset.range s.size)
    (Finset.mem_range.mpr hroot)
    (fun id hid c hc => Finset.mem_range.mpr (hselect id (Finset.mem_range.mp hid) c hc))
    (by simp)
  refine ⟨_, expanded.toFinset, hends, rfl, fun id => ?_, ascending_countOccurrencesBy root,
    fun id k => ?_, ascending_sharedTermsBy root accept, fun _ => mem_sharedTermsBy_iff⟩
  · rw [List.mem_toFinset]
    exact ⟨fun h => reachesBy_of_mem_tally (htally.mem_counts_iff.mpr h),
      htally.mem_of_reachesBy htally.root_mem⟩
  · have hcount := htally.count id
    rw [heldBy, ← List.sum_toFinset _ (by simpa using htally.nodup),
      Nat.add_comm (if id = root then 1 else 0)] at hcount
    rw [mem_countOccurrencesBy, List.mem_toFinset, ← htally.mem_counts_iff, ← hcount,
      Std.HashMap.getD_eq_getD_getElem?, Std.HashMap.mem_iff_isSome_getElem?]
    cases (s.tally select (s.size + 1) ((∅ : Counts).insert root 1, [root]))[id]? <;>
      simp [eq_comm]

/-- A number that is held three times, twice by one pair. -/
def heldStore : Store :=
  ofNodes [.nat 3, .pair 0 0, .pair 1 0]

/-- The parts of a pair; a number leads back to the outer pair. -/
def heldParts : Node TermId → List TermId
  | .pair a b => [a, b]
  | .nat _ => [2]
  | _ => []

/-- From the outer pair the number is counted three times, and the outer pair itself for
the number and as the root. -/
theorem countOccurrencesBy_exact_cyclic :
    2 < heldStore.size ∧
      (∀ id < heldStore.size, ∀ c ∈ heldParts (heldStore.node id), c < heldStore.size) ∧
      (0, 3) ∈ heldStore.countOccurrencesBy 2 heldParts ∧
      (1, 1) ∈ heldStore.countOccurrencesBy 2 heldParts ∧
      (2, 2) ∈ heldStore.countOccurrencesBy 2 heldParts ∧
      heldStore.sharedTermsBy 2 heldParts (fun _ => true) = [0, 2] := by
  obtain ⟨h0, h1, h2⟩ : heldParts (heldStore.node 0) = [2] ∧
      heldParts (heldStore.node 1) = [0, 0] ∧ heldParts (heldStore.node 2) = [1, 0] :=
    ⟨rfl, rfl, rfl⟩
  have hselect : ∀ id < heldStore.size, ∀ c ∈ heldParts (heldStore.node id),
      c < heldStore.size := by decide
  obtain ⟨counts, reached, -, -, hreached, -, hcounts, hascending, hshared⟩ :=
    countOccurrencesBy_exact heldStore 2 heldParts (fun _ => true) (by decide) hselect
  have hall : reached = {0, 1, 2} := by
    have hclosed : ∀ p ∈ ({0, 1, 2} : Finset TermId), ∀ c ∈ heldParts (heldStore.node p),
        c ∈ ({0, 1, 2} : Finset TermId) := by decide
    ext id
    rw [hreached]
    constructor
    · intro h
      induction h with
      | refl => decide
      | tail _ hc ih => exact hclosed _ ih _ hc
    · have h21 : heldStore.ReachesBy heldParts 2 1 := .single (by simp [h2])
      have h20 : heldStore.ReachesBy heldParts 2 0 := .single (by simp [h2])
      simp only [Finset.mem_insert, Finset.mem_singleton]
      rintro (rfl | rfl | rfl)
      exacts [h20, h21, .refl]
  have hlisted : ∀ id k, (id, k) ∈ heldStore.countOccurrencesBy 2 heldParts ↔
      (id, k) ∈ [(0, 3), (1, 1), (2, 2)] := by
    intro id k
    rw [hcounts, hall]
    simp only [Finset.mem_insert, Finset.mem_singleton, List.mem_cons, Prod.mk.injEq,
      List.not_mem_nil, or_false]
    constructor
    · rintro ⟨rfl | rfl | rfl, hk⟩ <;> simpa [h0, h1, h2] using hk
    · rintro (⟨rfl, rfl⟩ | ⟨rfl, rfl⟩ | ⟨rfl, rfl⟩) <;> simp [h0, h1, h2]
  refine ⟨by decide, hselect, (hlisted 0 3).mpr (by decide), (hlisted 1 1).mpr (by decide),
    (hlisted 2 2).mpr (by decide), hascending.eq_of_mem_iff (by decide) fun id => ?_⟩
  simp only [hshared, hlisted, List.mem_cons, Prod.mk.injEq, List.not_mem_nil, or_false]
  constructor
  · rintro ⟨-, k, ⟨rfl, rfl⟩ | ⟨rfl, rfl⟩ | ⟨rfl, rfl⟩, hk⟩ <;> simp at hk ⊢
  · rintro (rfl | rfl)
    exacts [⟨trivial, 3, by simp⟩, ⟨trivial, 2, by simp⟩]

end Store

end TermGraph
