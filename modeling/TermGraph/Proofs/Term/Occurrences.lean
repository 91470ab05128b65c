import Mathlib
import TermGraph.Proofs.Term.Within
import TermGraph.Term.Occurrences
import TermGraph.Translate.Sharing

/-!
# Counted nodes

The walk that counts occurrences meets only nodes that the root reaches through the
selected positions, and lists what it accepts in strictly ascending order.  The
positions of a node that appear in the output all stand inside the node.
-/

namespace TermGraph

namespace Store

variable {s : Store} {select : Node TermId → List TermId} {Q : TermId → Prop}

/-- Something holds of all nodes that have been counted or are pending. -/
def CountsHold (Q : TermId → Prop) (state : Counts × List TermId) : Prop :=
  (∀ id, id ∈ state.1 → Q id) ∧ ∀ id ∈ state.2, Q id

theorem countsHold_tallyOne {state : Counts × List TermId} (h : CountsHold Q state)
    {c : TermId} (hc : Q c) : CountsHold Q (tallyOne state c) := by
  obtain ⟨counts, pending⟩ := state
  have hinsert : ∀ n id, id ∈ counts.insert c n → Q id := by
    intro n id hid
    rcases Std.HashMap.mem_insert.mp hid with hid | hid
    · exact eq_of_beq hid ▸ hc
    · exact h.1 id hid
  unfold tallyOne
  dsimp only
  split
  · refine ⟨hinsert 1, fun id hid => ?_⟩
    rcases List.mem_cons.mp hid with rfl | hid
    · exact hc
    · exact h.2 id hid
  · exact ⟨hinsert _, h.2⟩

theorem countsHold_foldl {cs : List TermId} (hcs : ∀ c ∈ cs, Q c) :
    ∀ {state : Counts × List TermId}, CountsHold Q state →
      CountsHold Q (cs.foldl tallyOne state) := by
  induction cs with
  | nil => exact fun h => h
  | cons c rest ih =>
      intro state h
      exact ih (fun c' hc' => hcs c' (by simp [hc']))
        (countsHold_tallyOne h (hcs c (by simp)))

theorem countsHold_tally (hstep : ∀ id, Q id → ∀ c ∈ select (s.node id), Q c) (steps : Nat) :
    ∀ {state : Counts × List TermId}, CountsHold Q state →
      ∀ id, id ∈ s.tally select steps state → Q id := by
  induction steps with
  | zero =>
      intro state h
      exact h.1
  | succ steps ih =>
      rintro ⟨counts, pending⟩ h
      cases pending with
      | nil => exact h.1
      | cons id pending =>
          have hpending : CountsHold Q (counts, pending) :=
            ⟨h.1, fun c hc => h.2 c (by simp [hc])⟩
          exact ih (countsHold_foldl (hstep id (h.2 id (by simp))) hpending)

/-- Where the walk starts, the root alone has been counted and is pending. -/
theorem countsHold_start {root : TermId} (hroot : Q root) :
    CountsHold Q ((∅ : Counts).insert root 1, [root]) := by
  refine ⟨fun id hid => ?_, by simpa using hroot⟩
  rcases Std.HashMap.mem_insert.mp hid with hid | hid
  · exact eq_of_beq hid ▸ hroot
  · simp at hid

/-- The counts are listed as the walk leaves them. -/
theorem mem_countOccurrencesBy {root id : TermId} {k : Nat} :
    (id, k) ∈ s.countOccurrencesBy root select ↔
      (s.tally select (s.size + 1) ((∅ : Counts).insert root 1, [root]))[id]? = some k := by
  rw [countOccurrencesBy, List.mem_mergeSort, Std.HashMap.mem_toList_iff_getElem?_eq_some]

/-- Counted nodes are listed in strictly ascending order. -/
theorem ascending_countOccurrencesBy (root : TermId) :
    ((s.countOccurrencesBy root select).map (·.1)).Pairwise (· < ·) := by
  unfold countOccurrencesBy
  generalize s.tally select (s.size + 1) ((∅ : Counts).insert root 1, [root]) = counts
  have hsorted : (counts.toList.mergeSort fun a b => a.1 ≤ b.1).Pairwise
      fun a b => a.1 ≤ b.1 := by
    have h := @List.pairwise_mergeSort _ (fun a b : TermId × Nat => decide (a.1 ≤ b.1))
      (by intro a b c; simpa using le_trans) (by intro a b; simpa using le_total _ _)
      counts.toList
    simpa using h
  have hdistinct : (counts.toList.mergeSort fun a b => a.1 ≤ b.1).Pairwise
      fun a b => a.1 ≠ b.1 := by
    refine (List.Perm.pairwise_iff (fun h => Ne.symm h) (List.mergeSort_perm _ _)).mpr ?_
    exact Std.HashMap.distinct_keys_toList.imp fun h => ne_of_beq_false h
  rw [List.pairwise_map]
  exact hsorted.imp₂ (fun a b hle hne => lt_of_le_of_ne hle hne) hdistinct

/-- A term is shared if it is accepted and counted more than once. -/
theorem mem_sharedTermsBy_iff {root : TermId} {accept : TermId → Bool} {t : TermId} :
    t ∈ s.sharedTermsBy root select accept ↔
      accept t = true ∧ ∃ n, (t, n) ∈ s.countOccurrencesBy root select ∧ 1 < n := by
  simp only [sharedTermsBy, List.mem_map, List.mem_filter, Bool.and_eq_true, decide_eq_true_eq]
  constructor
  · rintro ⟨⟨t, n⟩, ⟨hmem, hmany, haccept⟩, rfl⟩
    exact ⟨haccept, n, hmem, hmany⟩
  · rintro ⟨haccept, n, hmem, hmany⟩
    exact ⟨(t, n), ⟨hmem, hmany, haccept⟩, rfl⟩

theorem mem_sharedTermsBy {root : TermId} {accept : TermId → Bool} {t : TermId} :
    t ∈ s.sharedTermsBy root select accept ↔
      ∃ n, (s.tally select (s.size + 1) ((∅ : Counts).insert root 1, [root]))[t]? = some n ∧
        1 < n ∧ accept t = true := by
  rw [mem_sharedTermsBy_iff]
  simp only [mem_countOccurrencesBy]
  tauto

/-- What holds of the root and goes down through the selected positions holds of every
shared node, and each of them is accepted. -/
theorem of_mem_sharedTermsBy {root : TermId} {accept : TermId → Bool} (hroot : Q root)
    (hstep : ∀ id, Q id → ∀ c ∈ select (s.node id), Q c) {t : TermId}
    (ht : t ∈ s.sharedTermsBy root select accept) : Q t ∧ accept t = true := by
  obtain ⟨n, hn, -, haccept⟩ := mem_sharedTermsBy.mp ht
  exact ⟨countsHold_tally hstep _ (countsHold_start hroot) t
    (Std.HashMap.mem_iff_isSome_getElem?.mpr (by rw [hn]; rfl)), haccept⟩

/-- Shared nodes are listed in strictly ascending order. -/
theorem ascending_sharedTermsBy (root : TermId) (accept : TermId → Bool) :
    (s.sharedTermsBy root select accept).Pairwise (· < ·) :=
  (ascending_countOccurrencesBy root).sublist (List.filter_sublist.map _)

/-- The shared nodes are those of an ascending list if they have the same members. -/
theorem sharedTermsBy_eq {root : TermId} {accept : TermId → Bool} {ts : List TermId}
    (hts : ts.Pairwise (· < ·))
    (h : ∀ t : TermId, t ∈ ts ↔
      ∃ n, (s.tally select (s.size + 1) ((∅ : Counts).insert root 1, [root]))[t]? = some n ∧
        1 < n ∧ accept t = true) :
    s.sharedTermsBy root select accept = ts :=
  List.Pairwise.eq_of_mem_iff (ascending_sharedTermsBy root accept) hts
    fun t => mem_sharedTermsBy.trans (h t).symm

/-! ## Positions that appear in the output -/

theorem strictlyWithin_of_mem_renderedChildren {id c : TermId}
    (h : c ∈ s.renderedChildren (s.node id)) : ∃ d, s.StrictlyWithin id d c := by
  have hchildren : c ∈ (s.node id).children → ∃ d, s.StrictlyWithin id d c := by
    intro hc
    obtain ⟨⟨c', d⟩, hp, rfl⟩ := List.mem_map.mp hc
    exact ⟨d, strictlyWithin_part hp⟩
  unfold renderedChildren at h
  cases hnode : s.node id with
  | app f a =>
      rw [hnode] at h hchildren
      dsimp only at h
      split at h
      · obtain ⟨hf, ha⟩ := strictlyWithin_app hnode
        rcases List.mem_append.mp (List.mem_of_mem_drop h) with hc | hc
        · rcases (within_spineOnto (s := s) (fun _ => false) f []).2 c hc with hc | hc
          · simp at hc
          · exact ⟨_, hf.trans hc⟩
        · rw [List.mem_singleton.mp hc]
          exact ⟨0, ha⟩
      · exact hchildren (by simpa [Node.children, Node.childrenWithDepth] using h)
  | constant ident ty body => simp [hnode] at h
  | free x ty => simp [hnode] at h
  | array ty elems =>
      rw [hnode] at h hchildren
      refine hchildren ?_
      have h : c ∈ elems := h
      simp [Node.children, Node.childrenWithDepth, h]
  | recursor i params motive order cases =>
      rw [hnode] at h hchildren
      refine hchildren ?_
      simp only [List.mem_append, List.mem_cons, List.mem_map, List.mem_filter] at h
      simp only [Node.children, Node.childrenWithDepth, List.map_append, List.map_cons,
        List.map_map, List.mem_append, List.mem_cons, List.mem_map, Function.comp_def]
      rcases h with h | h | ⟨p, ⟨hp, -⟩, rfl⟩
      · exact Or.inl ⟨c, h, rfl⟩
      · exact Or.inr (Or.inl h)
      · exact Or.inr (Or.inr ⟨p, hp, rfl⟩)
  | _ =>
      rw [hnode] at h hchildren
      exact hchildren h

end Store

/-- A subterm that gets a name is reached by the term and has no loose variables. -/
theorem Config.of_mem_namedTerms {cfg : Config} {s : Store} {root t : TermId}
    (h : t ∈ cfg.namedTerms s root) : s.Reaches root t ∧ cfg.shouldName s t = true := by
  refine Store.of_mem_sharedTermsBy (.refl root) (fun id hid c hc => ?_) h
  obtain ⟨d, hd⟩ := Store.strictlyWithin_of_mem_renderedChildren hc
  exact hid.trans hd.1.reaches

theorem Config.looseVars_of_shouldName {cfg : Config} {s : Store} {t : TermId}
    (h : cfg.shouldName s t = true) : s.looseVars t = [] := by
  unfold Config.shouldName Store.isMemoizable Store.isClosed at h
  simp only [Bool.and_eq_true, List.isEmpty_iff] at h
  exact h.1.2

end TermGraph
