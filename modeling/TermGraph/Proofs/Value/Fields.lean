import Mathlib
import TermGraph.Proofs.Value.Shape

/-!
# Fields in any order

Records have their fields in ascending order of their names, whatever order the fields come in.
Where no name comes twice, fields in two orders have one ascending order, whether they are put
into a sorted list one by one or sorted at once.
-/

namespace TermGraph

/-- Two records, or two record types, that have the same fields in some order.  The names of the
fields are different. -/
structure Store.Reorders (s : Store) (id id' : TermId) (fields fields' : List (String × TermId)) :
    Prop where
  nodes : s.node id = .record fields ∧ s.node id' = .record fields' ∨
    s.node id = .recordType fields ∧ s.node id' = .recordType fields'
  names : (fields.map (·.1)).Nodup
  perm : fields.Perm fields'

namespace Store.Reorders

variable {s : Store} {id id' : TermId} {fields fields' : List (String × TermId)}

theorem symm (h : s.Reorders id id' fields fields') : s.Reorders id' id fields' fields where
  nodes := h.nodes.imp And.symm And.symm
  names := (h.perm.map _).nodup_iff.mp h.names
  perm := h.perm.symm

theorem node_record (h : s.Reorders id id' fields fields') (hnode : s.node id = .record fields) :
    s.node id' = .record fields' := by
  rcases h.nodes with hnodes | hnodes
  · exact hnodes.2
  · cases hnode.symm.trans hnodes.1

theorem node_recordType (h : s.Reorders id id' fields fields')
    (hnode : s.node id = .recordType fields) : s.node id' = .recordType fields' := by
  rcases h.nodes with hnodes | hnodes
  · cases hnode.symm.trans hnodes.1
  · exact hnodes.2

/-- The parts of the nodes are the fields, which stand under no binder. -/
theorem parts_eq (h : s.Reorders id id' fields fields') :
    (s.node id).childrenWithDepth = fields.map fun p => (p.2, 0) := by
  rcases h.nodes with ⟨hnode, -⟩ | ⟨hnode, -⟩ <;> rw [hnode] <;> rfl

theorem part_mem (h : s.Reorders id id' fields fields') {p : String × TermId} (hp : p ∈ fields) :
    (p.2, 0) ∈ (s.node id).childrenWithDepth :=
  h.parts_eq ▸ List.mem_map_of_mem (f := fun p : String × TermId => (p.2, 0)) hp

theorem lt (h : s.Reorders id id' fields fields') {p : String × TermId} (hp : p ∈ fields) :
    p.2 < id :=
  s.lt_of_mem_children (Node.mem_children_of_mem (h.part_mem hp))

theorem children_perm (h : s.Reorders id id' fields fields') :
    (s.node id).children.Perm (s.node id').children := by
  rw [Node.children, Node.children, h.parts_eq, h.symm.parts_eq]
  exact (h.perm.map _).map _

/-- The nodes have the same loose variables. -/
theorem mem_looseVars (h : s.Reorders id id' fields fields') {i : Nat}
    (hi : i ∈ s.looseVars id') : i ∈ s.looseVars id := by
  have hbound : ∀ i, s.node id' ≠ .bound i := by
    rcases h.nodes with ⟨-, hnode⟩ | ⟨-, hnode⟩ <;> simp [hnode]
  rw [looseVars_eq, Node.mem_looseFrom, or_iff_right (hbound i)] at hi
  obtain ⟨p, hp, hi⟩ := hi
  rw [h.symm.parts_eq, List.mem_map] at hp
  obtain ⟨f, hf, rfl⟩ := hp
  exact mem_looseVars_of_part (h.part_mem (h.perm.mem_iff.mpr hf)) hi

end Store.Reorders

namespace Value

variable {α : Type} {fs gs : List (String × α)}

/-- Fields of different names have one ascending order. -/
theorem eq_of_perm_of_pairwise (hnames : (fs.map (·.1)).Nodup) (hperm : fs.Perm gs)
    (hfs : fs.Pairwise fun p q => p.1 ≤ q.1) (hgs : gs.Pairwise fun p q => p.1 ≤ q.1) :
    fs = gs :=
  hperm.eq_of_pairwise (fun _ _ hp hq hle hge => List.inj_on_of_nodup_map hnames hp
    (hperm.mem_iff.mpr hq) (le_antisymm hle hge)) hfs hgs

theorem insertField_perm {x : String} (hx : x ∉ fs.map (·.1)) (a : α) :
    (insertField x a fs).Perm ((x, a) :: fs) := by
  induction fs with
  | nil => exact .refl _
  | cons f fs ih =>
      obtain ⟨y, b⟩ := f
      rw [List.map_cons, List.mem_cons, not_or] at hx
      rw [insertField, if_neg hx.1]
      split
      · exact .refl _
      · exact ((ih hx.2).cons _).trans (.swap _ _ _)

/-- Sorting loses no field when the names are different. -/
theorem sortFields_perm (hnames : (fs.map (·.1)).Nodup) : (sortFields fs).Perm fs := by
  have hfold (sorted : List (String × α)) (h : ((sorted ++ fs).map (·.1)).Nodup) :
      (fs.foldl (fun sorted p => insertField p.1 p.2 sorted) sorted).Perm (sorted ++ fs) := by
    clear hnames
    induction fs generalizing sorted with
    | nil => rw [List.append_nil]; exact .refl _
    | cons f fs ih =>
        have hmiddle : (sorted ++ f :: fs).Perm (f :: sorted ++ fs) := List.perm_middle
        have hnodup := (hmiddle.map (·.1)).nodup_iff.mp h
        have hf : f.1 ∉ sorted.map (·.1) := by
          rw [List.cons_append, List.map_cons, List.nodup_cons, List.map_append] at hnodup
          exact fun hf => hnodup.1 (List.mem_append_left _ hf)
        have hinsert := (insertField_perm hf f.2).append_right fs
        refine (ih _ ?_).trans (hinsert.trans hmiddle.symm)
        exact (hinsert.map (·.1)).nodup_iff.mpr hnodup
  exact hfold [] hnames

theorem sortFields_eq_of_perm (hnames : (fs.map (·.1)).Nodup) (hperm : fs.Perm gs) :
    sortFields fs = sortFields gs := by
  have hgs : (gs.map (·.1)).Nodup := (hperm.map _).nodup_iff.mp hnames
  have hsorted := sortFields_perm hnames
  exact eq_of_perm_of_pairwise ((hsorted.map _).nodup_iff.mpr hnames)
    (hsorted.trans (hperm.trans (sortFields_perm hgs).symm))
    ((pairwise_sortFields fs).imp le_of_lt) ((pairwise_sortFields gs).imp le_of_lt)

theorem mergeSort_eq_of_perm (hnames : (fs.map (·.1)).Nodup) (hperm : fs.Perm gs) :
    (fs.mergeSort fun p q => p.1 ≤ q.1) = gs.mergeSort fun p q => p.1 ≤ q.1 := by
  have hpairwise (l : List (String × α)) :
      (l.mergeSort fun p q => p.1 ≤ q.1).Pairwise fun p q => p.1 ≤ q.1 := by
    have hsorted : (l.mergeSort fun p q => decide (p.1 ≤ q.1)).Pairwise
        fun p q => decide (p.1 ≤ q.1) = true := by
      refine List.pairwise_mergeSort (fun a b c hab hbc => ?_) (fun a b => ?_) l
      · exact decide_eq_true ((of_decide_eq_true hab).trans (of_decide_eq_true hbc))
      · simpa using le_total a.1 b.1
    exact hsorted.imp of_decide_eq_true
  have hsorted := List.mergeSort_perm fs fun p q => decide (p.1 ≤ q.1)
  exact eq_of_perm_of_pairwise ((hsorted.map _).nodup_iff.mpr hnames)
    (hsorted.trans (hperm.trans (List.mergeSort_perm gs _).symm)) (hpairwise fs) (hpairwise gs)

end Value

namespace Shape

variable {s : Store} {type type' : TermId} {fs gs : List (String × TermId)}

/-- The shape of a record type is made of the shapes of its fields, in order. -/
theorem ofType_recordType (h : s.node type = .recordType fs) (hnames : (fs.map (·.1)).Nodup) :
    ofType s type = do
      return record (← (Value.sortFields fs).mapM fun p => do return (p.1, ← ofType s p.2)) := by
  have hlt : ∀ p ∈ Value.sortFields fs, p.2 < type := by
    intro p hp
    refine s.lt_of_mem_children ?_
    rw [h, Node.children, Node.childrenWithDepth, List.map_map]
    exact List.mem_map_of_mem ((Value.sortFields_perm hnames).mem_iff.mp hp)
  rw [ofType, h]
  dsimp only
  refine congrArg (· >>= fun fields => pure (record fields)) ?_
  generalize Value.sortFields fs = sorted at hlt
  induction sorted with
  | nil => rfl
  | cons p rest ih =>
      obtain ⟨hp, hrest⟩ := List.forall_mem_cons.mp hlt
      rw [List.mapM_cons, List.mapM_cons, dif_pos hp, ih hrest]

/-- The shape of a record type has its fields, in ascending order of their names. -/
theorem of_ofType_recordType (h : s.node type = .recordType fs) (hnames : (fs.map (·.1)).Nodup)
    {shape : Shape} (hshape : ofType s type = .ok shape) :
    ∃ shapes, shape = record shapes ∧ (shapes.map (·.1)).Pairwise (· < ·) ∧
      (shapes.map (·.1)).Perm (fs.map (·.1)) := by
  have hordered := ordered_ofType s type shape hshape
  rw [ofType_recordType h hnames] at hshape
  obtain ⟨shapes, hshapes, hrecord⟩ := exists_of_bind_eq_ok hshape
  cases hrecord
  obtain ⟨hsorted, -⟩ := of_mapM_fields (fun c => ordered_ofType s c) hshapes
  exact ⟨shapes, rfl, hordered.1, hsorted ▸ (Value.sortFields_perm hnames).map _⟩

/-- Record types with the same fields in two orders have one shape, or one error. -/
theorem ofType_eq_of_perm (h : s.node type = .recordType fs) (h' : s.node type' = .recordType gs)
    (hnames : (fs.map (·.1)).Nodup) (hperm : fs.Perm gs) : ofType s type = ofType s type' := by
  rw [ofType_recordType h hnames,
    ofType_recordType h' ((hperm.map _).nodup_iff.mp hnames),
    Value.sortFields_eq_of_perm hnames hperm]

end Shape

end TermGraph
