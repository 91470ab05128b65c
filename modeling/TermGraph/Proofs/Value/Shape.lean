import Mathlib
import TermGraph.Eval.BitBlast
import TermGraph.Proofs.Value.Read

/-!
# Values of a shape

A shape says how many bits its values have and how these are arranged.  Numbering the bits
from some number on gives one value of the shape, whose flattening lists the bits in order.
Conversely a value of a shape is determined by its bits: it is the value that has them
numbered.

The shape of a type has the fields of its records in strictly ascending order of their names,
as records have them, so the order of fields is the same wherever one goes through them.
-/

namespace TermGraph

namespace Shape

/-- Induction on shapes: what holds of the shapes in a shape holds of it. -/
@[elab_as_elim]
theorem inductOn {P : Shape → Prop} (shape : Shape) (bool : P .bool) (word : ∀ n, P (.word n))
    (vector : ∀ n elem, P elem → P (.vector n elem)) (pair : ∀ a b, P a → P b → P (.pair a b))
    (record : ∀ fields, (∀ f ∈ fields, P f.2) → P (.record fields)) (unit : P .unit) : P shape :=
  @Shape.rec P (fun fields => ∀ f ∈ fields, P f.2) (fun f => P f.2) bool word vector pair record
    unit (List.forall_mem_nil _) (fun _ _ hf hfs => List.forall_mem_cons.mpr ⟨hf, hfs⟩)
    (fun _ _ h => h) shape

/-- The number of bits that values of some shapes take together. -/
def totalWidth (shapes : List Shape) : Nat :=
  (shapes.map width).sum

theorem totalWidth_cons (shape : Shape) (shapes : List Shape) :
    totalWidth (shape :: shapes) = shape.width + totalWidth shapes :=
  rfl

theorem width_vector (n : Nat) (elem : Shape) :
    (vector n elem).width = totalWidth (List.replicate n elem) := by
  simp [width, totalWidth]

theorem width_record (fields : List (String × Shape)) :
    (record fields).width = totalWidth (fields.map (·.2)) := by
  rw [width]
  induction fields with
  | nil => rfl
  | cons f fields ih => rw [widthFields, ih, List.map_cons, totalWidth_cons]

end Shape

namespace Value

/-! ## Fields in order -/

section Sorted

variable {α : Type}

theorem fst_insertField {x : String} {a : α} {p : String × α} {fs : List (String × α)}
    (h : p ∈ insertField x a fs) : p.1 = x ∨ p ∈ fs := by
  induction fs with
  | nil =>
      rw [insertField, List.mem_singleton] at h
      exact .inl (by rw [h])
  | cons f fs ih =>
      obtain ⟨y, b⟩ := f
      rw [insertField] at h
      split at h
      · grind
      · split at h <;> grind

theorem pairwise_insertField (x : String) (a : α) {fs : List (String × α)}
    (h : fs.Pairwise fun p q => p.1 < q.1) :
    (insertField x a fs).Pairwise fun p q => p.1 < q.1 := by
  induction fs with
  | nil => exact List.pairwise_singleton _ _
  | cons f fs ih =>
      obtain ⟨y, b⟩ := f
      obtain ⟨hy, hfs⟩ := List.pairwise_cons.mp h
      rw [insertField]
      split
      · next hlt =>
          refine List.pairwise_cons.mpr ⟨List.forall_mem_cons.mpr ⟨hlt, fun p hp => ?_⟩, h⟩
          exact lt_trans hlt (hy p hp)
      · next hge =>
          split
          · next heq =>
              subst heq
              exact List.pairwise_cons.mpr ⟨hy, hfs⟩
          · next hne =>
              refine List.pairwise_cons.mpr ⟨fun p hp => ?_, ih hfs⟩
              rcases fst_insertField hp with hx | hp
              · rw [hx]
                exact lt_of_le_of_ne (not_lt.mp hge) (Ne.symm hne)
              · exact hy p hp

theorem pairwise_sortFields (fs : List (String × α)) :
    (sortFields fs).Pairwise fun p q => p.1 < q.1 := by
  have hfold (sorted : List (String × α)) (h : sorted.Pairwise fun p q => p.1 < q.1) :
      (fs.foldl (fun sorted p => insertField p.1 p.2 sorted) sorted).Pairwise
        fun p q => p.1 < q.1 := by
    induction fs generalizing sorted with
    | nil => exact h
    | cons f fs ih => exact ih _ (pairwise_insertField f.1 f.2 h)
  exact hfold [] .nil

end Sorted

end Value

namespace Shape

mutual

/-- The fields of every record stand in strictly ascending order of their names. -/
def Ordered : Shape → Prop
  | bool | word _ | unit => True
  | vector _ elem => Ordered elem
  | pair a b => Ordered a ∧ Ordered b
  | record fields => (fields.map (·.1)).Pairwise (· < ·) ∧ OrderedFields fields

/-- `Ordered` for each field. -/
def OrderedFields : List (String × Shape) → Prop
  | [] => True
  | (_, shape) :: rest => Ordered shape ∧ OrderedFields rest

end

theorem orderedFields_iff (fields : List (String × Shape)) :
    OrderedFields fields ↔ ∀ f ∈ fields, f.2.Ordered := by
  induction fields with
  | nil => simp [OrderedFields]
  | cons f fields ih => rw [OrderedFields, ih, List.forall_mem_cons]

theorem forall₂_of_mapM {α γ : Type} {g : α → Except EvalError γ} {as : List α} {bs : List γ}
    (h : as.mapM g = .ok bs) : List.Forall₂ (fun a b => g a = .ok b) as bs := by
  induction as generalizing bs with
  | nil =>
      cases h
      exact .nil
  | cons a as ih =>
      rw [List.mapM_cons] at h
      obtain ⟨b, hb, h⟩ := exists_of_bind_eq_ok h
      obtain ⟨rest, hrest, hlast⟩ := exists_of_bind_eq_ok h
      cases hlast
      exact .cons hb (ih hrest)

/-- Fields keep their names, and each has the shape of its type. -/
theorem of_mapM_fields {part : TermId → Except EvalError Shape} {P : Shape → Prop}
    (h : ∀ c shape, part c = .ok shape → P shape) {fs : List (String × TermId)}
    {fields : List (String × Shape)}
    (hrun : (fs.mapM fun p => do return (p.1, ← part p.2)) = .ok fields) :
    fields.map (·.1) = fs.map (·.1) ∧ ∀ f ∈ fields, P f.2 := by
  have hparts := forall₂_of_mapM hrun
  clear hrun
  induction hparts with
  | nil => exact ⟨rfl, List.forall_mem_nil _⟩
  | cons hf _ ih =>
      obtain ⟨shape, hshape, hf⟩ := exists_of_bind_eq_ok hf
      cases hf
      obtain ⟨hnames, hall⟩ := ih
      rw [List.map_cons, hnames, List.map_cons]
      exact ⟨rfl, List.forall_mem_cons.mpr ⟨h _ _ hshape, hall⟩⟩

/-- Induction on the shapes that types have: the elements of a vector are no booleans, and a
record has its fields in order. -/
theorem of_ofType {P : Shape → Prop} (bool : P .bool) (word : ∀ n, P (.word n))
    (vector : ∀ n elem, elem ≠ .bool → P elem → P (.vector n elem))
    (pair : ∀ a b, P a → P b → P (.pair a b))
    (record : ∀ fields : List (String × Shape), (fields.map (·.1)).Pairwise (· < ·) →
      (∀ f ∈ fields, P f.2) → P (.record fields))
    (unit : P .unit) (s : Store) (type : TermId) :
    ∀ shape, ofType s type = .ok shape → P shape := by
  induction type using Nat.strong_induction_on with
  | _ type ih =>
    intro shape h
    unfold ofType at h
    extract_lets refused part at h
    -- The types in a type are older, so the induction is on identities.
    have hpart (c : TermId) (shape : Shape) (h : part c = .ok shape) : P shape := by
      unfold part at h
      split at h
      · next hlt => exact ih c hlt shape h
      · cases h
    split at h
    · cases h
      exact unit
    · obtain ⟨a, ha, h⟩ := exists_of_bind_eq_ok h
      obtain ⟨b, hb, h⟩ := exists_of_bind_eq_ok h
      cases h
      exact pair a b (hpart _ _ ha) (hpart _ _ hb)
    · next fs _ =>
        obtain ⟨fields, hfields, h⟩ := exists_of_bind_eq_ok h
        cases h
        obtain ⟨hnames, hall⟩ := of_mapM_fields hpart hfields
        refine record fields ?_ hall
        rw [hnames, List.pairwise_map]
        exact Value.pairwise_sortFields fs
    · split at h
      · cases h
        exact bool
      · cases h
    · split at h
      · split at h
        · split at h
          · cases h
          · obtain ⟨elem, helem, h⟩ := exists_of_bind_eq_ok h
            split at h
            · cases h
              exact word _
            · next hne =>
                cases h
                exact vector _ elem hne (hpart _ _ helem)
        · cases h
      · cases h
    · cases h

/-- The shape of a type has its fields in order. -/
theorem ordered_ofType (s : Store) (type : TermId) :
    ∀ shape, ofType s type = .ok shape → shape.Ordered :=
  of_ofType trivial (fun _ => trivial) (fun _ _ _ helem => helem) (fun _ _ ha hb => ⟨ha, hb⟩)
    (fun fields hnames hall => ⟨hnames, (orderedFields_iff fields).mpr hall⟩) trivial s type

theorem ordered_mapM_ofType {s : Store} {types : List TermId} {shapes : List Shape}
    (h : types.mapM (ofType s) = .ok shapes) : ∀ shape ∈ shapes, shape.Ordered := by
  have hshapes := forall₂_of_mapM h
  clear h
  induction hshapes with
  | nil => exact List.forall_mem_nil _
  | cons hshape _ ih =>
      exact List.forall_mem_cons.mpr ⟨ordered_ofType s _ _ hshape, ih⟩

end Shape

namespace Value

/-! ## Values of a shape -/

section Fills

variable {β : Type}

mutual

/-- A value is one of a shape. -/
def Fills : Shape → Value β → Prop
  | .bool, .bool _ => True
  | .word n, .word bits => bits.length = n
  | .vector n elem, .vector as => as.length = n ∧ ∀ a ∈ as, Fills elem a
  | .pair a b, .pair v w => Fills a v ∧ Fills b w
  | .record shapes, .record fs => FillsFields shapes fs
  | .unit, .unit => True
  | _, _ => False

/-- `Fills` field by field, with the same names. -/
def FillsFields : List (String × Shape) → List (String × Value β) → Prop
  | [], [] => True
  | (x, shape) :: shapes, (y, v) :: fs => x = y ∧ Fills shape v ∧ FillsFields shapes fs
  | _, _ => False

end

mutual

/-- The value of a shape with given bits, counted from a number on. -/
def numbered (bit : Nat → β) : Shape → Nat → Value β
  | .bool, i => .bool (bit i)
  | .word n, i => .word ((List.range' i n).map bit)
  | .vector n elem, i => .vector ((List.range' i n elem.width).map (numbered bit elem))
  | .pair a b, i => .pair (numbered bit a i) (numbered bit b (i + a.width))
  | .record fields, i => .record (numberedFields bit fields i)
  | .unit, _ => .unit

/-- `numbered` field by field. -/
def numberedFields (bit : Nat → β) : List (String × Shape) → Nat → List (String × Value β)
  | [], _ => []
  | (x, shape) :: rest, i =>
      (x, numbered bit shape i) :: numberedFields bit rest (i + shape.width)

end

/-- `numbered` one shape after the other. -/
def numberedAll (bit : Nat → β) : List Shape → Nat → List (Value β)
  | [], _ => []
  | shape :: rest, i => numbered bit shape i :: numberedAll bit rest (i + shape.width)

variable {bit : Nat → β}

/-! A vector is made of values of one shape, and a record of values of the shapes of its
fields, so both come down to values of some shapes one after the other. -/

theorem numbered_vector (n : Nat) (elem : Shape) (i : Nat) :
    numbered bit (.vector n elem) i =
      .vector (numberedAll bit (List.replicate n elem) i) := by
  rw [numbered]
  congr 1
  induction n generalizing i with
  | zero => rfl
  | succ n ih => rw [List.range'_succ, List.map_cons, ih, List.replicate_succ, numberedAll]

theorem numberedFields_fst (fields : List (String × Shape)) (i : Nat) :
    (numberedFields bit fields i).map (·.1) = fields.map (·.1) := by
  induction fields generalizing i with
  | nil => rfl
  | cons f fields ih => rw [numberedFields, List.map_cons, ih, List.map_cons]

theorem numberedFields_snd (fields : List (String × Shape)) (i : Nat) :
    (numberedFields bit fields i).map (·.2) = numberedAll bit (fields.map (·.2)) i := by
  induction fields generalizing i with
  | nil => rfl
  | cons f fields ih => rw [numberedFields, List.map_cons, ih, List.map_cons, numberedAll]

theorem numberedAll_append (shapes shapes' : List Shape) (i : Nat) :
    numberedAll bit (shapes ++ shapes') i =
      numberedAll bit shapes i ++ numberedAll bit shapes' (i + Shape.totalWidth shapes) := by
  induction shapes generalizing i with
  | nil => rfl
  | cons shape shapes ih =>
      rw [List.cons_append, numberedAll, ih, numberedAll, Shape.totalWidth_cons, Nat.add_assoc]
      rfl

theorem flattenFields_eq (fs : List (String × Value β)) :
    flattenFields fs = flattenList (fs.map (·.2)) := by
  induction fs with
  | nil => rfl
  | cons f fs ih => rw [flattenFields, ih, List.map_cons, flattenList]

theorem fillsFields_iff {shapes : List (String × Shape)} {fs : List (String × Value β)} :
    FillsFields shapes fs ↔ shapes.map (·.1) = fs.map (·.1) ∧
      List.Forall₂ Fills (shapes.map (·.2)) (fs.map (·.2)) := by
  induction shapes generalizing fs with
  | nil => cases fs <;> simp [FillsFields]
  | cons f shapes ih =>
      cases fs with
      | nil => simp [FillsFields]
      | cons g fs =>
          rw [FillsFields, ih, List.map_cons, List.map_cons, List.map_cons, List.map_cons,
            List.cons.injEq, List.forall₂_cons]
          tauto

theorem forall₂_replicate {R : Shape → Value β → Prop} {n : Nat} {elem : Shape}
    {as : List (Value β)} :
    List.Forall₂ R (List.replicate n elem) as ↔ as.length = n ∧ ∀ a ∈ as, R elem a := by
  induction n generalizing as with
  | zero => cases as <;> simp
  | succ n ih =>
      cases as with
      | nil => simp
      | cons a as =>
          rw [List.replicate_succ, List.forall₂_cons, ih, List.length_cons, List.forall_mem_cons,
            Nat.succ_inj]
          tauto

/-! ## The bits of a value of a shape -/

/-- A value of a shape has as many bits as the shape is wide, and they determine it. -/
def Determined (shape : Shape) (v : Value β) : Prop :=
  ∃ bits, v.flatten = .ok bits ∧ bits.length = shape.width ∧
    ∀ bit i, bits = (List.range' i shape.width).map bit → v = numbered bit shape i

theorem map_range'_append (bit : Nat → β) (i m n : Nat) :
    (List.range' i (m + n)).map bit =
      (List.range' i m).map bit ++ (List.range' (i + m) n).map bit := by
  rw [← List.map_append, List.range'_append_1]

/-- Values of some shapes have the bits of all of them, and these determine the values. -/
theorem flattenList_of_determined {shapes : List Shape} {vs : List (Value β)}
    (h : List.Forall₂ Determined shapes vs) :
    ∃ bits, flattenList vs = .ok bits ∧ bits.length = Shape.totalWidth shapes ∧
      ∀ bit i, bits = (List.range' i (Shape.totalWidth shapes)).map bit →
        vs = numberedAll bit shapes i := by
  induction h with
  | nil => exact ⟨[], rfl, rfl, fun _ _ _ => rfl⟩
  | @cons shape v shapes vs hv _ ih =>
      obtain ⟨bits, hflat, hlength, hvalue⟩ := hv
      obtain ⟨rest, hflats, hlengths, hvalues⟩ := ih
      refine ⟨bits ++ rest, ?_, ?_, fun bit i hbits => ?_⟩
      · rw [flattenList, hflat, hflats]
        rfl
      · rw [List.length_append, hlength, hlengths, Shape.totalWidth_cons]
      · -- The bits of the first value are the first of all bits.
        rw [Shape.totalWidth_cons, map_range'_append] at hbits
        obtain ⟨hfirst, hrest⟩ := List.append_inj hbits (by simp [hlength])
        rw [numberedAll, ← hvalue bit i hfirst, ← hvalues bit _ hrest]

theorem determined_of_fills (shape : Shape) :
    ∀ {v : Value β}, Fills shape v → Determined shape v := by
  induction shape using Shape.inductOn with
  | bool =>
      intro v hv
      cases v with
      | bool b =>
          refine ⟨[b], rfl, rfl, fun bit i h => ?_⟩
          rw [numbered, List.singleton_inj.mp h]
      | _ => exact hv.elim
  | word n =>
      intro v hv
      cases v with
      | word bits =>
          refine ⟨bits, rfl, hv, fun bit i h => ?_⟩
          rw [numbered, h]
          rfl
      | _ => exact hv.elim
  | vector n elem ih =>
      intro v hv
      cases v with
      | vector as =>
          have has := (forall₂_replicate (R := Determined)).mpr ⟨hv.1, fun a ha => ih (hv.2 a ha)⟩
          obtain ⟨bits, hflat, hlength, hvalue⟩ := flattenList_of_determined has
          rw [← Shape.width_vector] at hlength hvalue
          refine ⟨bits, hflat, hlength, fun bit i h => ?_⟩
          rw [numbered_vector, ← hvalue bit i h]
      | _ => exact hv.elim
  | pair a b iha ihb =>
      intro v hv
      cases v with
      | pair v w =>
          obtain ⟨bits, hflat, hlength, hvalue⟩ := iha hv.1
          obtain ⟨bits', hflat', hlength', hvalue'⟩ := ihb hv.2
          refine ⟨bits ++ bits', ?_, ?_, fun bit i h => ?_⟩
          · rw [flatten, hflat, hflat']
            rfl
          · rw [List.length_append, hlength, hlength', Shape.width]
          · rw [Shape.width, map_range'_append] at h
            obtain ⟨hleft, hright⟩ := List.append_inj h (by simp [hlength])
            rw [numbered, ← hvalue bit i hleft, ← hvalue' bit _ hright]
      | _ => exact hv.elim
  | record fields ih =>
      intro v hv
      cases v with
      | record fs =>
          obtain ⟨hnames, hfills⟩ := fillsFields_iff.mp hv
          have hshapes : ∀ shape ∈ fields.map (·.2), ∀ v : Value β, Fills shape v →
              Determined shape v := List.forall_mem_map.mpr fun f hf v => ih f hf
          have hfs : List.Forall₂ Determined (fields.map (·.2)) (fs.map (·.2)) := by
            have hboth := (List.forall₂_and_left _ _).mpr ⟨hshapes, hfills⟩
            exact hboth.imp fun _ v h => h.1 v h.2
          obtain ⟨bits, hflat, hlength, hvalue⟩ := flattenList_of_determined hfs
          rw [← Shape.width_record] at hlength hvalue
          refine ⟨bits, ?_, hlength, fun bit i h => ?_⟩
          · rw [flatten, flattenFields_eq, hflat]
          · -- Fields with the same names and the same values are the same.
            have hvalues : fs.map (·.2) = (numberedFields bit fields i).map (·.2) := by
              rw [hvalue bit i h, numberedFields_snd]
            rw [numbered, List.zip_of_prod (hnames.symm.trans (numberedFields_fst fields i).symm)
              hvalues, ← List.zip_of_prod rfl rfl]
      | _ => exact hv.elim
  | unit =>
      intro v hv
      cases v with
      | unit => exact ⟨[], rfl, rfl, fun _ _ _ => rfl⟩
      | _ => exact hv.elim

/-! ## Numbered values -/

theorem fills_numberedAll {shapes : List Shape}
    (h : ∀ shape ∈ shapes, ∀ i, Fills shape (numbered bit shape i)) (i : Nat) :
    List.Forall₂ Fills shapes (numberedAll bit shapes i) := by
  induction shapes generalizing i with
  | nil => exact .nil
  | cons shape shapes ih =>
      obtain ⟨hshape, hshapes⟩ := List.forall_mem_cons.mp h
      exact .cons (hshape i) (ih hshapes _)

theorem fills_numbered (shape : Shape) : ∀ i, Fills shape (numbered bit shape i) := by
  induction shape using Shape.inductOn with
  | bool | unit => exact fun _ => trivial
  | word n =>
      intro i
      show ((List.range' i n).map bit).length = n
      simp
  | vector n elem ih =>
      intro i
      rw [numbered_vector]
      refine forall₂_replicate.mp (fills_numberedAll (fun shape hshape => ?_) i)
      rw [List.eq_of_mem_replicate hshape]
      exact ih
  | pair a b iha ihb => exact fun i => ⟨iha i, ihb _⟩
  | record fields ih =>
      intro i
      refine fillsFields_iff.mpr ⟨(numberedFields_fst fields i).symm, ?_⟩
      rw [numberedFields_snd]
      exact fills_numberedAll (List.forall_mem_map.mpr ih) i

theorem flattenList_numberedAll {shapes : List Shape}
    (h : ∀ shape ∈ shapes, ∀ i,
      (numbered bit shape i).flatten = .ok ((List.range' i shape.width).map bit)) (i : Nat) :
    flattenList (numberedAll bit shapes i) =
      .ok ((List.range' i (Shape.totalWidth shapes)).map bit) := by
  induction shapes generalizing i with
  | nil => rfl
  | cons shape shapes ih =>
      obtain ⟨hshape, hshapes⟩ := List.forall_mem_cons.mp h
      rw [numberedAll, flattenList, hshape, ih hshapes, Shape.totalWidth_cons, map_range'_append]
      rfl

/-- The bits of a numbered value are those of the numbers that it takes, in order. -/
theorem flatten_numbered (shape : Shape) :
    ∀ i, (numbered bit shape i).flatten = .ok ((List.range' i shape.width).map bit) := by
  induction shape using Shape.inductOn with
  | bool | word n | unit => exact fun _ => rfl
  | vector n elem ih =>
      intro i
      rw [numbered_vector, flatten, Shape.width_vector]
      refine flattenList_numberedAll (fun shape hshape => ?_) i
      rw [List.eq_of_mem_replicate hshape]
      exact ih
  | pair a b iha ihb =>
      intro i
      rw [numbered, flatten, iha, ihb, Shape.width, map_range'_append]
      rfl
  | record fields ih =>
      intro i
      rw [numbered, flatten, flattenFields_eq, numberedFields_snd, Shape.width_record]
      exact flattenList_numberedAll (List.forall_mem_map.mpr ih) i

section Read

variable [BitLike β] (f : Valuation β)

theorem readList_numberedAll {shapes : List Shape}
    (h : ∀ shape ∈ shapes, ∀ i,
      (numbered bit shape i).read f = numbered (fun k => f.read (bit k)) shape i) (i : Nat) :
    readList f (numberedAll bit shapes i) = numberedAll (fun k => f.read (bit k)) shapes i := by
  induction shapes generalizing i with
  | nil => rfl
  | cons shape shapes ih =>
      obtain ⟨hshape, hshapes⟩ := List.forall_mem_cons.mp h
      rw [numberedAll, readList, hshape, ih hshapes, numberedAll]

/-- Under a valuation, the bits of a numbered value are those of the known bits. -/
theorem read_numbered (shape : Shape) :
    ∀ i, (numbered bit shape i).read f = numbered (fun k => f.read (bit k)) shape i := by
  induction shape using Shape.inductOn with
  | bool | unit => exact fun _ => rfl
  | word n =>
      intro i
      rw [numbered, read, Valuation.word, List.map_map]
      rfl
  | vector n elem ih =>
      intro i
      rw [numbered_vector, numbered_vector, read]
      congr 1
      refine readList_numberedAll f (fun shape hshape => ?_) i
      rw [List.eq_of_mem_replicate hshape]
      exact ih
  | pair a b iha ihb =>
      intro i
      rw [numbered, read, iha, ihb, numbered]
  | record fields ih =>
      intro i
      rw [numbered, read, numbered]
      congr 1
      induction fields generalizing i with
      | nil => rfl
      | cons p fields ihs =>
          obtain ⟨hp, hfields⟩ := List.forall_mem_cons.mp ih
          rw [numberedFields, readFields, hp, ihs hfields, numberedFields]

end Read

end Fills

end Value

end TermGraph
