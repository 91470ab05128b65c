import Mathlib
import TermGraph.Proofs.Eval.BitBlast
import TermGraph.Proofs.Value.Shape

/-!
# Inputs stand in flattening order

Bit-blasting hands out input variables by a recursion over shapes: first for the arguments of
a type and then for the free variables of a term.  Each shape is given the variables from the
next one on, as many as it is wide, so the inputs are the numbered values of their shapes.

So the inputs list all variables in order when they are flattened, and to assign as many bits
is to choose a known value of each shape.
-/

namespace TermGraph

open Value (numbered numberedAll Fills)

/-! ## What is handed out -/

namespace Fresh

theorem run_bind_ok {α γ : Type} {m : Fresh α} {k : α → Fresh γ} {i j : Nat} {a : α}
    (h : m.run i = .ok (a, j)) : (m >>= k).run i = (k a).run j := by
  rw [StateT.run_bind, h]
  rfl

theorem run_times {α : Type} {m : Fresh α} {g : Nat → α} {w : Nat}
    (h : ∀ i, m.run i = .ok (g i, i + w)) (n i : Nat) :
    (times m n).run i = .ok ((List.range' i n w).map g, i + n * w) := by
  induction n generalizing i with
  | zero =>
      rw [Nat.zero_mul]
      rfl
  | succ n ih =>
      rw [times, run_bind_ok (h i), run_bind_ok (ih _), List.range'_succ, Nat.add_assoc,
        Nat.succ_mul, Nat.add_comm (n * w)]
      rfl

theorem run_bit (i : Nat) : (bit : Fresh Anf).run i = .ok (Anf.var i, i + 1) :=
  rfl

/-- A shape is given the variables from the next one on, as many as it is wide. -/
theorem run_value (shape : Shape) :
    ∀ i, (value shape).run i = .ok (numbered Anf.var shape i, i + shape.width) := by
  induction shape using Shape.inductOn with
  | bool | unit => exact fun _ => rfl
  | word n =>
      intro i
      rw [value, run_bind_ok (run_times run_bit n i), Nat.mul_one]
      rfl
  | vector n elem ih =>
      intro i
      rw [value, run_bind_ok (run_times ih n i)]
      rfl
  | pair a b iha ihb =>
      intro i
      rw [value, run_bind_ok (iha i), run_bind_ok (ihb _), Nat.add_assoc]
      rfl
  | record fields ih =>
      intro i
      have hfields : (valueFields fields).run i =
          .ok (Value.numberedFields Anf.var fields i, i + Shape.widthFields fields) := by
        induction fields generalizing i with
        | nil => rfl
        | cons p fields ihs =>
            obtain ⟨hp, hrest⟩ := List.forall_mem_cons.mp ih
            rw [valueFields, run_bind_ok (hp i), run_bind_ok (ihs hrest _), Nat.add_assoc]
            rfl
      rw [value, run_bind_ok hfields]
      rfl

/-- What is made of the value handed out for a type is made of the numbered value of its
shape. -/
theorem run_ofType {α : Type} {s : Store} {type : TermId} {wrap : Value Anf → α} {i j : Nat} {a : α}
    (hrun : (do let v ← value (← Shape.ofType s type); return wrap v : Fresh α).run i =
      .ok (a, j)) :
    ∃ shape, Shape.ofType s type = .ok shape ∧ a = wrap (numbered Anf.var shape i) ∧
      j = i + shape.width := by
  cases hshape : Shape.ofType s type with
  | error e =>
      rw [hshape] at hrun
      cases hrun
  | ok shape =>
      rw [hshape] at hrun
      have hvalue : (value shape >>= fun v => pure (wrap v) : Fresh α).run i = .ok (a, j) := hrun
      rw [run_bind_ok (run_value shape i)] at hvalue
      cases hvalue
      exact ⟨shape, rfl, rfl, rfl⟩

end Fresh

namespace BitBlast

variable {s : Store}

theorem run_argumentInputs {params : List (String × TermId)} {i j : Nat}
    {inputs : List (String × Value Anf)}
    (hrun : (argumentInputs s params).run i = .ok (inputs, j)) :
    ∃ shapes, (params.map (·.2)).mapM (Shape.ofType s) = .ok shapes ∧
      inputs.map (·.2) = numberedAll Anf.var shapes i ∧ j = i + Shape.totalWidth shapes := by
  unfold argumentInputs at hrun
  -- Only the names depend on the positions of the arguments.
  generalize 0 = start at hrun
  induction params generalizing start i inputs with
  | nil =>
      cases hrun
      exact ⟨[], rfl, rfl, rfl⟩
  | cons p params ih =>
      rw [List.zipIdx_cons, List.mapM_cons] at hrun
      obtain ⟨input, i₁, hinput, hrun⟩ := Value.run_bind_eq_ok hrun
      obtain ⟨rest, i₂, hrest, hlast⟩ := Value.run_bind_eq_ok hrun
      cases hlast
      dsimp only at hinput
      split at hinput
      · obtain ⟨shape, hshape, rfl, rfl⟩ := Fresh.run_ofType hinput
        obtain ⟨shapes, hshapes, hvalues, hnext⟩ := ih _ hrest
        refine ⟨shape :: shapes, ?_, ?_, ?_⟩
        · rw [List.map_cons, List.mapM_cons, hshape, hshapes]
          rfl
        · rw [List.map_cons, hvalues, numberedAll]
        · rw [hnext, Shape.totalWidth_cons, Nat.add_assoc]
      · cases hinput

/-- The type of a free variable. -/
def variableType? (s : Store) (id : TermId) : Option TermId :=
  match s.node id with
  | .free _ type => some type
  | _ => none

theorem run_variableInput {id : TermId} {i j : Nat} {p : String × Value Anf}
    (hrun : (variableInput s id).run i = .ok (p, j)) :
    ∃ type shape, variableType? s id = some type ∧ Shape.ofType s type = .ok shape ∧
      p.2 = numbered Anf.var shape i ∧ j = i + shape.width := by
  unfold variableInput at hrun
  split at hrun
  · next x type hnode =>
      obtain ⟨shape, hshape, rfl, rfl⟩ := Fresh.run_ofType hrun
      refine ⟨type, shape, ?_, hshape, rfl, rfl⟩
      rw [variableType?, hnode]
  · cases hrun

/-- The types of the arguments of a type and then of the free variables of a term. -/
def inputTypes (s : Store) (term type : TermId) : List TermId :=
  (s.piChain type).1.map (·.2) ++ (s.freeVariables term).filterMap (variableType? s)

end BitBlast

namespace Evaluator

theorem exec_bindInputs_numbered {s : Store} {ids : List TermId} {next : Nat}
    {inputs : List (String × Value Anf)} {ev ev₁ : Evaluator Anf}
    (hrun : (bindInputs s ids next).exec ev = (.ok inputs, ev₁)) :
    ∃ shapes, (ids.filterMap (BitBlast.variableType? s)).mapM (Shape.ofType s) = .ok shapes ∧
      inputs.map (·.2) = numberedAll Anf.var shapes next := by
  induction ids generalizing next ev inputs with
  | nil =>
      rw [bindInputs] at hrun
      cases hrun
      exact ⟨[], rfl, rfl⟩
  | cons id ids ih =>
      obtain ⟨p, next₁, rest, hinput, hrest, rfl⟩ := exec_bindInputs_cons hrun
      obtain ⟨type, shape, htype, hshape, hvalue, hnext⟩ := BitBlast.run_variableInput hinput
      obtain ⟨shapes, hshapes, hvalues⟩ := ih hrest
      refine ⟨shape :: shapes, ?_, ?_⟩
      · rw [List.filterMap_cons_some htype, List.mapM_cons, hshape, hshapes]
        rfl
      · rw [List.map_cons, hvalue, hvalues, hnext, numberedAll]

theorem inputs_bitBlast {s : Store} {fuel : Nat} {term type : TermId} {r : BitBlast Anf}
    {ev ev₁ : Evaluator Anf} (hrun : (bitBlast s fuel term type).exec ev = (.ok r, ev₁)) :
    ∃ shapes, (BitBlast.inputTypes s term type).mapM (Shape.ofType s) = .ok shapes ∧
      r.inputs.map (·.2) = numberedAll Anf.var shapes 0 := by
  obtain ⟨args, next, free, _, _, _, hargs, hfree, -, -, hinputs⟩ := exec_bitBlast_eq_ok hrun
  obtain ⟨shapes, hshapes, hvalues, hnext⟩ := BitBlast.run_argumentInputs hargs
  obtain ⟨shapes', hshapes', hvalues'⟩ := exec_bindInputs_numbered hfree
  refine ⟨shapes ++ shapes', ?_, ?_⟩
  · rw [BitBlast.inputTypes, List.mapM_append, hshapes, hshapes']
    rfl
  · rw [hinputs, List.map_append, hvalues, hvalues', Value.numberedAll_append, hnext]

end Evaluator

/-! ## Main result -/

/-- The assignment that a list of bits begins. -/
def assignmentOf (bits : List Bool) (i : Nat) : Bool :=
  bits.getD i false

theorem map_assignmentOf (bits : List Bool) :
    (List.range' 0 bits.length).map (assignmentOf bits) = bits := by
  refine List.ext_getElem (by simp) fun i h h' => ?_
  simp [assignmentOf, h']

namespace BitBlast

/-- The inputs under an assignment. -/
def inputsUnder (r : BitBlast Anf) (assignment : Nat → Bool) : List (Value Bool) :=
  r.inputs.map fun p => p.2.read (Anf.valuation assignment)

variable {r : BitBlast Anf} {shapes : List Shape}

theorem inputsUnder_eq (h : r.inputs.map (·.2) = numberedAll Anf.var shapes 0)
    (assignment : Nat → Bool) : r.inputsUnder assignment = numberedAll assignment shapes 0 := by
  have hread : r.inputsUnder assignment =
      Value.readList (Anf.valuation assignment) (r.inputs.map (·.2)) := by
    rw [Value.readList_eq, List.map_map]
    rfl
  have hvar : (fun k => (Anf.valuation assignment).read (Anf.var k)) = assignment :=
    funext fun _ => Anf.eval_var _
  rw [hread, h, Value.readList_numberedAll _ (fun shape _ => Value.read_numbered _ shape), hvar]

/-- As many bits as there are variables are the same as a known value of each shape. -/
theorem bijOn_inputsUnder (h : r.inputs.map (·.2) = numberedAll Anf.var shapes 0) :
    Set.BijOn (fun bits => r.inputsUnder (assignmentOf bits))
      {bits | bits.length = Shape.totalWidth shapes} {vs | List.Forall₂ Fills shapes vs} := by
  refine ⟨fun bits _ => ?_, fun bits hbits bits' hbits' heq => ?_, fun vs hvs => ?_⟩
  · show List.Forall₂ Fills shapes (r.inputsUnder (assignmentOf bits))
    rw [inputsUnder_eq h]
    exact Value.fills_numberedAll (fun shape _ => Value.fills_numbered shape) 0
  · -- The bits are read off again by flattening.
    have hflat (bits : List Bool) (hbits : bits.length = Shape.totalWidth shapes) :
        Value.flattenList (r.inputsUnder (assignmentOf bits)) = .ok bits := by
      rw [inputsUnder_eq h, Value.flattenList_numberedAll
        (fun shape _ => Value.flatten_numbered shape), ← hbits, map_assignmentOf]
    have hboth := hflat bits hbits
    dsimp only at heq
    rw [heq, hflat bits' hbits'] at hboth
    exact (Except.ok.inj hboth).symm
  · obtain ⟨bits, -, hlength, hvalues⟩ := Value.flattenList_of_determined
      (hvs.imp fun shape v => Value.determined_of_fills shape)
    refine ⟨bits, hlength, ?_⟩
    dsimp only
    rw [inputsUnder_eq h]
    refine (hvalues _ 0 ?_).symm
    rw [← hlength, map_assignmentOf]

end BitBlast

end TermGraph
