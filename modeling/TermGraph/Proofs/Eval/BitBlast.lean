import Mathlib
import TermGraph.Eval.BitBlast
import TermGraph.Proofs.Eval.Memoization
import TermGraph.Proofs.Eval.Refines

/-!
# Bit-blasting is sound

Bit-blasting binds the free variables of a term to fresh inputs, evaluates the term, and
applies its value to more inputs.  An evaluator with known bits that is given the values of
the same inputs under an assignment computes the value of the output under the assignment,
whenever it computes data.

Both evaluators keep what they have computed.  Each is followed by one that keeps nothing,
and of those the known one simulates the symbolic one.
-/

namespace TermGraph

open Value (Similar Stands)

/-! ## Inputs -/

namespace Fresh

variable {α : Type}

/-- What every result of a computation satisfies, all results of repeating it do. -/
theorem of_times {P : α → Prop} {m : Fresh α} (h : ∀ i a j, m.run i = .ok (a, j) → P a) (n : Nat)
    {i j : Nat} {as : List α} (hrun : (times m n).run i = .ok (as, j)) : ∀ a ∈ as, P a := by
  induction n generalizing i as with
  | zero =>
      cases hrun
      exact List.forall_mem_nil _
  | succ n ih =>
      rw [times] at hrun
      obtain ⟨a, i₁, ha, hrun⟩ := Value.run_bind_eq_ok hrun
      obtain ⟨rest, i₂, hrest, hlast⟩ := Value.run_bind_eq_ok hrun
      cases hlast
      exact List.forall_mem_cons.mpr ⟨h i a i₁ ha, ih hrest⟩

theorem of_mapM {γ : Type} {P : γ → Prop} {g : α → Fresh γ}
    (h : ∀ a i b j, (g a).run i = .ok (b, j) → P b) {as : List α} {i j : Nat} {bs : List γ}
    (hrun : (as.mapM g).run i = .ok (bs, j)) : bs.length = as.length ∧ ∀ b ∈ bs, P b := by
  induction as generalizing i bs with
  | nil =>
      rw [List.mapM_nil] at hrun
      cases hrun
      exact ⟨rfl, List.forall_mem_nil _⟩
  | cons a as ih =>
      rw [List.mapM_cons] at hrun
      obtain ⟨b, i₁, hb, hrun⟩ := Value.run_bind_eq_ok hrun
      obtain ⟨rest, i₂, hrest, hlast⟩ := Value.run_bind_eq_ok hrun
      cases hlast
      obtain ⟨hlength, hall⟩ := ih hrest
      exact ⟨congrArg (· + 1) hlength, List.forall_mem_cons.mpr ⟨h a i b i₁ hb, hall⟩⟩

/-- A computation that hands out no variables has given its own result. -/
theorem of_run_lift {x : Except EvalError α} {i j : Nat} {a : α}
    (hrun : (liftM x : Fresh α).run i = .ok (a, j)) : x = .ok a := by
  cases x with
  | error e => cases hrun
  | ok b =>
      cases hrun
      rfl

variable {β : Type} [BitLike β]

mutual

/-- A value made of input variables is data. -/
theorem isData_value : ∀ (shape : Shape) {i j : Nat} {v : Value β},
    (value shape).run i = .ok (v, j) → v.isData = true
  | .bool, i, j, v, hrun => by
      rw [value] at hrun
      obtain ⟨b, i₁, -, hlast⟩ := Value.run_bind_eq_ok hrun
      cases hlast
      rfl
  | .word n, i, j, v, hrun => by
      rw [value] at hrun
      obtain ⟨bits, i₁, -, hlast⟩ := Value.run_bind_eq_ok hrun
      cases hlast
      rfl
  | .vector n elem, i, j, v, hrun => by
      rw [value] at hrun
      obtain ⟨elems, i₁, helems, hlast⟩ := Value.run_bind_eq_ok hrun
      cases hlast
      rw [Value.isData, Value.isDataList_eq, List.all_eq_true]
      exact of_times (fun _ _ _ h => isData_value elem h) n helems
  | .pair a b, i, j, v, hrun => by
      rw [value] at hrun
      obtain ⟨v, i₁, hv, hrun⟩ := Value.run_bind_eq_ok hrun
      obtain ⟨w, i₂, hw, hlast⟩ := Value.run_bind_eq_ok hrun
      cases hlast
      rw [Value.isData, isData_value a hv, isData_value b hw]
      rfl
  | .record fields, i, j, v, hrun => by
      rw [value] at hrun
      obtain ⟨fs, i₁, hfs, hlast⟩ := Value.run_bind_eq_ok hrun
      cases hlast
      exact isData_valueFields fields hfs
  | .unit, i, j, v, hrun => by
      rw [value] at hrun
      cases hrun
      rfl

theorem isData_valueFields : ∀ (fields : List (String × Shape)) {i j : Nat}
    {fs : List (String × Value β)}, (valueFields fields).run i = .ok (fs, j) →
      Value.isDataFields fs = true
  | [], i, j, fs, hrun => by
      rw [valueFields] at hrun
      cases hrun
      rfl
  | (x, shape) :: rest, i, j, fs, hrun => by
      rw [valueFields] at hrun
      obtain ⟨v, i₁, hv, hrun⟩ := Value.run_bind_eq_ok hrun
      obtain ⟨gs, i₂, hgs, hlast⟩ := Value.run_bind_eq_ok hrun
      cases hlast
      rw [Value.isDataFields, isData_value shape hv, isData_valueFields rest hgs]
      rfl

end

end Fresh

namespace BitBlast

variable {β : Type} [BitLike β] {s : Store} {i j : Nat}

section Inputs

variable {P : Value β → Prop}

/-- The input for a type has what all values have that inputs make of the shape of a type. -/
theorem of_inputOfType (h : ∀ {type shape}, Shape.ofType s type = .ok shape →
      ∀ {i j v}, (Fresh.value shape).run i = .ok (v, j) → P v)
    {type : TermId} {name : String} {p : String × Value β}
    (hrun : (do
        let v ← Fresh.value (← Shape.ofType s type)
        return (name, v) : Fresh _).run i = .ok (p, j)) : P p.2 := by
  obtain ⟨shape, i₁, hshape, hrun⟩ := Value.run_bind_eq_ok hrun
  obtain ⟨v, i₂, hv, hlast⟩ := Value.run_bind_eq_ok hrun
  cases hlast
  exact h (Fresh.of_run_lift hshape) hv

/-- There is one input for each argument. -/
theorem of_argumentInputs (h : ∀ {type shape}, Shape.ofType s type = .ok shape →
      ∀ {i j v}, (Fresh.value shape).run i = .ok (v, j) → P v)
    {params : List (String × TermId)} {inputs : List (String × Value β)}
    (hrun : (argumentInputs s params).run i = .ok (inputs, j)) :
    inputs.length = params.length ∧ ∀ p ∈ inputs, P p.2 := by
  have hall := Fresh.of_mapM (P := fun p : String × Value β => P p.2) ?_ hrun
  · rwa [List.length_zipIdx] at hall
  rintro ⟨⟨x, type⟩, position⟩ i p j hrun
  dsimp only at hrun
  split at hrun
  · exact of_inputOfType h hrun
  · cases hrun

theorem of_variableInput (h : ∀ {type shape}, Shape.ofType s type = .ok shape →
      ∀ {i j v}, (Fresh.value shape).run i = .ok (v, j) → P v)
    {id : TermId} {p : String × Value β} (hrun : (variableInput s id).run i = .ok (p, j)) :
    P p.2 := by
  unfold variableInput at hrun
  split at hrun
  · exact of_inputOfType h hrun
  · cases hrun

end Inputs

/-- There is one input of data for each argument. -/
theorem argumentInputs_isData {params : List (String × TermId)} {inputs : List (String × Value β)}
    (hrun : (argumentInputs s params).run i = .ok (inputs, j)) :
    inputs.length = params.length ∧ ∀ p ∈ inputs, p.2.isData = true :=
  of_argumentInputs (P := fun v => v.isData = true) (fun _ => Fresh.isData_value _) hrun

theorem variableInput_isData {id : TermId} {p : String × Value β}
    (hrun : (variableInput s id).run i = .ok (p, j)) : p.2.isData = true :=
  of_variableInput (P := fun v => v.isData = true) (fun _ => Fresh.isData_value _) hrun

/-- The inputs for the arguments of a type. -/
def arguments (s : Store) (type : TermId) (r : BitBlast β) : List (Value β) :=
  (r.inputs.take (s.piChain type).1.length).map (·.2)

/-- The inputs for the free variables of a term of a type. -/
def freeValues (s : Store) (term type : TermId) (r : BitBlast β) : List (TermId × Value β) :=
  (s.freeVariables term).zip ((r.inputs.drop (s.piChain type).1.length).map (·.2))

end BitBlast

/-! ## Evaluation on given inputs -/

namespace Evaluator

variable {β : Type}

/-- Gives free variables values, one after the other. -/
def bindVariables (values : List (TermId × Value β)) (ev : Evaluator β) : Evaluator β :=
  values.foldl (fun ev p => ev.bindVariable p.1 p.2) ev

variable [BitLike β] [DecidableEq β]

/-- Evaluates a term with values of its free variables and applies it to arguments. -/
def evaluateOn (s : Store) (fuel : Nat) (term : TermId) (values : List (TermId × Value β))
    (args : List (Value β)) : EvalM β (Value β) := do
  modifyThe (Evaluator β) (bindVariables values)
  let fn ← evaluate s fuel term
  applyAll s fuel fn args

omit [BitLike β] [DecidableEq β] in
theorem exec_fresh {α : Type} {m : Fresh α} {next : Nat} {r : α × Nat} {ev ev₁ : Evaluator β}
    (hrun : (fresh m next).exec ev = (.ok r, ev₁)) : m.run next = .ok r ∧ ev₁ = ev := by
  unfold fresh at hrun
  cases hm : m.run next with
  | error e =>
      rw [hm] at hrun
      cases hrun
  | ok r' =>
      rw [hm] at hrun
      cases hrun
      exact ⟨rfl, rfl⟩

omit [DecidableEq β] in
/-- Inputs are made for the first variable, which is bound, and then for the others. -/
theorem exec_bindInputs_cons {s : Store} {id : TermId} {ids : List TermId} {next : Nat}
    {inputs : List (String × Value β)} {ev ev₁ : Evaluator β}
    (hrun : (bindInputs s (id :: ids) next).exec ev = (.ok inputs, ev₁)) :
    ∃ p next₁ rest, (BitBlast.variableInput s id).run next = .ok (p, next₁) ∧
      (bindInputs s ids next₁).exec (ev.bindVariable id p.2) = (.ok rest, ev₁) ∧
      inputs = p :: rest := by
  rw [bindInputs] at hrun
  obtain ⟨⟨p, next₁⟩, ev₂, hfresh, htail⟩ := EvalM.exec_bind_eq_ok hrun
  obtain ⟨hinput, hev₂⟩ := exec_fresh hfresh
  rw [hev₂, EvalM.exec_bind_ok (EvalM.exec_modify _ _)] at htail
  obtain ⟨rest, ev₃, hrest, hlast⟩ := EvalM.exec_bind_eq_ok htail
  cases hlast
  exact ⟨p, next₁, rest, hinput, hrest, rfl⟩

omit [DecidableEq β] in
/-- Every free variable has been bound to an input of data. -/
theorem exec_bindInputs {s : Store} {ids : List TermId} {next : Nat}
    {inputs : List (String × Value β)} {ev ev₁ : Evaluator β}
    (hrun : (bindInputs s ids next).exec ev = (.ok inputs, ev₁)) :
    inputs.length = ids.length ∧ (∀ p ∈ inputs, p.2.isData = true) ∧
      ev₁ = ev.bindVariables (ids.zip (inputs.map (·.2))) := by
  induction ids generalizing next ev inputs with
  | nil =>
      rw [bindInputs] at hrun
      cases hrun
      exact ⟨rfl, List.forall_mem_nil _, rfl⟩
  | cons id ids ih =>
      obtain ⟨p, next₁, rest, hinput, hrest, rfl⟩ := exec_bindInputs_cons hrun
      obtain ⟨hlength, hdata, hev⟩ := ih hrest
      refine ⟨congrArg (· + 1) hlength, ?_, hev⟩
      exact List.forall_mem_cons.mpr ⟨BitBlast.variableInput_isData hinput, hdata⟩

/-- Bit-blasting makes inputs for the arguments and then for the free variables, evaluates the
term, and applies its value to the former. -/
theorem exec_bitBlast_eq_ok {s : Store} {fuel : Nat} {term type : TermId} {r : BitBlast β}
    {ev ev₁ : Evaluator β} (hrun : (bitBlast s fuel term type).exec ev = (.ok r, ev₁)) :
    ∃ args next free ev₂ fn ev₃,
      (BitBlast.argumentInputs s (s.piChain type).1).run 0 = .ok (args, next) ∧
      (bindInputs s (s.freeVariables term) next).exec ev = (.ok free, ev₂) ∧
      (evaluate s fuel term).exec ev₂ = (.ok fn, ev₃) ∧
      (applyAll s fuel fn (args.map (·.2))).exec ev₃ = (.ok r.output, ev₁) ∧
      r.inputs = args ++ free := by
  unfold bitBlast at hrun
  obtain ⟨⟨args, next⟩, ev₂, hfresh, hrun₂⟩ := EvalM.exec_bind_eq_ok hrun
  obtain ⟨hargs, hev₂⟩ := exec_fresh hfresh
  rw [hev₂] at hrun₂
  obtain ⟨free, ev₃, hfree, hrun₃⟩ := EvalM.exec_bind_eq_ok hrun₂
  obtain ⟨fn, ev₄, hfn, hrun₄⟩ := EvalM.exec_bind_eq_ok hrun₃
  obtain ⟨output, ev₅, happly, hlast⟩ := EvalM.exec_bind_eq_ok hrun₄
  cases hlast
  exact ⟨args, next, free, ev₃, fn, ev₄, hargs, hfree, hfn, happly, rfl⟩

/-- Bit-blasting evaluates the term on its inputs, which are data. -/
theorem evaluateOn_of_bitBlast {s : Store} {fuel : Nat} {term type : TermId} {r : BitBlast β}
    {ev ev₁ : Evaluator β} (hrun : (bitBlast s fuel term type).exec ev = (.ok r, ev₁)) :
    (∀ p ∈ r.freeValues s term type, p.2.isData = true) ∧
      (∀ a ∈ r.arguments s type, a.isData = true) ∧
      (evaluateOn s fuel term (r.freeValues s term type) (r.arguments s type)).exec ev =
        (.ok r.output, ev₁) := by
  obtain ⟨args, next, free, ev₂, fn, ev₃, hargs, hfree, hfn, happly, hinputs⟩ :=
    exec_bitBlast_eq_ok hrun
  obtain ⟨hlength, hargsData⟩ := BitBlast.argumentInputs_isData hargs
  obtain ⟨-, hfreeData, rfl⟩ := exec_bindInputs hfree
  have harguments : r.arguments s type = args.map (·.2) := by
    rw [BitBlast.arguments, hinputs, ← hlength, List.take_left]
  have hfreeValues :
      r.freeValues s term type = (s.freeVariables term).zip (free.map (·.2)) := by
    rw [BitBlast.freeValues, hinputs, ← hlength, List.drop_left]
  rw [harguments, hfreeValues]
  refine ⟨fun p hp => ?_, fun a ha => ?_, ?_⟩
  · obtain ⟨q, hq, hval⟩ := List.mem_map.mp (List.of_mem_zip hp).2
    rw [← hval]
    exact hfreeData q hq
  · obtain ⟨q, hq, rfl⟩ := List.mem_map.mp ha
    exact hargsData q hq
  · rw [evaluateOn, EvalM.exec_bind_ok (EvalM.exec_modify _ _), EvalM.exec_bind_ok hfn]
    exact happly

end Evaluator

/-! ## Without what is kept -/

section Kept

variable {β : Type} [BitLike β] [DecidableEq β] {s : Store} {c : Setting β} {start : StreamId}
  {ev ev₁ : Evaluator β} {term : TermId} {args : List (Value β)} {v : Value β} {fuel : Nat}

/-- The calls that give free variables values. -/
def SessionCall.binds (values : List (TermId × Value β)) : List (SessionCall β) :=
  values.map fun p => .bind p.1 p.2

theorem stateAfter_binds (s : Store) (values : List (TermId × Value β)) (ev : Evaluator β) :
    stateAfter s (SessionCall.binds values) ev = some (ev.bindVariables values) := by
  induction values generalizing ev with
  | nil => rfl
  | cons p values ih => exact ih (ev.bindVariable p.1 p.2)

/-- An application to data that has come to an end does so in an evaluator that keeps
nothing. -/
theorem Resting.exists_bare (h : Resting s c start ev) (hc : c.Plain)
    (hargs : ∀ a ∈ args, a.isData = true)
    (hrun : (do
      let fn ← Evaluator.evaluate s fuel term
      Evaluator.applyAll s fuel fn args).exec ev = (.ok v, ev₁)) :
    ∃ k σ w ev₂, (do
        let fn ← (bareCalls s k).eval term []
        applyArgs (bareCalls s k) fn args).exec ev = (.ok w, ev₂) ∧
      Similar s σ ((bareSide c).sources ev₂) v w := by
  have hcalls := callsBy_follows ⟨true, true⟩ s hc start fuel
  have hfollows {σ τ : Sources β} : Follows (keeper s c start) (bareSide c) σ τ
      (do
        let fn ← (Evaluator.callsBy ⟨true, true⟩ s fuel).eval term []
        applyArgs (Evaluator.callsBy ⟨true, true⟩ s fuel) fn args)
      (fun k => do
        let fn ← (bareCalls s k).eval term []
        applyArgs (bareCalls s k) fn args)
      (Similar s) := by
    refine .bind (hcalls.eval fun _ _ => .inl ⟨rfl, rfl⟩) fun σ₁ τ₁ fn fn' _ _ hfn => ?_
    refine hcalls.applyArgs hfn (List.forall₂_same.mpr fun a ha => ?_)
    exact Value.similar_self_of_isData a (hargs a ha)
  have hkept : (do
      let fn ← (Evaluator.callsBy ⟨true, true⟩ s fuel).eval term []
      applyArgs (Evaluator.callsBy ⟨true, true⟩ s fuel) fn args).exec
        (ev.startPass (s.sharedTerms term s.isMemoizable)) = (.ok v, ev₁) := by
    rw [← hrun, EvalM.exec_bind, EvalM.exec_bind, exec_evaluate, Evaluator.callsBy_everything]
    rfl
  obtain ⟨-, r, ev₂, ⟨k, hk⟩, -, hagree⟩ :=
    hfollows _ ev ⟨h.startPass term, .refl _⟩ ⟨h.setting_eq, .refl _⟩ _ _ hkept nofun
  cases hagree with
  | ok hvw => exact ⟨k, _, _, ev₂, hk k le_rfl, hvw⟩

/-- An evaluation on data that has come to an end does so in an evaluator that keeps
nothing. -/
theorem exists_bare_of_evaluateOn {overrides : Std.HashMap Ident (Value β)}
    {values : List (TermId × Value β)}
    (hoverrides : ∀ (i : Ident) v, overrides[i]? = some v → v.isData = true)
    (hvalues : ∀ p ∈ values, p.2.isData = true) (hargs : ∀ a ∈ args, a.isData = true)
    (hrun : (Evaluator.evaluateOn s fuel term values args).exec (Evaluator.started overrides ∅) =
      (.ok v, ev₁))
    (hc : c = ⟨Evaluator.defaultPrimitives, overrides,
      bindingsAfter (SessionCall.binds values) ∅⟩) :
    ∃ ev, ev.setting = c ∧ ∃ k σ w ev₂, (do
        let fn ← (bareCalls s k).eval term []
        applyArgs (bareCalls s k) fn args).exec ev = (.ok w, ev₂) ∧
      Similar s σ ((bareSide c).sources ev₂) v w := by
  subst hc
  have hcalls : ∀ call ∈ SessionCall.binds values, call.BindsData :=
    List.forall_mem_map.mpr hvalues
  have hnone : ∀ (id : TermId) (v : Value β),
      (∅ : Std.HashMap TermId (Value β))[id]? = some v → v.isData = true := by simp
  obtain ⟨start, hresting⟩ := resting_stateAfter hoverrides hcalls hnone
    (resting_started s overrides ∅) (stateAfter_binds s values _)
  rw [Evaluator.evaluateOn, EvalM.exec_bind_ok (EvalM.exec_modify _ _)] at hrun
  exact ⟨_, hresting.setting_eq,
    hresting.exists_bare (plain_bindingsAfter hoverrides hcalls hnone) hargs hrun⟩

end Kept

/-! ## Soundness -/

section Simulation

variable {β : Type} [BitLike β] [DecidableEq β] (f : Valuation β)
  {overrides : Std.HashMap Ident (Value β)} {values : List (TermId × Value β)}

omit [DecidableEq β] in
/-- Values of globals and free variables, and what they are under a valuation. -/
theorem shadows_read (hoverrides : ∀ (i : Ident) v, overrides[i]? = some v → v.isData = true)
    (hvalues : ∀ p ∈ values, p.2.isData = true) :
    Setting.Shadows f
      ⟨Evaluator.defaultPrimitives, overrides, bindingsAfter (SessionCall.binds values) ∅⟩
      ⟨Evaluator.defaultPrimitives, overrides.map fun _ v => v.read f,
        bindingsAfter (SessionCall.binds (values.map fun p => (p.1, p.2.read f))) ∅⟩ where
  primitives := rfl
  primitives' := rfl
  overrides i := by
    rw [Std.HashMap.getElem?_map]
    cases hv : overrides[i]? with
    | none => exact .none
    | some v => exact .some fun _ _ => Value.stands_read (hoverrides i v hv)
  freeValues := by
    -- The variables are bound one after the other, from any related values on.
    suffices h : ∀ (m : Std.HashMap TermId (Value β)) (m' : Std.HashMap TermId (Value Bool)),
        (∀ id : TermId, Option.Rel (fun v w => ∀ σ τ, Stands f σ τ v w) m[id]? m'[id]?) →
        ∀ id : TermId, Option.Rel (fun v w => ∀ σ τ, Stands f σ τ v w)
          (bindingsAfter (SessionCall.binds values) m)[id]?
          (bindingsAfter (SessionCall.binds (values.map fun p => (p.1, p.2.read f))) m')[id]? by
      refine h ∅ ∅ fun id => ?_
      simp only [Std.HashMap.getElem?_empty]
      exact .none
    induction values with
    | nil => exact fun _ _ h => h
    | cons p values ih =>
        obtain ⟨hp, hrest⟩ := List.forall_mem_cons.mp hvalues
        refine fun m m' h => ih hrest _ _ fun id => ?_
        rw [Std.HashMap.getElem?_insert, Std.HashMap.getElem?_insert]
        split
        · exact .some fun _ _ => Value.stands_read hp
        · exact h id

/-- An evaluation on symbolic data that succeeds has the result that the same evaluation has
on the data under a valuation, if that result is data. -/
theorem evaluateOn_simulates {s : Store} {term : TermId} {args : List (Value β)}
    {fuel fuel' : Nat} {v : Value β} {w : Value Bool} {ev : Evaluator β} {ev' : Evaluator Bool}
    (hoverrides : ∀ (i : Ident) v, overrides[i]? = some v → v.isData = true)
    (hvalues : ∀ p ∈ values, p.2.isData = true) (hargs : ∀ a ∈ args, a.isData = true)
    (hrun : (Evaluator.evaluateOn s fuel term values args).exec (Evaluator.started overrides ∅) =
      (.ok v, ev))
    (hrun' : (Evaluator.evaluateOn s fuel' term (values.map fun p => (p.1, p.2.read f))
        (args.map fun a => a.read f)).exec
      (Evaluator.started (overrides.map fun _ v => v.read f) ∅) = (.ok w, ev'))
    (hw : w.isData = true) : v.isData = true ∧ v.read f = w.read .known := by
  have hread {v : Value β} (hv : v.isData = true) : (v.read f).isData = true :=
    (Value.isData_read v).trans hv
  obtain ⟨ev₀, hsetting, k, σ, v₀, ev₁, hbare, hv⟩ :=
    exists_bare_of_evaluateOn hoverrides hvalues hargs hrun rfl
  obtain ⟨ev₀', hsetting', k', σ', w₀, ev₁', hbare', hw₀⟩ := exists_bare_of_evaluateOn
    (fun i w hw => by
      rw [Std.HashMap.getElem?_map] at hw
      obtain ⟨v, hv, rfl⟩ := Option.map_eq_some_iff.mp hw
      exact hread (hoverrides i v hv))
    (List.forall_mem_map.mpr fun p hp => hread (hvalues p hp))
    (List.forall_mem_map.mpr fun a ha => hread (hargs a ha)) hrun' rfl
  have hcalls := bareCalls_simulate s (shadows_read f hoverrides hvalues) k k'
  have hargs' {σ : Sources β} {τ : Sources Bool} :
      List.Forall₂ (Stands f σ τ) args (args.map fun a => a.read f) :=
    List.forall₂_map_right_iff.mpr (List.forall₂_same.mpr fun a ha => Value.stands_read (hargs a ha))
  have hsimulates (σ : Sources β) (τ : Sources Bool) :=
    Simulates.bind (σ := σ) (τ := τ) (hcalls.eval term .nil) fun _ _ _ _ _ _ hfn =>
      hcalls.applyArgs hfn hargs'
  obtain ⟨-, -, hstands⟩ :=
    hsimulates _ _ _ _ _ _ _ _ ⟨hsetting, .refl _⟩ ⟨hsetting', .refl _⟩ hbare hbare'
  -- As data, the results of the evaluators that keep nothing are those of the others.
  obtain rfl : w₀ = w := Similar.eq_of_isData _ hw₀ hw
  obtain ⟨hdata, hsame⟩ := hstands.read_eq hw
  obtain rfl : v = v₀ := Similar.eq_of_isData _ hv.symm hdata
  exact ⟨hdata, hsame⟩

end Simulation

/-- Bit-blasting is sound.  When it succeeds, the output under an assignment of the input
variables is what the term evaluates to where free variables, arguments and overrides have
their values under the assignment, if that evaluation succeeds with data. -/
theorem bitBlast_sound (s : Store) (term type : TermId) (overrides : Std.HashMap Ident (Value Anf))
    (hoverrides : ∀ (i : Ident) v, overrides[i]? = some v → v.isData = true) {fuel : Nat}
    {r : BitBlast Anf} {ev : Evaluator Anf}
    (hrun : (Evaluator.bitBlast s fuel term type).exec (Evaluator.started overrides ∅) =
      (.ok r, ev)) (assignment : Nat → Bool) {fuel' : Nat} {w : Value Bool}
    {ev' : Evaluator Bool}
    (hknown : (Evaluator.evaluateOn s fuel' term
        ((r.freeValues s term type).map fun p => (p.1, p.2.read (Anf.valuation assignment)))
        ((r.arguments s type).map fun a => a.read (Anf.valuation assignment))).exec
      (Evaluator.started (overrides.map fun _ v => v.read (Anf.valuation assignment)) ∅) =
        (.ok w, ev'))
    (hw : w.isData = true) :
    r.output.isData = true ∧ r.output.read (Anf.valuation assignment) = w.read .known := by
  obtain ⟨hvalues, hargs, heval⟩ := Evaluator.evaluateOn_of_bitBlast hrun
  exact evaluateOn_simulates _ hoverrides hvalues hargs heval hknown hw

/-- A function on booleans that pairs its argument with a free variable. -/
def pairedStore : Store :=
  Store.ofNodes [.global (.prelude "Bool"), .pi "_" 0 0, .bound 0, .free "y" 0, .pair 2 3,
    .lam "x" 0 4]

theorem pairedStore_node : pairedStore.node 0 = .global (.prelude "Bool") ∧
    pairedStore.node 1 = .pi "_" 0 0 ∧ pairedStore.node 2 = .bound 0 ∧
    pairedStore.node 3 = .free "y" 0 ∧ pairedStore.node 4 = .pair 2 3 ∧
    pairedStore.node 5 = .lam "x" 0 4 :=
  ⟨rfl, rfl, rfl, rfl, rfl, rfl⟩

theorem pairedStore_piChain : (pairedStore.piChain 1).1 = [("_", 0)] := by
  obtain ⟨h0, h1, -⟩ := pairedStore_node
  rw [Store.piChain_of_node h1, Store.piChain_of_not (by simp [h0])]

theorem pairedStore_freeVariables : pairedStore.freeVariables 5 = [3] := by
  obtain ⟨h0, -, h2, h3, h4, h5⟩ := pairedStore_node
  simp [Store.freeVariables, Store.searchFree, h0, h2, h3, h4, h5, Node.children,
    Node.childrenWithDepth, Store.isFree]

/-- The function gives the pair of its argument and the value of the variable. -/
theorem evaluateOn_pairedStore {β : Type} [BitLike β] [DecidableEq β]
    (overrides : Std.HashMap Ident (Value β)) (v w : Value β) :
    ∃ ev, (Evaluator.evaluateOn pairedStore 3 5 [(3, v)] [w]).exec
      (Evaluator.started overrides ∅) = (.ok (.pair w v), ev) := by
  obtain ⟨-, -, h2, h3, h4, h5⟩ := pairedStore_node
  obtain ⟨ev, hfn, hshared, hfree⟩ : ∃ ev, (Evaluator.evaluate pairedStore 3 5).exec
      ((Evaluator.started overrides ∅).bindVariables [(3, v)]) = (.ok (.closure 5 []), ev) ∧
      ev.shared = Std.HashSet.ofList (pairedStore.sharedTerms 5 pairedStore.isMemoizable) ∧
      ev.freeValues[(3 : TermId)]? = some v := by
    rw [Evaluator.evaluate, EvalM.exec_bind_ok (EvalM.exec_modify _ _), Evaluator.eval, evalStep,
      EvalM.exec_bind_ok (EvalM.exec_get _)]
    have hnode (ev : Evaluator β) : (evalNode pairedStore (Evaluator.calls pairedStore 2) 5 []).exec
        ev = (.ok (.closure 5 []), ev) := by
      rw [evalNode, h5]
      rfl
    split
    · -- Nothing is kept yet where the evaluation starts.
      rw [show (Evaluator.startPass _ _).memo[(5 : TermId)]? = none from
        Std.HashMap.getElem?_empty]
      refine ⟨_, EvalM.exec_bind_ok (hnode _) _, rfl, ?_⟩
      simp [Evaluator.startPass, Evaluator.bindVariables, Evaluator.bindVariable]
    · refine ⟨_, hnode _, rfl, ?_⟩
      simp [Evaluator.startPass, Evaluator.bindVariables, Evaluator.bindVariable]
  have hbody : (Evaluator.eval pairedStore 2 4 [w]).exec ev = (.ok (.pair w v), ev) := by
    have harg : ((Evaluator.calls pairedStore 1).eval 2 [w]).exec ev = (.ok w, ev) := by
      refine (exec_eval_of_not_isMemoizable (by decide +kernel) 5 0 [w] hshared).trans ?_
      rw [evalNode, h2]
      rfl
    have hvar : ((Evaluator.calls pairedStore 1).eval 3 [w]).exec ev = (.ok v, ev) := by
      refine (exec_eval_of_not_isMemoizable (by decide +kernel) 5 0 [w] hshared).trans ?_
      rw [evalNode, h3]
      dsimp only
      rw [EvalM.exec_bind_ok (EvalM.exec_get _), hfree]
      rfl
    rw [exec_eval_of_not_isMemoizable (by decide +kernel) 5 1 [w] hshared, evalNode, h4]
    dsimp only
    rw [EvalM.exec_bind_ok harg, EvalM.exec_bind_ok hvar]
    rfl
  refine ⟨ev, ?_⟩
  rw [Evaluator.evaluateOn, EvalM.exec_bind_ok (EvalM.exec_modify _ _), EvalM.exec_bind_ok hfn,
    Evaluator.applyAll, applyArgs, List.foldlM_cons]
  have happly : ((Evaluator.calls pairedStore 3).apply (.closure 5 []) w).exec ev =
      (.ok (.pair w v), ev) := by
    change (Evaluator.apply pairedStore 3 (.closure 5 []) w).exec ev = _
    rw [Evaluator.apply, applyStep]
    dsimp only
    rw [h5]
    exact hbody
  exact EvalM.exec_bind_ok happly _

/-- The inputs of the function are its argument and the variable, and its output is made of
the two. -/
def pairedBlast : BitBlast Anf :=
  ⟨[("arg0", .bool (.var 0)), ("y", .bool (.var 1))], .pair (.bool (.var 0)) (.bool (.var 1))⟩

theorem bitBlast_pairedStore : ∃ ev, (Evaluator.bitBlast pairedStore 3 5 1).exec
    (Evaluator.started ∅ ∅) = (.ok pairedBlast, ev) := by
  obtain ⟨h0, -, -, h3, -, -⟩ := pairedStore_node
  have hshape : Shape.ofType pairedStore 0 = .ok .bool := by
    rw [Shape.ofType, h0]
    rfl
  have hargs : (Evaluator.fresh (β := Anf) (BitBlast.argumentInputs pairedStore
      (pairedStore.piChain 1).1) 0).exec (Evaluator.started ∅ ∅) =
        (.ok ([("arg0", .bool (Anf.var 0))], 1), Evaluator.started ∅ ∅) := by
    have hclosed : pairedStore.isClosed 0 = true := by decide +kernel
    simp only [pairedStore_piChain, Evaluator.fresh, BitBlast.argumentInputs, List.zipIdx_cons, List.zipIdx_nil,
      List.mapM_cons, List.mapM_nil, hclosed, if_true, hshape]
    rfl
  have hfree : (Evaluator.bindInputs pairedStore (pairedStore.freeVariables 5) 1).exec
      (Evaluator.started ∅ ∅) = (.ok [("y", .bool (Anf.var 1))],
        (Evaluator.started ∅ ∅).bindVariables [(3, .bool (Anf.var 1))]) := by
    rw [pairedStore_freeVariables, Evaluator.bindInputs]
    simp only [BitBlast.variableInput, h3, hshape, Evaluator.fresh]
    rfl
  obtain ⟨ev, hrun⟩ := evaluateOn_pairedStore ∅ (.bool (Anf.var 1)) (.bool (Anf.var 0))
  rw [Evaluator.evaluateOn, EvalM.exec_bind_ok (EvalM.exec_modify _ _)] at hrun
  refine ⟨ev, ?_⟩
  rw [Evaluator.bitBlast, EvalM.exec_bind_ok hargs]
  dsimp only
  rw [EvalM.exec_bind_ok hfree, ← bind_assoc]
  exact EvalM.exec_bind_ok hrun _

/-- Where the argument is true and the variable is false, the function gives the pair of the
two, and so does its output. -/
theorem bitBlast_sound_paired :
    let f := Anf.valuation fun i => i = 0
    ∃ ev ev', (Evaluator.bitBlast pairedStore 3 5 1).exec (Evaluator.started ∅ ∅) =
        (.ok pairedBlast, ev) ∧
      (Evaluator.evaluateOn pairedStore 3 5 [(3, .bool false)] [.bool true]).exec
          (Evaluator.started ((∅ : Std.HashMap Ident _).map fun _ => Value.read f) ∅) =
        (.ok (.pair (.bool true) (.bool false)), ev') ∧
      pairedBlast.output.read f = .pair (.bool true) (.bool false) := by
  intro f
  obtain ⟨ev, hrun⟩ := bitBlast_pairedStore
  obtain ⟨ev', hknown⟩ := evaluateOn_pairedStore
    ((∅ : Std.HashMap Ident _).map fun _ => Value.read f) (.bool false) (.bool true)
  refine ⟨ev, ev', hrun, hknown, ?_⟩
  have hfree : (pairedBlast.freeValues pairedStore 5 1).map (fun p => (p.1, p.2.read f)) =
      [(3, .bool false)] := by
    rw [BitBlast.freeValues, pairedStore_freeVariables, pairedStore_piChain]
    rfl
  have hargs : (pairedBlast.arguments pairedStore 1).map (fun a => a.read f) = [.bool true] := by
    rw [BitBlast.arguments, pairedStore_piChain]
    rfl
  rw [← hfree, ← hargs] at hknown
  exact (bitBlast_sound pairedStore 5 1 ∅ (by simp) hrun _ hknown rfl).2

end TermGraph
