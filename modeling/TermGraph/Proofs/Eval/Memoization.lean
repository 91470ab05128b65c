import Mathlib
import TermGraph.Proofs.Eval.Complete
import TermGraph.Proofs.Term.Occurrences

/-!
# Memoization is transparent

An evaluator is used for any number of evaluations, and its free variables are given new
values in between.  Whatever it has kept from earlier calls, an evaluation comes to the
same end as in an evaluator that never memoizes nodes or constant bodies and has only the
current values of the free variables.

Values of shared nodes are dropped when an evaluation starts, and values of constant bodies
when a variable is bound.  Elements of streams stay, but those of streams from before the
last binding are not reached any more.
-/

namespace TermGraph

open EvalM (Converges)
open Value (Similar SimilarOn)

variable {β : Type}

/-! ## Sessions -/

/-- A call of an evaluator. -/
inductive SessionCall (β : Type) where
  | bind (id : TermId) (v : Value β)
  | evaluate (fuel : Nat) (root : TermId)

/-- Whether a call binds a value without functions and streams, if it binds one. -/
def SessionCall.BindsData : SessionCall β → Prop
  | .bind _ v => v.isData = true
  | .evaluate _ _ => True

/-- The values of free variables after some calls. -/
def bindingsAfter : List (SessionCall β) → Std.HashMap TermId (Value β) →
    Std.HashMap TermId (Value β)
  | [], bindings => bindings
  | .bind id v :: calls, bindings => bindingsAfter calls (bindings.insert id v)
  | .evaluate _ _ :: calls, bindings => bindingsAfter calls bindings

/-- An evaluator that has computed nothing, with values of globals and free variables. -/
def Evaluator.started (overrides : Std.HashMap Ident (Value β))
    (bindings : Std.HashMap TermId (Value β)) : Evaluator β :=
  { Evaluator.new with overrides := overrides, freeValues := bindings }

variable [BitLike β] [DecidableEq β]

/-- The state after some calls, when each of them has come to an end. -/
def stateAfter (s : Store) : List (SessionCall β) → Evaluator β → Option (Evaluator β)
  | [], ev => some ev
  | .bind id v :: calls, ev => stateAfter s calls (ev.bindVariable id v)
  | .evaluate fuel root :: calls, ev =>
      match (Evaluator.evaluate s fuel root).exec ev with
      | (.error .outOfFuel, _) => none
      | (_, ev₁) => stateAfter s calls ev₁

/-- The value of a closed term, by an evaluator that never memoizes nodes or constant
bodies. -/
def plainEvaluate (s : Store) (fuel : Nat) (root : TermId) : EvalM β (Value β) :=
  (Evaluator.callsBy ⟨false, true⟩ s fuel).eval root []

/-- Whether a computation comes to an end, with a value or with an error. -/
def Ends {α : Type} (m : EvalM β α) (ev : Evaluator β) : Prop :=
  (m.exec ev).1 ≠ .error .outOfFuel

/-- One error, or values that are the same if there are no functions and no streams in
them. -/
def SameResult (r r' : Except Stop (Value β)) : Prop :=
  Agree (fun v w => v.isData = true ∨ w.isData = true → v = w) r r'

omit [BitLike β] [DecidableEq β] in
theorem SameResult.eq_ok {v : Value β} {r : Except Stop (Value β)} (h : SameResult (.ok v) r)
    (hv : v.isData = true) : r = .ok v := by
  cases h with
  | ok hvw => rw [hvw (.inl hv)]

/-! ## What holds between calls -/

/-- What an evaluator keeps from one call to the next is sound. -/
structure Resting (s : Store) (c : Setting β) (start : StreamId) (ev : Evaluator β) : Prop where
  setting_eq : ev.setting = c
  start_le : start ≤ ev.heap.cells.size
  constants : ∀ (body : TermId) v, ev.constants[body]? = some v →
    Denotes s (bareSide c) (ev.heap.sources start) (fun n => (bareCalls s n).eval body []) v
  elements : ∀ i n v, start ≤ i → ev.heap.element? i n = some v →
    (bareReference s c).DenotesElement (ev.heap.sources start) i n v

variable {s : Store} {c : Setting β} {start : StreamId} {ev : Evaluator β}

theorem Sound.resting (h : Sound s c start ev) : Resting s c start ev :=
  ⟨h.setting_eq, h.start_le, h.constants, fun i n v hi => h.elements i n v (.inr hi)⟩

/-- An evaluation may start when the nodes whose values it keeps are closed and none of
their values is kept so far. -/
theorem Resting.sound (h : Resting s c start ev)
    (hclosed : ∀ id, ev.shared.contains id = true → s.looseVars id = []) (hmemo : ev.memo = ∅) :
    Sound s c start ev where
  base := h.setting_eq
  start_le := h.start_le
  closed := hclosed
  memo id v _ hv := by simp [hmemo] at hv
  constants := h.constants
  elements i n v hi := h.elements i n v (hi.resolve_left id)
  givenNodes _ hid := absurd rfl hid
  givenConstants _ hbody := absurd rfl hbody
  givenElements _ _ hi := absurd rfl hi

omit [BitLike β] [DecidableEq β] in
/-- An evaluation keeps values of nodes only where that pays off. -/
theorem isMemoizable_of_shared {root id : TermId}
    (hid : (ev.startPass (s.sharedTerms root s.isMemoizable)).shared.contains id = true) :
    s.isMemoizable id = true := by
  have hmem : id ∈ s.sharedTerms root s.isMemoizable := by
    simpa [Evaluator.startPass] using hid
  exact (Store.of_mem_sharedTermsBy (Q := fun _ => True) trivial (fun _ _ _ _ => trivial) hmem).2

/-- Outside of what is shared a node is evaluated anew. -/
theorem exec_eval_of_not_shared {id : TermId} (fuel : Nat) (env : Env β)
    (hshared : ev.shared.contains id = false) :
    (Evaluator.eval s (fuel + 1) id env).exec ev =
      (evalNode s (Evaluator.calls s fuel) id env).exec ev := by
  rw [Evaluator.eval, evalStep, EvalM.exec_bind_ok (EvalM.exec_get _), if_neg (by simp [hshared])]
  rfl

/-- In an evaluation that has started, so is a node whose value it does not pay to keep. -/
theorem exec_eval_of_not_isMemoizable {id : TermId} (hid : s.isMemoizable id = false)
    (root : TermId) (fuel : Nat) (env : Env β)
    (hshared : ev.shared = Std.HashSet.ofList (s.sharedTerms root s.isMemoizable)) :
    (Evaluator.eval s (fuel + 1) id env).exec ev =
      (evalNode s (Evaluator.calls s fuel) id env).exec ev := by
  refine exec_eval_of_not_shared fuel env (Bool.eq_false_iff.mpr fun hcontains => ?_)
  have hmem : (ev.startPass (s.sharedTerms root s.isMemoizable)).shared.contains id = true := by
    change (Std.HashSet.ofList _).contains id = true
    rw [← hshared]
    exact hcontains
  exact absurd (isMemoizable_of_shared hmem) (by simp [hid])

omit [BitLike β] [DecidableEq β] in
/-- So those nodes are closed. -/
theorem closed_of_shared {root id : TermId}
    (hid : (ev.startPass (s.sharedTerms root s.isMemoizable)).shared.contains id = true) :
    s.looseVars id = [] := by
  have haccept := isMemoizable_of_shared hid
  simp only [Store.isMemoizable, Store.isClosed, Bool.and_eq_true, List.isEmpty_iff] at haccept
  exact haccept.2

theorem Resting.startPass (h : Resting s c start ev) (root : TermId) :
    Sound s c start (ev.startPass (s.sharedTerms root s.isMemoizable)) :=
  have hresting : Resting s c start (ev.startPass (s.sharedTerms root s.isMemoizable)) :=
    ⟨h.setting_eq, h.start_le, h.constants, h.elements⟩
  hresting.sound (fun _ hid => closed_of_shared hid) rfl

/-- What is kept besides the values of nodes stays sound when an evaluation starts. -/
theorem Reference.Sound.startPass {R : Reference s c} {view : View} (h : R.Sound view ev)
    (hnodes : ∀ id, R.given.nodes id = none) (root : TermId) :
    R.Sound view (ev.startPass (s.sharedTerms root s.isMemoizable)) where
  base := R.holds_of h.base rfl rfl fun _ => rfl
  start_le := h.start_le
  closed _ hid := closed_of_shared hid
  memo id v _ hv := by simp [Evaluator.startPass] at hv
  constants := h.constants
  elements := h.elements
  givenNodes id hid := absurd (hnodes id) hid
  givenConstants := h.givenConstants
  givenElements := h.givenElements

/-- A new value of a variable leaves no value of a constant body, and the streams so far
are not used any more. -/
theorem Resting.bindVariable (h : Resting s c start ev) (id : TermId) (v : Value β) :
    Resting s { c with freeValues := c.freeValues.insert id v } ev.heap.cells.size
      (ev.bindVariable id v) where
  setting_eq := by
    rw [← h.setting_eq]
    rfl
  start_le := le_rfl
  constants body w hw := by simp [Evaluator.bindVariable] at hw
  elements i n w hi hw := by
    have hnone : ev.heap.cells[i]? = none := Array.getElem?_eq_none hi
    simp [Evaluator.bindVariable, Heap.element?, hnone] at hw

theorem resting_started (s : Store) (overrides : Std.HashMap Ident (Value β))
    (bindings : Std.HashMap TermId (Value β)) :
    Resting s ⟨Evaluator.defaultPrimitives, overrides, bindings⟩ 0
      (Evaluator.started overrides bindings) where
  setting_eq := rfl
  start_le := le_rfl
  constants body v hv := by simp [Evaluator.started, Evaluator.new] at hv
  elements i n v _ hv := by
    simp [Evaluator.started, Evaluator.new, Heap.empty, Heap.element?] at hv

theorem sound_started (s : Store) (overrides : Std.HashMap Ident (Value β))
    (bindings : Std.HashMap TermId (Value β)) :
    Sound s ⟨Evaluator.defaultPrimitives, overrides, bindings⟩ 0
      (Evaluator.started overrides bindings) := by
  refine (resting_started s overrides bindings).sound (fun id hid => ?_) rfl
  simp [Evaluator.started, Evaluator.new] at hid

/-! ## Plain settings -/

omit [BitLike β] [DecidableEq β] in
/-- Every primitive of the Prelude is built in. -/
theorem builtin_of_defaultPrimitives (i : Ident) (p : Primitive β)
    (hp : Evaluator.defaultPrimitives[i]? = some p) : ∃ op, p.implementation = .builtin op := by
  have hfold (rows : List (String × Nat × Builtin)) (m : Std.HashMap Ident (Primitive β))
      (hm : ∀ (i : Ident) p, m[i]? = some p → ∃ op, p.implementation = .builtin op) :
      ∀ (i : Ident) p,
        (rows.foldl (fun m row => m.insert (.prelude row.1) ⟨row.2.1, .builtin row.2.2⟩) m)[i]?
          = some p → ∃ op, p.implementation = .builtin op := by
    induction rows generalizing m with
    | nil => exact hm
    | cons row rows ih =>
        refine ih _ fun i p hp => ?_
        rw [Std.HashMap.getElem?_insert] at hp
        split at hp
        · cases hp
          exact ⟨_, rfl⟩
        · exact hm i p hp
  refine hfold _ _ (fun i p hp => ?_) i p hp
  simp at hp

omit [BitLike β] [DecidableEq β] in
/-- Calls that bind data leave only data bound. -/
theorem isData_bindingsAfter {calls : List (SessionCall β)}
    (hcalls : ∀ call ∈ calls, call.BindsData) {bindings : Std.HashMap TermId (Value β)}
    (hbindings : ∀ (id : TermId) v, bindings[id]? = some v → v.isData = true) :
    ∀ (id : TermId) v, (bindingsAfter calls bindings)[id]? = some v → v.isData = true := by
  induction calls generalizing bindings with
  | nil => exact hbindings
  | cons call calls ih =>
      obtain ⟨hcall, hrest⟩ := List.forall_mem_cons.mp hcalls
      cases call with
      | evaluate fuel root => exact ih hrest hbindings
      | bind id v =>
          refine ih hrest fun id' w hw => ?_
          rw [Std.HashMap.getElem?_insert] at hw
          split at hw
          · cases hw
            exact hcall
          · exact hbindings id' w hw

omit [BitLike β] [DecidableEq β] in
/-- The values of globals and free variables after calls that bind data. -/
theorem plain_bindingsAfter {overrides : Std.HashMap Ident (Value β)}
    (hoverrides : ∀ (i : Ident) v, overrides[i]? = some v → v.isData = true)
    {calls : List (SessionCall β)} (hcalls : ∀ call ∈ calls, call.BindsData)
    {bindings : Std.HashMap TermId (Value β)}
    (hbindings : ∀ (id : TermId) v, bindings[id]? = some v → v.isData = true) :
    Setting.Plain ⟨Evaluator.defaultPrimitives, overrides, bindingsAfter calls bindings⟩ :=
  ⟨builtin_of_defaultPrimitives, hoverrides, isData_bindingsAfter hcalls hbindings⟩

/-! ## Evaluators that keep different things -/

section Agree

omit [BitLike β] [DecidableEq β]

variable {α α' : Type} {R : α → α' → Prop} {r : Except Stop α} {r' : Except Stop α'}

theorem Agree.right_ne (h : Agree R r r') : r' ≠ .error .outOfFuel := by
  cases h <;> nofun

/-- Outcomes that agree are the same result. -/
theorem Agree.same {σ τ : Sources β} {r r' : Except Stop (Value β)}
    (h : Agree (Similar s σ τ) r r') : SameResult r r' := by
  cases h with
  | fault e => exact .fault e
  | ok hvw =>
      exact .ok fun hdata => hdata.elim (fun hv => (Similar.eq_of_isData _ hvw hv).symm)
        fun hw => Similar.eq_of_isData _ hvw.symm hw

/-- Two outcomes that agree with a third one are the same result. -/
theorem Agree.sameResult {σ σ' τ : Sources β} {r₁ r₂ q : Except Stop (Value β)}
    (h₁ : Agree (Similar s σ τ) r₁ q) (h₂ : Agree (Similar s σ' τ) r₂ q) : SameResult r₁ r₂ := by
  cases h₁ with
  | fault e =>
      cases h₂
      exact .fault e
  | ok h₁ =>
      cases h₂ with
      | ok h₂ =>
          refine .ok fun hdata => ?_
          rcases hdata with hdata | hdata
          · obtain rfl := Similar.eq_of_isData _ h₁ hdata
            exact (Similar.eq_of_isData _ h₂.symm hdata).symm
          · obtain rfl := Similar.eq_of_isData _ h₂ hdata
            exact Similar.eq_of_isData _ h₁.symm hdata

end Agree

namespace Sound

variable {start' : StreamId} {ev' : Evaluator β} {p q : Keeps} {n m : Nat} {root : TermId}

/-- An evaluation that keeps values and comes to an end leaves a sound state, and one that
keeps nothing comes to an end that agrees. -/
theorem bare (h : Sound s c start ev) (hc : c.Plain)
    (hends : Ends ((Evaluator.callsBy p s n).eval root []) ev) (hev' : ev'.setting = c) :
    Sound s c start (((Evaluator.callsBy p s n).eval root []).exec ev).2 ∧ ∃ σ r' ev₁',
      Converges (fun k => (bareCalls s k).eval root []) ev' (r', ev₁') ∧
      Agree (Similar s σ ((bareSide c).sources ev₁'))
        (((Evaluator.callsBy p s n).eval root []).exec ev).1 r' := by
  have hfollows := (callsBy_follows p s hc start n).eval
    (fun _ _ => .inl ⟨rfl, rfl⟩ : SimilarOn s ((keeper s c start).sources ev)
      ((bareSide c).sources ev') (s.looseVars root) [] [])
  obtain ⟨hlater, r', ev₁', hconv, -, hagree⟩ :=
    hfollows ev ev' ⟨h, .refl _⟩ ⟨hev', .refl _⟩ _ _ rfl hends
  exact ⟨hlater.holds, _, r', ev₁', hconv, hagree⟩

/-- Whatever two evaluators keep, if an evaluation comes to an end in one of them, so it
does in the other. -/
theorem ends (h : Sound s c start ev) (h' : Sound s c start' ev') (hc : c.Plain)
    (hends : Ends ((Evaluator.callsBy p s n).eval root []) ev) :
    ∃ m, Ends ((Evaluator.callsBy q s m).eval root []) ev' := by
  obtain ⟨-, σ, r, ev₁, ⟨k, hbare⟩, hagree⟩ := h.bare hc hends h.setting_eq
  have hfollows := (bareCalls_followed q s hc start' k).eval
    (fun _ _ => .inl ⟨rfl, rfl⟩ : SimilarOn s ((bareSide c).sources ev)
      ((keeper s c start').sources ev') (s.looseVars root) [] [])
  obtain ⟨-, r', ev₁', ⟨m, hm⟩, -, hagree'⟩ :=
    hfollows ev ev' ⟨h.setting_eq, .refl _⟩ ⟨h', .refl _⟩ _ _ (hbare k le_rfl) hagree.right_ne
  refine ⟨m, ?_⟩
  rw [Ends, hm m le_rfl]
  exact hagree'.right_ne

/-- Whatever two evaluators keep, they come to the same end. -/
theorem sameResult (h : Sound s c start ev) (h' : Sound s c start' ev') (hc : c.Plain)
    (hends : Ends ((Evaluator.callsBy p s n).eval root []) ev)
    (hends' : Ends ((Evaluator.callsBy q s m).eval root []) ev') :
    SameResult (((Evaluator.callsBy p s n).eval root []).exec ev).1
      (((Evaluator.callsBy q s m).eval root []).exec ev').1 := by
  obtain ⟨-, σ, r, ev₁, hbare, hagree⟩ := h.bare hc hends h.setting_eq
  obtain ⟨-, σ', r', ev₁', hbare', hagree'⟩ := h'.bare hc hends' h.setting_eq
  cases hbare.unique hbare'
  exact hagree.sameResult hagree'

end Sound

/-! ## Sessions -/

/-- An evaluation is one from the state in which no value of a node is kept. -/
theorem exec_evaluate_eq (s : Store) (fuel : Nat) (root : TermId) (ev : Evaluator β) :
    (Evaluator.evaluate s fuel root).exec ev = (Evaluator.eval s fuel root []).exec
      (ev.startPass (s.sharedTerms root s.isMemoizable)) :=
  EvalM.exec_bind_ok (EvalM.exec_modify _ _) _

theorem exec_evaluate (s : Store) (fuel : Nat) (root : TermId) (ev : Evaluator β) :
    (Evaluator.evaluate s fuel root).exec ev =
      ((Evaluator.callsBy ⟨true, true⟩ s fuel).eval root []).exec
        (ev.startPass (s.sharedTerms root s.isMemoizable)) := by
  rw [Evaluator.callsBy_everything]
  exact exec_evaluate_eq s fuel root ev

/-- After any calls that have come to an end, what is kept is sound for the values that the
variables have then. -/
theorem resting_stateAfter {overrides : Std.HashMap Ident (Value β)}
    (hoverrides : ∀ (i : Ident) v, overrides[i]? = some v → v.isData = true)
    {calls : List (SessionCall β)} (hcalls : ∀ call ∈ calls, call.BindsData)
    {bindings : Std.HashMap TermId (Value β)}
    (hbindings : ∀ (id : TermId) v, bindings[id]? = some v → v.isData = true)
    (h : Resting s ⟨Evaluator.defaultPrimitives, overrides, bindings⟩ start ev)
    {ev' : Evaluator β} (hrun : stateAfter s calls ev = some ev') :
    ∃ start', Resting s ⟨Evaluator.defaultPrimitives, overrides, bindingsAfter calls bindings⟩
      start' ev' := by
  induction calls generalizing bindings start ev with
  | nil =>
      cases hrun
      exact ⟨start, h⟩
  | cons call calls ih =>
      obtain ⟨hcall, hrest⟩ := List.forall_mem_cons.mp hcalls
      cases call with
      | bind id v =>
          have hbound := isData_bindingsAfter (List.forall_mem_singleton.mpr hcall) hbindings
          exact ih hrest hbound (h.bindVariable id v) hrun
      | evaluate fuel root =>
          have hc : Setting.Plain ⟨Evaluator.defaultPrimitives, overrides, bindings⟩ :=
            ⟨builtin_of_defaultPrimitives, hoverrides, hbindings⟩
          rw [stateAfter, exec_evaluate] at hrun
          split at hrun
          · cases hrun
          · next r ev₁ hne hexec =>
              have hends : Ends ((Evaluator.callsBy ⟨true, true⟩ s fuel).eval root [])
                  (ev.startPass (s.sharedTerms root s.isMemoizable)) := by
                rw [Ends, hexec]
                exact hne
              have hsound := ((h.startPass root).bare hc hends (h.startPass root).setting_eq).1
              rw [hexec] at hsound
              exact ih hrest hbindings hsound.resting hrun

/-- Memoization is transparent.  After any calls that bind data, an evaluation comes to an
end if and only if it does in a new evaluator that never memoizes nodes or constant bodies
and has the current values of the variables, and then with the same result. -/
theorem evaluate_same_as_plain (s : Store) (overrides : Std.HashMap Ident (Value β))
    (hoverrides : ∀ (i : Ident) v, overrides[i]? = some v → v.isData = true)
    (calls : List (SessionCall β)) (hcalls : ∀ call ∈ calls, call.BindsData)
    (ev : Evaluator β) (hev : stateAfter s calls (Evaluator.started overrides ∅) = some ev)
    (root : TermId) :
    ((∃ fuel, Ends (Evaluator.evaluate s fuel root) ev) ↔
      ∃ fuel, Ends (plainEvaluate s fuel root)
        (Evaluator.started overrides (bindingsAfter calls ∅))) ∧
      ∀ fuel fuel', Ends (Evaluator.evaluate s fuel root) ev →
        Ends (plainEvaluate s fuel' root)
          (Evaluator.started overrides (bindingsAfter calls ∅)) →
        SameResult ((Evaluator.evaluate s fuel root).exec ev).1
          ((plainEvaluate s fuel' root).exec
            (Evaluator.started overrides (bindingsAfter calls ∅))).1 := by
  have hnone : ∀ (id : TermId) (v : Value β),
      (∅ : Std.HashMap TermId (Value β))[id]? = some v → v.isData = true := by simp
  have hc := plain_bindingsAfter hoverrides hcalls hnone
  obtain ⟨start, hresting⟩ :=
    resting_stateAfter hoverrides hcalls hnone (resting_started s overrides ∅) hev
  have hkept := hresting.startPass root
  have hplain := sound_started s overrides (bindingsAfter calls ∅)
  simp only [Ends, exec_evaluate]
  exact ⟨⟨fun ⟨_, hends⟩ => hkept.ends hplain hc hends,
    fun ⟨_, hends⟩ => hplain.ends hkept hc hends⟩,
    fun _ _ hends hends' => hkept.sameResult hplain hc hends hends'⟩

/-- A constant whose body is a free variable. -/
def rebindStore : Store :=
  ((Store.empty.push (.global (.prelude "Bool")) (by decide)
    (Store.index_eq_none (by decide))).push (.free "x" 0) (by decide)
    (Store.index_eq_none (by decide))).push (.constant (.prelude "k") 0 (some 1)) (by decide)
    (Store.index_eq_none (by decide))

/-- The constant is evaluated, and its variable is bound anew afterwards. -/
def rebindCalls : List (SessionCall Bool) :=
  [.bind 1 (.bool true), .evaluate 3 2, .bind 1 (.bool false)]

theorem evaluate_rebindStore (ev : Evaluator Bool) {v : Value Bool}
    (hoverrides : ev.overrides = ∅) (hconstants : ev.constants = ∅)
    (hv : ev.freeValues[1]? = some v) :
    ∃ ev₁, (Evaluator.evaluate rebindStore 3 2).exec ev = (.ok v, ev₁) ∧
      ev₁.overrides = ∅ := by
  have hx : (Evaluator.eval rebindStore 2 1 []).exec
      (ev.startPass (rebindStore.sharedTerms 2 rebindStore.isMemoizable)) =
        (.ok v, ev.startPass (rebindStore.sharedTerms 2 rebindStore.isMemoizable)) := by
    have h1 : rebindStore.node 1 = .free "x" 0 := rfl
    rw [exec_eval_of_not_isMemoizable rfl 2 1 [] rfl, evalNode, h1]
    dsimp only
    rw [EvalM.exec_bind_ok (EvalM.exec_get _)]
    simp [Evaluator.startPass, hv]
  have h2 : rebindStore.node 2 = .constant (.prelude "k") 0 (some 1) := rfl
  refine ⟨{ ev.startPass (rebindStore.sharedTerms 2 rebindStore.isMemoizable) with
    constants := ev.constants.insert 1 v }, ?_, hoverrides⟩
  rw [Evaluator.evaluate, EvalM.exec_bind_ok (EvalM.exec_modify _ _),
    exec_eval_of_not_isMemoizable rfl 2 2 [] rfl, evalNode, h2]
  dsimp only
  rw [evalConstant, EvalM.exec_bind_ok (EvalM.exec_get _)]
  simp only [Evaluator.startPass, hoverrides, hconstants, Std.HashMap.getElem?_empty]
  rw [Evaluator.startPass, hoverrides, hconstants] at hx
  exact EvalM.exec_bind_ok hx _

/-- After the variable has been bound anew, the constant has its new value. -/
theorem evaluate_same_as_plain_rebound :
    (∀ call ∈ rebindCalls, call.BindsData) ∧
      ∃ ev, stateAfter rebindStore rebindCalls (Evaluator.started ∅ ∅) = some ev ∧
        ((Evaluator.evaluate rebindStore 3 2).exec ev).1 = .ok (.bool false) ∧
        ∃ fuel, ((plainEvaluate rebindStore fuel 2).exec
          (Evaluator.started ∅ (bindingsAfter rebindCalls ∅))).1 = .ok (.bool false) := by
  have hcalls : ∀ call ∈ rebindCalls, call.BindsData := by
    simp [rebindCalls, SessionCall.BindsData, Value.isData]
  obtain ⟨ev₁, hfirst, hoverrides⟩ :=
    evaluate_rebindStore ((Evaluator.started ∅ ∅).bindVariable 1 (.bool true))
      (v := .bool true) rfl rfl (by simp [Evaluator.bindVariable])
  have hev : stateAfter rebindStore rebindCalls (Evaluator.started ∅ ∅) =
      some (ev₁.bindVariable 1 (.bool false)) := by
    simp only [rebindCalls, stateAfter, hfirst]
  obtain ⟨ev₂, hsecond, -⟩ :=
    evaluate_rebindStore (ev₁.bindVariable 1 (.bool false)) (v := .bool false) hoverrides rfl
      (by simp [Evaluator.bindVariable])
  obtain ⟨hends, hsame⟩ :=
    evaluate_same_as_plain rebindStore ∅ (by simp) rebindCalls hcalls _ hev 2
  have hkept : Ends (Evaluator.evaluate rebindStore 3 2) (ev₁.bindVariable 1 (.bool false)) := by
    simp [Ends, hsecond]
  obtain ⟨fuel, hplain⟩ := hends.mp ⟨3, hkept⟩
  refine ⟨hcalls, _, hev, by rw [hsecond], fuel, ?_⟩
  have hresult := hsame 3 fuel hkept hplain
  rw [hsecond] at hresult
  exact hresult.eq_ok rfl

end TermGraph
