import Mathlib
import TermGraph.Proofs.Eval.Memoization

/-!
# What is in force

An evaluator may be given primitives, overrides and values of free variables at any time,
and function values that it has returned may be applied later on.  Results follow what is in
force as long as nothing out of date is kept: values of constant bodies are dropped only
when a variable is bound, and values of shared nodes only when an evaluation starts.

So primitives and overrides may change while no value of a constant body is kept, and a
function value may be applied until something changes after it was returned.  Beyond that an
evaluator can give results of an earlier time, as the two runs at the end show.
-/

namespace TermGraph

open EvalM (Converges)
open Value (Similar SimilarOn Fits)

variable {β : Type}

/-! ## Sessions that keep nothing out of date -/

/-- An evaluator that has computed nothing, with everything that it reads. -/
def Evaluator.configured (c : Setting β) : Evaluator β :=
  { Evaluator.new with
    primitives := c.primitives, overrides := c.overrides, freeValues := c.freeValues }

variable [BitLike β] [DecidableEq β]

/-- An evaluator that has been reached by calls that come to an end, what is in force in it,
and the values that it has returned since that last changed. -/
inductive Reached (s : Store) : Setting β → List (Value β) → Evaluator β → Prop where
  | start : Reached s ⟨Evaluator.defaultPrimitives, ∅, ∅⟩ [] Evaluator.new
  | bind {c : Setting β} {returned : List (Value β)} {ev : Evaluator β} (id : TermId)
      {v : Value β} (h : Reached s c returned ev) (hv : v.isData = true) :
      Reached s { c with freeValues := c.freeValues.insert id v } [] (ev.bindVariable id v)
  | override {c : Setting β} {returned : List (Value β)} {ev : Evaluator β} (ident : Ident)
      {v : Value β} (h : Reached s c returned ev) (hnone : ev.constants = ∅)
      (hv : v.isData = true) :
      Reached s { c with overrides := c.overrides.insert ident v } [] (ev.addOverride ident v)
  | register {c : Setting β} {returned : List (Value β)} {ev : Evaluator β} (ident : Ident)
      (arity : Nat) (op : Builtin) (h : Reached s c returned ev) (hnone : ev.constants = ∅) :
      Reached s { c with primitives := c.primitives.insert ident ⟨arity, .builtin op⟩ } []
        (ev.registerPrimitive ident ⟨arity, .builtin op⟩)
  | evaluate {c : Setting β} {returned : List (Value β)} {ev ev' : Evaluator β} {fuel : Nat}
      {root : TermId} {r : Except Stop (Value β)} (h : Reached s c returned ev)
      (hrun : (Evaluator.evaluate s fuel root).exec ev = (r, ev'))
      (hends : r ≠ .error .outOfFuel) : Reached s c (r.toOption.toList ++ returned) ev'
  | apply {c : Setting β} {returned : List (Value β)} {ev ev' : Evaluator β} {fuel : Nat}
      {fn arg : Value β} {r : Except Stop (Value β)} (h : Reached s c returned ev)
      (hfn : fn ∈ returned) (harg : arg.isData = true ∨ arg ∈ returned)
      (hrun : (Evaluator.apply s fuel fn arg).exec ev = (r, ev'))
      (hends : r ≠ .error .outOfFuel) : Reached s c (r.toOption.toList ++ returned) ev'

variable {s : Store} {c : Setting β} {returned : List (Value β)} {start : StreamId}
  {ev ev' : Evaluator β}

/-- Only data and what is built in is ever set. -/
theorem Reached.plain (h : Reached s c returned ev) : c.Plain := by
  induction h with
  | start => exact ⟨builtin_of_defaultPrimitives, by simp, by simp⟩
  | bind id _ hv ih =>
      refine ⟨ih.builtin, ih.overrides, fun id' w hw => ?_⟩
      rw [Std.HashMap.getElem?_insert] at hw
      split at hw
      · cases hw
        exact hv
      · exact ih.freeValues id' w hw
  | override ident _ _ hv ih =>
      refine ⟨ih.builtin, fun i w hw => ?_, ih.freeValues⟩
      rw [Std.HashMap.getElem?_insert] at hw
      split at hw
      · cases hw
        exact hv
      · exact ih.overrides i w hw
  | register ident arity op _ _ ih =>
      refine ⟨fun i p hp => ?_, ih.overrides, ih.freeValues⟩
      rw [Std.HashMap.getElem?_insert] at hp
      split at hp
      · cases hp
        exact ⟨op, rfl⟩
      · exact ih.builtin i p hp
  | evaluate _ _ _ ih => exact ih
  | apply _ _ _ _ _ ih => exact ih

/-! ## What is returned is of its time -/

/-- What is kept is sound, and what has been returned refers to streams that count. -/
structure InForce (s : Store) (c : Setting β) (returned : List (Value β)) (start : StreamId)
    (ev : Evaluator β) : Prop where
  resting : Resting s c start ev
  sound : returned ≠ [] → Sound s c start ev
  fits : ∀ v ∈ returned, Fits s (ev.heap.sources start) v

/-- One step from a sound state: the state stays sound, and the result is of its time. -/
theorem InForce.step {m : EvalM β (Value β)} {m' : Nat → EvalM β (Value β)}
    (hsound : Sound s c start ev) (hfits : ∀ v ∈ returned, Fits s (ev.heap.sources start) v)
    (hfollows : Follows (keeper s c start) (bareSide c) ((keeper s c start).sources ev)
      ((bareSide c).sources ev) m m' (Similar s))
    {r : Except Stop (Value β)} (hrun : m.exec ev = (r, ev')) (hends : r ≠ .error .outOfFuel) :
    InForce s c (r.toOption.toList ++ returned) start ev' := by
  obtain ⟨hlater, r', ev₁', -, -, hagree⟩ :=
    hfollows ev ev ⟨hsound, .refl _⟩ ⟨hsound.setting_eq, .refl _⟩ r ev' hrun hends
  refine ⟨Sound.resting hlater.holds, fun _ => hlater.holds, fun v hv => ?_⟩
  rcases List.mem_append.mp hv with hv | hv
  · -- What is similar to a value refers to the streams that count only.
    cases hagree with
    | ok hvw =>
        obtain rfl : v = _ := by simpa [Except.toOption] using hv
        exact hvw.fits
    | fault e => simp [Except.toOption] at hv
  · exact fits_mono (hfits v hv) hlater.sources_le

/-- Where no value of a constant body is kept, anything may be put in force: streams from
before are not used any more. -/
theorem inForce_of_constants {c' : Setting β} (hsetting : ev.setting = c')
    (hnone : ev.constants = ∅) : InForce s c' [] ev.heap.cells.size ev where
  resting := by
    refine ⟨hsetting, le_rfl, fun body v hv => ?_, fun i n v hi hv => ?_⟩
    · simp [hnone] at hv
    · have hcell : ev.heap.cells[i]? = none := Array.getElem?_eq_none hi
      simp [Heap.element?, hcell] at hv
  sound := fun h => absurd rfl h
  fits := by simp

theorem follows_evaluate (hc : c.Plain) {σ τ : Sources β} (fuel : Nat) (root : TermId) :
    Follows (keeper s c start) (bareSide c) σ τ ((Evaluator.callsBy ⟨true, true⟩ s fuel).eval root [])
      (fun n => (bareCalls s n).eval root []) (Similar s) :=
  (callsBy_follows ⟨true, true⟩ s hc start fuel).eval fun _ _ => .inl ⟨rfl, rfl⟩

theorem apply_eq_callsBy (fuel : Nat) (fn arg : Value β) :
    Evaluator.apply s fuel fn arg = (Evaluator.callsBy ⟨true, true⟩ s fuel).apply fn arg := by
  rw [Evaluator.callsBy_everything]
  rfl

/-- What a value is applied to may be data, or of its time as well. -/
theorem InForce.similar_arg {τ : Sources β} {arg : Value β} (h : InForce s c returned start ev)
    (hle : (ev.heap.sources start).Le τ) (harg : arg.isData = true ∨ arg ∈ returned) :
    Similar s (ev.heap.sources start) τ arg arg :=
  harg.elim (Value.similar_self_of_isData arg) fun h' => similar_of_fits (h.fits arg h') hle

omit [BitLike β] [DecidableEq β] in
theorem sources_le_bareSide : (ev.heap.sources start).Le ((bareSide c).sources ev) where
  source _ _ hid :=
    (Heap.sources_source _ (Nat.zero_le _)).trans (Heap.of_sources_eq_some hid).2
  kept _ hid := hid.1.elim

/-- Whatever calls have come before, nothing out of date is kept. -/
theorem Reached.inForce (h : Reached s c returned ev) : ∃ start, InForce s c returned start ev := by
  induction h with
  | start => exact ⟨_, inForce_of_constants rfl rfl⟩
  | bind id h hv ih =>
      obtain ⟨start, hin⟩ := ih
      exact ⟨_, inForce_of_constants (hin.resting.bindVariable id _).setting_eq rfl⟩
  | override ident h hnone hv ih =>
      obtain ⟨start, hin⟩ := ih
      refine ⟨_, inForce_of_constants ?_ hnone⟩
      rw [← hin.resting.setting_eq]
      rfl
  | register ident arity op h hnone ih =>
      obtain ⟨start, hin⟩ := ih
      refine ⟨_, inForce_of_constants ?_ hnone⟩
      rw [← hin.resting.setting_eq]
      rfl
  | @evaluate c returned ev ev' fuel root r h hrun hends ih =>
      obtain ⟨start, hin⟩ := ih
      rw [exec_evaluate] at hrun
      exact ⟨start, InForce.step (hin.resting.startPass root) hin.fits
        (follows_evaluate h.plain fuel root) hrun hends⟩
  | @apply c returned ev ev' fuel fn arg r h hfn harg hrun hends ih =>
      obtain ⟨start, hin⟩ := ih
      rw [apply_eq_callsBy] at hrun
      have hfollows := (callsBy_follows ⟨true, true⟩ s h.plain start fuel).apply
        (similar_of_fits (hin.fits fn hfn) (sources_le_bareSide (c := c)))
        (hin.similar_arg sources_le_bareSide harg)
      exact ⟨start, InForce.step (hin.sound (List.ne_nil_of_mem hfn)) hin.fits hfollows hrun hends⟩

/-! ## Results of the time -/

theorem sound_configured (s : Store) (c : Setting β) : Sound s c 0 (Evaluator.configured c) := by
  have hin := inForce_of_constants (s := s) (rfl : (Evaluator.configured c).setting = c) rfl
  refine hin.resting.sound (fun id hid => ?_) rfl
  simp [Evaluator.configured, Evaluator.new] at hid

/-- A function that returns two copies of a pair of copies of a free variable, and a constant
whose body is a global. -/
def keptStore : Store :=
  Store.ofNodes [.unitType, .free "x" 0, .pair 1 1, .pair 2 2, .lam "y" 0 3,
    .global (.prelude "g"), .constant (.prelude "k") 0 (some 5)]

theorem keptStore_node : keptStore.node 1 = .free "x" 0 ∧ keptStore.node 2 = .pair 1 1 ∧
    keptStore.node 3 = .pair 2 2 ∧ keptStore.node 4 = .lam "y" 0 3 ∧
    keptStore.node 5 = .global (.prelude "g") ∧
    keptStore.node 6 = .constant (.prelude "k") 0 (some 5) :=
  ⟨rfl, rfl, rfl, rfl, rfl, rfl⟩

/-- The constant is computed from the value of the global, unless it is kept. -/
theorem evaluate_keptStore_constant (ev : Evaluator β) {v : Value β}
    (hg : ev.overrides[Ident.prelude "g"]? = some v)
    (hk : ev.overrides[Ident.prelude "k"]? = none) :
    ∃ ev', (Evaluator.evaluate keptStore 2 6).exec ev =
        (.ok (ev.constants[(5 : TermId)]?.getD v), ev') ∧ ev'.overrides = ev.overrides ∧
      ev'.constants[(5 : TermId)]? = some (ev.constants[(5 : TermId)]?.getD v) := by
  obtain ⟨-, -, -, -, h5, h6⟩ := keptStore_node
  rw [Evaluator.evaluate, EvalM.exec_bind_ok (EvalM.exec_modify _ _),
    exec_eval_of_not_isMemoizable rfl 6 1 [] rfl, evalNode, h6]
  dsimp only
  rw [evalConstant, EvalM.exec_bind_ok (EvalM.exec_get _)]
  simp only [Evaluator.startPass, hk]
  cases hkept : ev.constants[(5 : TermId)]? with
  | some u => exact ⟨_, rfl, rfl, by simpa using hkept⟩
  | none =>
      have hbody : ((Evaluator.calls keptStore 1).eval 5 []).exec
          (ev.startPass (keptStore.sharedTerms 6 keptStore.isMemoizable)) =
            (.ok v, ev.startPass (keptStore.sharedTerms 6 keptStore.isMemoizable)) := by
        refine (exec_eval_of_not_isMemoizable rfl 6 0 [] rfl).trans ?_
        rw [evalNode, h5]
        dsimp only
        rw [evalGlobal, EvalM.exec_bind_ok (EvalM.exec_get _)]
        simp [Evaluator.startPass, hg]
      refine ⟨_, EvalM.exec_bind_ok hbody _, rfl, ?_⟩
      simp

/-- Applications follow what is in force.  A function value that has been returned since the
last change is applied with the same result as by an evaluator that never keeps anything and
has what is in force, and the one comes to an end if and only if the other does. -/
theorem apply_follows_setting (h : Reached s c returned ev) {fn arg : Value β}
    (hfn : fn ∈ returned) (harg : arg.isData = true ∨ arg ∈ returned) :
    let plain := { Evaluator.configured c with heap := ev.heap }
    ((∃ fuel, Ends (Evaluator.apply s fuel fn arg) ev) ↔
      ∃ fuel, Ends ((bareCalls s fuel).apply fn arg) plain) ∧
      ∀ fuel fuel', Ends (Evaluator.apply s fuel fn arg) ev →
        Ends ((bareCalls s fuel').apply fn arg) plain →
        SameResult ((Evaluator.apply s fuel fn arg).exec ev).1
          (((bareCalls s fuel').apply fn arg).exec plain).1 := by
  intro plain
  obtain ⟨start, hin⟩ := h.inForce
  -- A function value has been returned, so an evaluation has started since the last change.
  have hsound := hin.sound (List.ne_nil_of_mem hfn)
  have hat : (keeper s c start).At (ev.heap.sources start) ev := ⟨hsound, .refl _⟩
  have hat' : (bareSide c).At ((bareSide c).sources ev) plain := ⟨rfl, .refl _⟩
  have hfn' := similar_of_fits (hin.fits fn hfn) (sources_le_bareSide (c := c))
  have harg' := hin.similar_arg (sources_le_bareSide (c := c)) harg
  have hkept (fuel : Nat) := (callsBy_follows ⟨true, true⟩ s h.plain start fuel).apply hfn' harg'
  have hplain (fuel : Nat) :=
    (bareCalls_followed ⟨true, true⟩ s h.plain start fuel).apply hfn'.symm harg'.symm
  simp only [Ends, apply_eq_callsBy]
  refine ⟨⟨?_, ?_⟩, fun fuel fuel' hends hends' => ?_⟩
  · rintro ⟨fuel, hends⟩
    obtain ⟨-, r', ev₁', ⟨k, hk⟩, -, hagree⟩ := hkept fuel ev plain hat hat' _ _ rfl hends
    refine ⟨k, ?_⟩
    rw [hk k le_rfl]
    exact hagree.right_ne
  · rintro ⟨fuel, hends⟩
    obtain ⟨-, r', ev₁', ⟨k, hk⟩, -, hagree⟩ := hplain fuel plain ev hat' hat _ _ rfl hends
    refine ⟨k, ?_⟩
    rw [hk k le_rfl]
    exact hagree.right_ne
  · obtain ⟨-, r', ev₁', hconv, -, hagree⟩ := hkept fuel ev plain hat hat' _ _ rfl hends
    have hsame : Converges (fun k => (bareCalls s k).apply fn arg) plain
        (((bareCalls s fuel').apply fn arg).exec plain) :=
      ⟨fuel', fun n hn => ((callsBy_approximate _ s hn).apply _ _).exec_eq rfl hends'⟩
    rw [hsame.unique hconv]
    exact hagree.same

theorem keptStore_sharedTerms : keptStore.sharedTerms 4 keptStore.isMemoizable = [2] := by
  obtain ⟨h1, h2, h3, h4, -⟩ := keptStore_node
  have h0 : keptStore.node 0 = .unitType := rfl
  have hsize : keptStore.size = 7 := rfl
  have hmemoizable : keptStore.isMemoizable 0 = false ∧ keptStore.isMemoizable 1 = false ∧
      keptStore.isMemoizable 2 = true := by decide +kernel
  refine Store.sharedTermsBy_eq (by simp) fun t => ?_
  match t with
  | 0 | 1 | 2 | 3 | 4 | t + 5 =>
      simp [hsize, Store.tally, Store.tallyOne, h4, h3, h2, h1, h0, Node.children,
        Node.childrenWithDepth, Std.HashMap.getElem_insert, hmemoizable]

/-- The pair of copies is evaluated unless its value is kept. -/
theorem eval_keptStore_pair {v : Value β} (hshared : ev.shared = Std.HashSet.ofList [2])
    (hv : ev.freeValues[(1 : TermId)]? = some v) :
    ∃ ev', ((Evaluator.calls keptStore 2).eval 2 [.unit]).exec ev =
        (.ok (ev.memo[(2 : TermId)]?.getD (.pair v v)), ev') ∧ ev'.shared = ev.shared ∧
      ev'.freeValues = ev.freeValues ∧
      ev'.memo[(2 : TermId)]? = some (ev.memo[(2 : TermId)]?.getD (.pair v v)) := by
  obtain ⟨h1, h2, -⟩ := keptStore_node
  change ∃ ev', (Evaluator.eval keptStore 2 2 [.unit]).exec ev = _ ∧ _
  rw [Evaluator.eval, evalStep, EvalM.exec_bind_ok (EvalM.exec_get _), if_pos (by simp [hshared])]
  cases hkept : ev.memo[(2 : TermId)]? with
  | some u => exact ⟨ev, rfl, rfl, rfl, hkept⟩
  | none =>
      have hx : ((Evaluator.calls keptStore 1).eval 1 [.unit]).exec ev = (.ok v, ev) := by
        refine (exec_eval_of_not_shared 0 [.unit] (by simp [hshared])).trans ?_
        rw [evalNode, h1]
        dsimp only
        rw [EvalM.exec_bind_ok (EvalM.exec_get _), hv]
        rfl
      have hnode : (evalNode keptStore (Evaluator.calls keptStore 1) 2 [.unit]).exec ev =
          (.ok (.pair v v), ev) := by
        rw [evalNode, h2]
        dsimp only
        rw [EvalM.exec_bind_ok hx, EvalM.exec_bind_ok hx]
        rfl
      refine ⟨_, EvalM.exec_bind_ok hnode _, rfl, rfl, ?_⟩
      simp

theorem apply_keptStore (ev : Evaluator β) (v : Value β)
    (hshared : ev.shared = Std.HashSet.ofList [2])
    (hv : ev.freeValues[(1 : TermId)]? = some v) :
    ∃ ev', (Evaluator.apply keptStore 4 (.closure 4 []) .unit).exec ev =
        (.ok (.pair (ev.memo[(2 : TermId)]?.getD (.pair v v))
          (ev.memo[(2 : TermId)]?.getD (.pair v v))), ev') ∧ ev'.shared = ev.shared ∧
      ev'.memo[(2 : TermId)]? = some (ev.memo[(2 : TermId)]?.getD (.pair v v)) := by
  obtain ⟨-, -, h3, h4, -⟩ := keptStore_node
  obtain ⟨ev₁, hfirst, hshared₁, hv₁, hmemo₁⟩ := eval_keptStore_pair hshared hv
  obtain ⟨ev₂, hsecond, hshared₂, -, hmemo₂⟩ :=
    eval_keptStore_pair (hshared₁.trans hshared) (hv₁ ▸ hv)
  rw [hmemo₁, Option.getD_some] at hsecond hmemo₂
  refine ⟨ev₂, ?_, hshared₂.trans hshared₁, hmemo₂⟩
  rw [Evaluator.apply, applyStep]
  dsimp only
  rw [h4]
  dsimp only
  refine (exec_eval_of_not_shared 2 [.unit] (by simp [hshared])).trans ?_
  rw [evalNode, h3]
  dsimp only
  rw [EvalM.exec_bind_ok hfirst, EvalM.exec_bind_ok hsecond]
  rfl

theorem evaluate_keptStore_function (ev : Evaluator β) :
    (Evaluator.evaluate keptStore 1 4).exec ev = (.ok (.closure 4 []), ev.startPass [2]) := by
  obtain ⟨-, -, -, h4, -⟩ := keptStore_node
  rw [Evaluator.evaluate, keptStore_sharedTerms, EvalM.exec_bind_ok (EvalM.exec_modify _ _),
    exec_eval_of_not_shared 0 [] (by simp [Evaluator.startPass]), evalNode, h4]
  rfl

/-- The variable is bound, and the function is evaluated and applied. -/
theorem apply_follows_setting_bound :
    let c : Setting Bool :=
      ⟨Evaluator.defaultPrimitives, ∅, (∅ : Std.HashMap TermId _).insert 1 (.bool true)⟩
    let ev := (Evaluator.new.bindVariable 1 (.bool true)).startPass [2]
    Reached keptStore c [.closure 4 []] ev ∧
      ((Evaluator.apply keptStore 4 (.closure 4 []) .unit).exec ev).1 =
        .ok (.pair (.pair (.bool true) (.bool true)) (.pair (.bool true) (.bool true))) ∧
      ∃ fuel, (((bareCalls keptStore fuel).apply (.closure 4 []) .unit).exec
        { Evaluator.configured c with heap := ev.heap }).1 =
          .ok (.pair (.pair (.bool true) (.bool true)) (.pair (.bool true) (.bool true))) := by
  intro c ev
  have hreached : Reached keptStore c [.closure 4 []] ev :=
    (Reached.start.bind 1 (v := .bool true) rfl).evaluate
      (evaluate_keptStore_function (Evaluator.new.bindVariable 1 (.bool true))) (by simp)
  obtain ⟨ev', hrun, -⟩ := apply_keptStore ev (.bool true) rfl
    (by simp [ev, Evaluator.startPass, Evaluator.bindVariable])
  have hresult : ((Evaluator.apply keptStore 4 (.closure 4 []) .unit).exec ev).1 =
      .ok (.pair (.pair (.bool true) (.bool true)) (.pair (.bool true) (.bool true))) := by
    rw [hrun]
    simp [ev, Evaluator.startPass]
  obtain ⟨hends, hsame⟩ := apply_follows_setting hreached
    (List.mem_singleton_self _) (.inl rfl : (Value.unit : Value Bool).isData = true ∨ _)
  have hkept : Ends (Evaluator.apply keptStore 4 (.closure 4 []) .unit) ev := by
    simp [Ends, hresult]
  obtain ⟨fuel, hplain⟩ := hends.mp ⟨4, hkept⟩
  refine ⟨hreached, hresult, fuel, ?_⟩
  have hsame := hsame 4 fuel hkept hplain
  rw [hresult] at hsame
  exact hsame.eq_ok rfl

/-- An evaluator that keeps nothing reads the variable each time. -/
theorem apply_keptStore_bare {v : Value β} (hv : ev.freeValues[(1 : TermId)]? = some v) :
    ((bareCalls keptStore 4).apply (.closure 4 []) .unit).exec ev =
      (.ok (.pair (.pair v v) (.pair v v)), ev) := by
  obtain ⟨h1, h2, h3, h4, -⟩ := keptStore_node
  have hx : ((bareCalls keptStore 1).eval 1 [.unit]).exec ev = (.ok v, ev) := by
    rw [bareCalls_eval, plainStep, h1, evalNode, h1]
    dsimp only
    rw [EvalM.exec_bind_ok (EvalM.exec_get _), hv]
    rfl
  have hpair : ((bareCalls keptStore 2).eval 2 [.unit]).exec ev = (.ok (.pair v v), ev) := by
    rw [bareCalls_eval, plainStep, h2, evalNode, h2]
    dsimp only
    rw [EvalM.exec_bind_ok hx, EvalM.exec_bind_ok hx]
    rfl
  change (applyStep keptStore (bareCalls keptStore 3) (.closure 4 []) .unit).exec ev = _
  rw [applyStep, h4]
  dsimp only
  rw [bareCalls_eval, plainStep, h3, evalNode, h3]
  dsimp only
  rw [EvalM.exec_bind_ok hpair, EvalM.exec_bind_ok hpair]
  rfl

/-- When the variable is bound anew, the function gives its result of before, and an
evaluator that keeps nothing gives the new one. -/
theorem apply_after_binding_stale :
    ∃ ev ev' : Evaluator Bool,
      (Evaluator.evaluate keptStore 1 4).exec (Evaluator.new.bindVariable 1 (.bool true)) =
        (.ok (.closure 4 []), ev) ∧
      (Evaluator.apply keptStore 4 (.closure 4 []) .unit).exec ev =
        (.ok (.pair (.pair (.bool true) (.bool true)) (.pair (.bool true) (.bool true))), ev') ∧
      ((Evaluator.apply keptStore 4 (.closure 4 []) .unit).exec
        (ev'.bindVariable 1 (.bool false))).1 =
          .ok (.pair (.pair (.bool true) (.bool true)) (.pair (.bool true) (.bool true))) ∧
      (((bareCalls keptStore 4).apply (.closure 4 []) .unit).exec
        (ev'.bindVariable 1 (.bool false))).1 =
          .ok (.pair (.pair (.bool false) (.bool false)) (.pair (.bool false) (.bool false))) := by
  obtain ⟨ev', hfirst, hshared, hmemo⟩ := apply_keptStore
    ((Evaluator.new.bindVariable 1 (.bool true)).startPass [2]) (.bool true) rfl
    (by simp [Evaluator.startPass, Evaluator.bindVariable])
  obtain ⟨_, hagain, -⟩ := apply_keptStore (ev'.bindVariable 1 (.bool false))
    (.bool false) hshared (by simp [Evaluator.bindVariable])
  refine ⟨_, ev', evaluate_keptStore_function _, ?_, ?_, ?_⟩
  · simpa [Evaluator.startPass] using hfirst
  · rw [hagain]
    simp [Evaluator.bindVariable, hmemo, Evaluator.startPass]
  · rw [apply_keptStore_bare (v := .bool false) (by simp [Evaluator.bindVariable])]

end TermGraph
