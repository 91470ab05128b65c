import Mathlib
import TermGraph.Proofs.Eval.Conditional
import TermGraph.Proofs.Eval.InRange

/-!
# Primitives return

Two primitives call back: one makes a vector of the values of a function, and one reads
elements of a stream.  They make finitely many calls, one after the other, so they come to an
end when each of these calls does, in whatever state the calls before it have left.  All other
primitives come to an end by themselves.  With the steps of the circuits in range, this makes
every primitive of the Prelude return: a value, or an error of the term.
-/

namespace TermGraph

open EvalM (Approximates)

variable {β : Type}

/-! ## Coming to an end -/

section Ends

variable {α γ : Type} {ev : Evaluator β}

theorem ends_ofExcept (x : Except EvalError α) (ev : Evaluator β) : Ends (EvalM.ofExcept x) ev := by
  cases x <;> nofun

theorem ends_ofMerge (m : Merge β α) (ev : Evaluator β) : Ends (EvalM.ofMerge m) ev := by
  rw [Ends, EvalM.exec_ofMerge]
  cases m.run ev.heap <;> simp

theorem Ends.bind {m : EvalM β α} {f : α → EvalM β γ} (h : Ends m ev)
    (hf : ∀ a ev₁, m.exec ev = (.ok a, ev₁) → Ends (f a) ev₁) : Ends (m >>= f) ev := by
  rcases hm : m.exec ev with ⟨e | a, ev₁⟩
  · rw [Ends, EvalM.exec_bind_error hm]
    rw [Ends, hm] at h
    intro he
    exact h (congrArg _ (Except.error.inj he))
  · rw [Ends, EvalM.exec_bind_ok hm]
    exact hf a ev₁ hm

/-- With more fuel a computation still comes to an end. -/
theorem Ends.mono {m m' : EvalM β α} (h : Ends m ev) (happrox : m.Approximates m') :
    Ends m' ev := by
  rwa [Ends, happrox.exec_eq (Prod.eta _).symm h]

/-- There is enough fuel for two computations when there is enough for each of them. -/
theorem exists_ends_bind {m : Nat → EvalM β α} {f : Nat → α → EvalM β γ}
    (hm : ∀ {n n'}, n ≤ n' → (m n).Approximates (m n'))
    (hf : ∀ {n n'} a, n ≤ n' → (f n a).Approximates (f n' a)) (h : ∃ fuel, Ends (m fuel) ev)
    (hnext : ∀ fuel a ev₁, (m fuel).exec ev = (.ok a, ev₁) → ∃ fuel', Ends (f fuel' a) ev₁) :
    ∃ fuel, Ends (m fuel >>= f fuel) ev := by
  obtain ⟨fuel, hends⟩ := h
  rcases hrun : (m fuel).exec ev with ⟨e | a, ev₁⟩
  · refine ⟨fuel, hends.bind fun a ev₁ hok => ?_⟩
    rw [hrun] at hok
    cases hok
  · obtain ⟨fuel', hends'⟩ := hnext fuel a ev₁ hrun
    have hmax : (m (max fuel fuel')).exec ev = (.ok a, ev₁) :=
      (hm (le_max_left _ _)).exec_eq hrun nofun
    refine ⟨max fuel fuel', ?_⟩
    rw [Ends, EvalM.exec_bind_ok hmax]
    exact hends'.mono (hf a (le_max_right _ _))

end Ends

variable [BitLike β] [DecidableEq β]

/-! ## The calls for arguments -/

/-- A call that is made for some arguments: of a function among them with a number, or for an
element of a stream among them. -/
inductive ArgumentCall (s : Store) (args : List (Value β)) : (Nat → EvalM β (Value β)) → Prop where
  | apply {fn : Value β} (hfn : fn ∈ args) (n : Nat) :
      ArgumentCall s args fun fuel => Evaluator.apply s fuel fn (.nat n)
  | element {id : StreamId} (hid : .stream id ∈ args) (n : Nat) :
      ArgumentCall s args fun fuel => Evaluator.element s fuel id n

/-- The states that such calls leave, one after the other, when each of them gives a value. -/
inductive AfterCalls (s : Store) (args : List (Value β)) (ev : Evaluator β) :
    Evaluator β → Prop where
  | start : AfterCalls s args ev ev
  | call {m : Nat → EvalM β (Value β)} {ev₁ ev₂ : Evaluator β} {fuel : Nat} {v : Value β}
      (hcalls : AfterCalls s args ev ev₁) (hm : ArgumentCall s args m)
      (hrun : (m fuel).exec ev₁ = (.ok v, ev₂)) : AfterCalls s args ev ev₂

/-- The functions and streams among some arguments come to an end whenever they are called. -/
def ArgumentsEnd (s : Store) (args : List (Value β)) (ev : Evaluator β) : Prop :=
  ∀ ev₁, AfterCalls s args ev ev₁ → ∀ m, ArgumentCall s args m → ∃ fuel, Ends (m fuel) ev₁

variable {s : Store} {args : List (Value β)} {ev ev₁ : Evaluator β}

theorem ArgumentCall.approximates {m : Nat → EvalM β (Value β)} (h : ArgumentCall s args m)
    {fuel fuel' : Nat} (hle : fuel ≤ fuel') : (m fuel).Approximates (m fuel') := by
  cases h with
  | apply hfn n => exact (calls_approximate s hle).apply _ _
  | element hid n => exact (calls_approximate s hle).element _ n

/-- Finitely many calls come to an end. -/
theorem ArgumentsEnd.exists_ends_mapM (h : ArgumentsEnd s args ev)
    {m : Nat → Nat → EvalM β (Value β)} (hm : ∀ n, ArgumentCall s args (m n)) (ns : List Nat)
    (hcalls : AfterCalls s args ev ev₁) :
    ∃ fuel, Ends (ns.mapM fun n => m n fuel) ev₁ := by
  induction ns generalizing ev₁ with
  | nil => exact ⟨0, nofun⟩
  | cons n ns ih =>
      simp only [List.mapM_cons]
      refine exists_ends_bind (fun hle => (hm n).approximates hle) (fun v hle => ?_)
        (h ev₁ hcalls _ (hm n)) fun fuel v ev₂ hrun => ?_
      · exact .bind (.mapM fun n _ => (hm n).approximates hle) fun _ => .refl _
      · obtain ⟨fuel', hends⟩ := ih (.call hcalls (hm n) hrun)
        exact ⟨fuel', hends.bind fun _ _ _ => nofun⟩

/-! ## Primitives -/

namespace Primitive

theorem ends_elementAt (v i : Value β) (ev : Evaluator β) : Ends (elementAt v i) ev := by
  refine (ends_ofExcept _ ev).bind fun elems ev₁ _ => (ends_ofExcept _ ev₁).bind fun i ev₂ _ => ?_
  cases i with
  | known i =>
      dsimp only
      cases elems[i]? <;> nofun
  | symbolic index => exact ends_ofMerge _ ev₂

/-- A vector of the values of a function is made by one call for each of its elements. -/
theorem exists_ends_gen (h : ArgumentsEnd s args ev) (n : Value β) {fn : Value β}
    (hfn : fn ∈ args) : ∃ fuel, Ends (gen (Evaluator.calls s fuel) n fn) ev := by
  have hcalls (n : Nat) : ArgumentCall s args fun fuel => Evaluator.apply s fuel fn (.nat n) :=
    .apply hfn n
  cases hn : knownNatArg "gen" n with
  | error e =>
      refine ⟨0, ?_⟩
      rw [gen, hn]
      intro h
      cases h
  | ok count =>
      obtain ⟨fuel, hends⟩ := h.exists_ends_mapM hcalls (List.range' 0 count) .start
      refine ⟨fuel, (ends_ofExcept _ ev).bind fun count' ev₁ hcount => ?_⟩
      rw [hn] at hcount
      cases hcount
      split
      · rw [tabulate_eq_mapM]
        refine hends.bind fun _ _ _ h => ?_
        cases h
      · intro h
        cases h

/-- Where the index is known there is one call for the element of a stream, and otherwise one
for each element that the index reaches. -/
theorem exists_ends_streamGet (h : ArgumentsEnd s args ev) {stream : Value β}
    (hstream : stream ∈ args) (index : Value β) :
    ∃ fuel, Ends (streamGet (Evaluator.calls s fuel) stream index) ev := by
  cases hid : streamArg "streamGet" stream with
  | error e =>
      refine ⟨0, ?_⟩
      rw [streamGet, hid]
      intro h
      cases h
  | ok id =>
      obtain rfl : stream = .stream id := by
        cases stream <;> cases hid
        rfl
      cases hindex : natArg "streamGet" index with
      | error e =>
          refine ⟨0, ?_⟩
          rw [streamGet, hid, hindex]
          intro h
          cases h
      | ok index' =>
          cases index' with
          | known n =>
              obtain ⟨fuel, hends⟩ := h ev .start _ (.element hstream n)
              refine ⟨fuel, ?_⟩
              rw [streamGet, hid, hindex]
              exact hends
          | symbolic bits =>
              obtain ⟨fuel, hends⟩ := h.exists_ends_mapM (fun n => .element hstream n)
                (List.range (1 <<< bits.length)) .start
              refine ⟨fuel, ?_⟩
              rw [streamGet, hid, hindex]
              change Ends (if bits.length ≤ maxStreamIndexWidth then _ else _) ev
              split
              · exact hends.bind fun _ ev₁ _ => ends_ofMerge _ ev₁
              · intro h
                cases h

/-- A primitive comes to an end when the functions and streams among its arguments do. -/
theorem exists_ends_run (h : ArgumentsEnd s args ev) (op : Builtin) :
    ∃ fuel, Ends (run (Evaluator.calls s fuel) op args) ev := by
  cases runCases op args with
  -- Only two primitives make calls; the others come to an end whatever is called.
  | gen n _ fn => exact exists_ends_gen h n (by simp)
  | streamGet _ stream index => exact exists_ends_streamGet h (by simp) index
  | direct x _ run_eq => exact ⟨0, run_eq _ ▸ ends_ofExcept x ev⟩
  | ite => exact ⟨0, (ends_ofExcept _ ev).bind fun _ ev₁ _ => ends_ofMerge _ ev₁⟩
  | index => exact ⟨0, ends_elementAt _ _ ev⟩
  | append => exact ⟨0, ends_ofExcept _ ev⟩
  | mkStream => exact ⟨0, (ends_ofMerge _ ev).bind fun _ _ _ => nofun⟩

end Primitive

/-! ## Primitives return -/

omit [BitLike β] [DecidableEq β] in
/-- A computation takes no step out of range and comes to an end, with a value or with an error
of the term. -/
def Checked.Returns (m : ExceptT OutOfRange (EvalM β) (Value β)) (ev : Evaluator β) : Prop :=
  ∃ ev', (∃ v, EvalM.exec m.run ev = (.ok (.ok v), ev')) ∨
    ∃ e, EvalM.exec m.run ev = (.error (.fault e), ev')

omit [BitLike β] [DecidableEq β] in
theorem Checked.returns_lift {m : EvalM β (Value β)} (h : Ends m ev) :
    Checked.Returns (ExceptT.lift m) ev := by
  have hrun : EvalM.exec (ExceptT.lift m : ExceptT OutOfRange (EvalM β) (Value β)).run ev =
      (m >>= fun v => pure (.ok v)).exec ev := by
    rw [ExceptT.run_lift, ← bind_pure_comp]
  rcases hm : m.exec ev with ⟨e | v, ev'⟩
  · cases e with
    | outOfFuel =>
        rw [Ends, hm] at h
        exact absurd rfl h
    | fault e => exact ⟨ev', .inr ⟨e, hrun.trans (EvalM.exec_bind_error hm _)⟩⟩
  · exact ⟨ev', .inl ⟨v, hrun.trans (EvalM.exec_bind_ok hm _)⟩⟩

/-- Primitives never index out of range.  Whatever the type of bits is, a primitive of the Prelude
on arguments of any kinds, widths and number takes no step out of range: written with every
access, cut, difference and quotient of the circuits that it reaches, each of which may fail, it
is the primitive.  So it returns a value or an error of the term once the functions and streams
among its arguments come to an end whenever they are called. -/
theorem primitives_stay_in_range (s : Store) {prim : Ident} {p : Primitive β}
    (hp : (Evaluator.defaultPrimitives : Std.HashMap Ident (Primitive β))[prim]? = some p) :
    ∃ op, p.implementation = .builtin op ∧ ∀ args : List (Value β),
      (∀ calls : Calls β,
        Checked.run calls op args = ExceptT.lift (Primitive.run calls op args)) ∧
      ∀ ev : Evaluator β, ArgumentsEnd s args ev →
        ∃ fuel, Checked.Returns (Checked.run (Evaluator.calls s fuel) op args) ev := by
  rw [getElem?_defaultPrimitives] at hp
  obtain ⟨row, -, rfl⟩ := Option.map_eq_some_iff.mp hp
  refine ⟨row.2.2, rfl, fun args => ⟨fun calls => Checked.run_eq calls row.2.2 args, ?_⟩⟩
  intro ev hargs
  obtain ⟨fuel, hends⟩ := Primitive.exists_ends_run hargs row.2.2
  refine ⟨fuel, ?_⟩
  rw [Checked.run_eq]
  exact Checked.returns_lift hends

/-- A vector of sums is generated: the function among the arguments ends whatever it is applied
to, and so does what is no function. -/
theorem primitives_stay_in_range_sums :
    let args : List (Value Anf) :=
      [.toNat [.one, .zero], .type, .partialApp (.prelude "addNat") [.nat 40]]
    ArgumentsEnd .empty args .new ∧
      (∀ calls : Calls Anf,
        Checked.run calls .gen args = ExceptT.lift (Primitive.run calls .gen args)) ∧
      ∃ fuel, Checked.Returns (Checked.run (Evaluator.calls .empty fuel) .gen args) .new := by
  intro args
  have hcall (fuel n : Nat) {fn : Value Anf} (hfn : fn ∈ args) :
      ∃ r, (Evaluator.apply .empty (fuel + 1) fn (.nat n)).exec .new = (r, .new) ∧
        r ≠ .error .outOfFuel := by
    obtain rfl | rfl | rfl : fn = .toNat [.one, .zero] ∨ fn = .type ∨
        fn = .partialApp (.prelude "addNat") [.nat 40] := by
      simpa [args] using hfn
    · exact ⟨_, rfl, nofun⟩
    · exact ⟨_, rfl, nofun⟩
    · exact ⟨_, exec_apply_addNat fuel 40 n, nofun⟩
  have hkeep {fuel n : Nat} {fn v : Value Anf} {ev : Evaluator Anf} (hfn : fn ∈ args)
      (hrun : (Evaluator.apply .empty fuel fn (.nat n)).exec .new = (.ok v, ev)) : ev = .new := by
    cases fuel with
    | zero => cases hrun
    | succ fuel =>
        obtain ⟨r, hrun', -⟩ := hcall fuel n hfn
        exact (Prod.mk.inj (hrun.symm.trans hrun')).2
  have hnew {ev : Evaluator Anf} (h : AfterCalls .empty args .new ev) : ev = .new := by
    induction h with
    | start => rfl
    | call hcalls hm hrun ih =>
        subst ih
        cases hm with
        | apply hfn n => exact hkeep hfn hrun
        | element hid n => simp [args] at hid
  have hargs : ArgumentsEnd .empty args .new := by
    intro ev hcalls m hm
    obtain rfl := hnew hcalls
    cases hm with
    | apply hfn n =>
        obtain ⟨r, hrun, hr⟩ := hcall 0 n hfn
        exact ⟨1, by rwa [Ends, hrun]⟩
    | element hid n => simp [args] at hid
  have hgen : (Evaluator.defaultPrimitives : Std.HashMap Ident (Primitive Anf))[
      Ident.prelude "gen"]? = some ⟨3, .builtin .gen⟩ := by
    rw [getElem?_defaultPrimitives,
      show Builtin.row? (.prelude "gen") = some ("gen", 3, .gen) by decide]
    rfl
  obtain ⟨op, hop, h⟩ := primitives_stay_in_range .empty hgen
  cases hop
  obtain ⟨hrange, hreturns⟩ := h args
  exact ⟨hargs, hrange, hreturns .new hargs⟩

end TermGraph
