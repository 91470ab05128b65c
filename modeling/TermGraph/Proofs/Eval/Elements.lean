import Mathlib
import TermGraph.Proofs.Eval.Grow
import TermGraph.Proofs.Eval.SameEnd
import TermGraph.Proofs.Eval.Stretch

/-!
# Elements of streams are computed once

As long as nothing that an evaluator reads is changed, the elements that streams remember are
those that their sources give: a stream need not be told from one that computes every element
anew.  An element that has been computed is found again by every later call, at once.
-/

namespace TermGraph

open Value (Similar Fits)

variable {β : Type} [BitLike β] [DecidableEq β] {s : Store} {ev₀ ev ev' : Evaluator β}

/-! ## What is remembered stays -/

/-- A call loses no stream and no element. -/
theorem Call.retains (h : Call s ev₀ ev ev') : ev.heap.Retains ev'.heap := by
  have hexec {m : EvalM β (Value β)} {ev₁ : Evaluator β} {r : Except Stop (Value β)}
      (hgrows : EvalM.Grows m) (hrun : m.exec ev₁ = (r, ev')) : ev₁.heap.Retains ev'.heap := by
    obtain ⟨-, hretains⟩ := hgrows ev₁
    rwa [hrun] at hretains
  cases h with
  | @evaluate _ fuel root r hnodes hrun hends =>
      -- Starting an evaluation does not touch the streams.
      have hpass : (ev.startPass (s.sharedTerms root s.isMemoizable)).heap.Retains ev'.heap :=
        hexec ((grow_calls s fuel).eval root [])
          ((EvalM.exec_bind_ok (EvalM.exec_modify _ _) _).symm.trans hrun)
      exact hpass
  | eval henv hrun hends => exact hexec ((grow_calls s _).eval _ _) hrun
  | apply hfn harg hrun hends => exact hexec ((grow_calls s _).apply _ _) hrun
  | get hid hrun hends => exact hexec ((grow_calls s _).element _ _) hrun
  | build hsrc => exact (ev.heap.adds_alloc _).retains

theorem Stretch.retains (h : Stretch s ev₀ ev ev') : ev.heap.Retains ev'.heap := by
  induction h with
  | refl => exact .refl _
  | tail _ hcall ih => exact ih.trans hcall.retains

/-! ## Recomputation -/

/-- What a stream gives is what it gives in the reference. -/
theorem sameEnd_element (h₀ : Coherent s ev₀) (hev : (ev₀.reference s).Sound ev₀.view ev)
    {id : StreamId} (hid : Fits s (ev.heap.sources ev₀.view) (.stream id)) (n : Nat) :
    SameEnd (fun fuel => Evaluator.element s fuel id n) ev
      (fun fuel => ((ev₀.reference s).calls fuel).element id n) ev := by
  have hself := similar_of_fits hid (.refl _)
  refine Follows.sameEnd (fun fuel => (h₀.follows fuel).element n hself)
    (fun fuel => (h₀.followed fuel).element n hself) ?_ ⟨hev, .refl _⟩ ⟨hev.base, .refl _⟩
  exact fun hle => ((ev₀.reference s).approximate hle).element id n

/-- So is what its source gives, for an element that was not kept at first. -/
theorem sameEnd_sourceElement (h₀ : Coherent s ev₀) (hev : (ev₀.reference s).Sound ev₀.view ev)
    {id : StreamId} (hid : Fits s (ev.heap.sources ev₀.view) (.stream id)) {n : Nat}
    (hn : ev₀.heap.element? id n = none) :
    SameEnd (fun fuel => sourceElement (Evaluator.calls s fuel) id n) ev
      (fun fuel => ((ev₀.reference s).calls fuel).element id n) ev := by
  have hgiven : (ev₀.reference s).given.elements id n = none := hn
  have hself := similar_of_fits hid (.refl _)
  refine Follows.sameEnd
    (fun fuel => Reference.follows_sourceElement (h₀.follows fuel) h₀.alike_keeper hgiven hself)
    (fun fuel => ?_) ?_ ⟨hev, .refl _⟩ ⟨hev.base, .refl _⟩
  · cases fuel with
    | zero =>
        rw [Reference.zero]
        exact .outOfFuel
    | succ fuel =>
        rw [Reference.element_succ, Given.element_eq_sourceElement hgiven]
        exact (h₀.followed fuel).sourceElement_of_fits h₀.alike_keeper.symm n hid (.refl _)
          (.refl _)
  · exact fun hle => ((ev₀.reference s).approximate hle).element id n

/-- The reference computes such an element from the source of the stream. -/
theorem sameEnd_reference (s : Store) {id : StreamId} {n : Nat}
    (hn : ev₀.heap.element? id n = none) (ev : Evaluator β) :
    SameEnd (fun fuel => sourceElement (ev₀.given.calls s fuel) id n) ev
      (fun fuel => ((ev₀.reference s).calls fuel).element id n) ev := by
  have happrox {fuel fuel' : Nat} (hle : fuel ≤ fuel') := (ev₀.reference s).approximate hle
  have hstep (fuel : Nat) : ((ev₀.reference s).calls (fuel + 1)).element id n =
      sourceElement (ev₀.given.calls s fuel) id n :=
    (Reference.element_succ _ fuel id n).trans (Given.element_eq_sourceElement hn _)
  exact ((EvalM.Coincide.of_succ fun fuel => congrArg (EvalM.exec · ev) (hstep fuel)).sameEnd
    (fun hle => (happrox hle).element id n) fun hle => (happrox hle).sourceElement id n).symm

/-- Whether a number has a given remainder modulo two, by a function from outside. -/
def parity : List (Value Anf) → Except EvalError (Value Anf)
  | [.nat b, .nat n] => .ok (.bool (BitLike.lit (decide (n % 2 = b))))
  | _ => .error (.userError "parity")

theorem respectsSimilar_parity (s : Store) : RespectsSimilar s parity := by
  have hnats {σ τ : Sources Anf} {args args' : List (Value Anf)}
      (h : List.Forall₂ (Similar s σ τ) args args') {b n : Nat} (hargs : args = [.nat b, .nat n]) :
      args' = args := by
    subst hargs
    cases h with
    | cons hb h =>
        cases h with
        | cons hn h =>
            cases h
            rw [hb.eq_of_isAtom rfl, hn.eq_of_isAtom rfl]
  intro σ τ args args' h
  by_cases hargs : ∃ b n, args = [.nat b, .nat n]
  · obtain ⟨b, n, hargs⟩ := hargs
    rw [hnats h hargs]
    subst hargs
    refine ⟨nofun, ?_⟩
    rintro _ ⟨⟩
    exact ⟨_, rfl, .atom rfl⟩
  -- Similar arguments are two numbers on both sides or on neither.
  · have hfails {args : List (Value Anf)} (h : ¬ ∃ b n, args = [.nat b, .nat n]) :
        parity args = .error (.userError "parity") := by
      unfold parity
      split
      · exact absurd ⟨_, _, rfl⟩ h
      · rfl
    have hargs' : ¬ ∃ b n, args' = [.nat b, .nat n] := by
      rintro ⟨b, n, hargs'⟩
      have hsymm := List.Forall₂.flip (h.imp fun _ _ h => h.symm)
      exact hargs ⟨b, n, (hnats hsymm hargs').trans hargs'⟩
    rw [hfails hargs, hfails hargs']
    exact ⟨fun _ h => h, nofun⟩

/-- An evaluator that knows that function. -/
def parityStart : Evaluator Anf :=
  .configured ⟨Evaluator.defaultPrimitives.insert (.prelude "parity") ⟨2, .host parity⟩, ∅, ∅⟩

theorem coherent_parityStart (s : Store) : Coherent s parityStart := by
  refine coherent_configured s (fun i p fn hp hfn => ?_) (by simp) (by simp)
  rw [Std.HashMap.getElem?_insert] at hp
  split at hp
  · cases hp
    cases hfn
    exact respectsSimilar_parity s
  · obtain ⟨op, hop⟩ := builtin_of_defaultPrimitives i p hp
    rw [hop] at hfn
    cases hfn

/-- The streams of even and of odd numbers, merged under one variable, and that stream merged
with the first under another. -/
def parityHeap : Heap Anf :=
  ⟨#[⟨.generator (.partialApp (.prelude "parity") [.nat 0]), .empty⟩,
    ⟨.generator (.partialApp (.prelude "parity") [.nat 1]), .empty⟩,
    ⟨.mux (.var 0) 0 1, .empty⟩, ⟨.mux (.var 1) 2 0, .empty⟩]⟩

theorem fits_parity {s : Store} {σ : Sources Anf} (b : Nat) :
    Fits s σ (.partialApp (.prelude "parity") [.nat b]) :=
  .partialApp fun a ha => by
    obtain rfl : a = .nat b := by simpa using ha
    exact .atom rfl

theorem stretch_parityHeap (s : Store) :
    Stretch s parityStart parityStart { parityStart with heap := parityHeap } :=
  (((Relation.ReflTransGen.refl.tail (.build (.generator (fits_parity 0)))).tail
    (.build (.generator (fits_parity 1)))).tail
    (.build (.mux (.stream rfl (fits_parity 0)) (.stream rfl (fits_parity 1))))).tail
    (.build (.mux (.streamMux rfl (.stream rfl (fits_parity 0)) (.stream rfl (fits_parity 1)))
      (.stream rfl (fits_parity 0))))

theorem exec_apply_parity (s : Store) (fuel b n : Nat) {ev : Evaluator Anf}
    (hev : ev.primitives = parityStart.primitives) :
    (Evaluator.apply s (fuel + 1) (.partialApp (.prelude "parity") [.nat b]) (.nat n)).exec ev =
      (.ok (.bool (BitLike.lit (decide (n % 2 = b)))),
        { ev with hostCalls := ev.hostCalls + 1 }) := by
  have hprim : ev.primitives[Ident.prelude "parity"]? = some ⟨2, .host parity⟩ := by
    rw [hev]
    exact Std.HashMap.getElem?_insert_self
  change (callPrimitive (Evaluator.calls s fuel) (.prelude "parity") [.nat b, .nat n]).exec ev = _
  rw [callPrimitive, EvalM.exec_bind_ok (EvalM.exec_get ev), hprim]
  exact EvalM.exec_bind_ok (EvalM.exec_modify _ _) _

end TermGraph
