import Mathlib
import TermGraph.Proofs.Eval.Conditional

/-!
# Computations that do not depend on each other

As long as nothing that an evaluator reads is changed, what it has computed for one term makes
no difference to what it computes for another.  So computations that succeed one by one from a
state succeed one after the other as well, in any order, and each of them gives what it gives
on its own.  Data is the same then.  Functions and streams are the same up to what an evaluator
may keep: a function may hold values that it does not read, and each run makes new streams.
-/

namespace TermGraph

open EvalM (Converges)
open Value (Similar Fits)

variable {β δ : Type} {s : Store}

/-! ## Values that stand for the same -/

/-- Two values, each with the state that it was computed in, stand for the same: they differ at
most in what an evaluator may keep. -/
def SameMeaning (s : Store) (ev₀ ev : Evaluator β) (v : Value β) (ev' : Evaluator β)
    (w : Value β) : Prop :=
  Similar s (ev.heap.sources ev₀.view) (ev'.heap.sources ev₀.view) v w

/-- Data only stands for itself. -/
theorem SameMeaning.eq_of_isData {ev₀ ev ev' : Evaluator β} {v w : Value β}
    (h : SameMeaning s ev₀ ev v ev' w) (hv : v.isData = true) : w = v :=
  Similar.eq_of_isData v h hv

/-! ## One after the other -/

section Sides

variable {c : Setting β} {S T : Side c} {σ τ υ : Sources β} {ev ev' ev₁ : Evaluator β}
  {m m' : Nat → EvalM β (Value β)} {f g : Nat → δ → EvalM β (Value β)} {U : δ → Value β}
  {xs : List δ} {u v : Value β}

/-- What a computation gives is similar to the value that stands for it. -/
theorem DenotesAt.similar_of_ok {fuel : Nat} (h : DenotesAt s T σ τ m u)
    (happrox : ∀ {n n'}, n ≤ n' → (m n).Approximates (m n')) (hev : T.At τ ev)
    (hrun : (m fuel).exec ev = (.ok v, ev₁)) : Similar s σ (T.sources ev₁) u v := by
  obtain ⟨w, ev₂, hconv, -, huw⟩ := h ev hev
  have hrun' := (Ends.of_ok hrun).converges happrox
  rw [hrun] at hrun'
  cases hrun'.unique hconv
  exact huw

/-- What stands for a computation stands for the computation that follows it on another side. -/
theorem DenotesAt.across (h : DenotesAt s S υ σ m u) (hev : S.At σ ev)
    (hfollows : ∀ fuel, Follows S T σ τ (m fuel) m' (Similar s)) : DenotesAt s T υ τ m' u := by
  intro ev' hev'
  obtain ⟨v, ev_v, ⟨k, hk⟩, -, huv⟩ := h ev hev
  obtain ⟨w, ev_w, hconv, hlater, hvw⟩ :=
    ((hfollows k).of_ok hev hev' (hk k le_rfl)).2 ev' hev'
  exact ⟨w, ev_w, hconv, hlater, huv.trans hvw⟩

/-- Values that stand for computations stand for what these give one after the other. -/
theorem DenotesAt.mapM (h : ∀ x ∈ xs, DenotesAt s T σ τ (fun n => f n x) (U x))
    (hev : T.At τ ev) :
    ∃ ws ev₁, Converges (fun n => xs.mapM (f n)) ev (.ok ws, ev₁) ∧ T.Later ev ev₁ ∧
      List.Forall₂ (fun x w => Similar s σ (T.sources ev₁) (U x) w) xs ws := by
  induction xs generalizing ev with
  | nil => exact ⟨[], ev, .of_forall fun _ => rfl, .refl hev.holds, .nil⟩
  | cons x xs ih =>
      obtain ⟨hx, hxs⟩ := List.forall_mem_cons.mp h
      obtain ⟨w, ev₁, hconv, hlater, huw⟩ := hx ev hev
      obtain ⟨ws, ev₂, hconv', hlater', hws⟩ := ih hxs (hlater.at hev)
      refine ⟨w :: ws, ev₂, ?_, hlater.trans hlater',
        .cons (huw.mono (.refl _) hlater'.sources_le) hws⟩
      simp only [List.mapM_cons]
      exact hconv.bind (hconv'.bind (.of_forall fun _ => rfl))

/-- Where computations succeed on one side, each from some state, there are values of one state
of the other side that stand for what the first side computes from any state. -/
theorem exists_denotesAt
    (hfollows : ∀ x ∈ xs, ∀ fuel, Follows S T σ τ (f fuel x) (fun n => g n x) (Similar s))
    (hfollowed : ∀ x ∈ xs, ∀ fuel, Follows T S τ σ (g fuel x) (fun n => f n x) (Similar s))
    (hev' : T.At τ ev')
    (hruns : ∀ x ∈ xs, ∃ ev fuel v ev₁, S.At σ ev ∧ (f fuel x).exec ev = (.ok v, ev₁)) :
    ∃ ev₁, T.Later ev' ev₁ ∧
      ∀ x ∈ xs, ∃ u, DenotesAt s S (T.sources ev₁) σ (fun n => f n x) u := by
  induction xs generalizing ev' with
  | nil => exact ⟨ev', .refl hev'.holds, nofun⟩
  | cons x xs ih =>
      simp only [List.forall_mem_cons] at hfollows hfollowed hruns
      obtain ⟨ev, fuel, v, ev_v, hev, hrun⟩ := hruns.1
      -- The other side computes the first value and goes on from the state that this leaves.
      obtain ⟨u, ev_u, ⟨k, hk⟩, hlater, -⟩ :=
        ((hfollows.1 fuel).of_ok hev hev' hrun).2 ev' hev'
      obtain ⟨-, hdenotes⟩ := (hfollowed.1 k).of_ok hev' hev (hk k le_rfl)
      obtain ⟨ev₁, hlater', hus⟩ := ih hfollows.2 hfollowed.2 (hlater.at hev') hruns.2
      exact ⟨ev₁, hlater.trans hlater', List.forall_mem_cons.mpr
        ⟨⟨u, hdenotes.mono hlater'.sources_le (.refl _)⟩, hus⟩⟩

end Sides

/-! ## Evaluators -/

section Evaluators

variable [BitLike β] [DecidableEq β] {ev₀ ev ev' : Evaluator β}

/-- The states that an evaluator comes to while nothing that it reads is changed. -/
theorem Stretch.at_keeper (h₀ : Coherent s ev₀) (h : Stretch s ev₀ ev₀ ev) :
    ((ev₀.reference s).keeper ev₀.view).At (ev.heap.sources ev₀.view) ev :=
  ⟨(h.later h₀ h₀.sound).holds, .refl _⟩

theorem Stretch.at_side (h₀ : Coherent s ev₀) (h : Stretch s ev₀ ev₀ ev) :
    ev₀.side.At (ev.heap.sources ev₀.view) ev :=
  ⟨(h.later h₀ h₀.sound).holds.base, .refl _⟩

omit [BitLike β] [DecidableEq β] in
/-- An evaluator that has computed nothing is coherent. -/
theorem coherent_new (s : Store) : Coherent s (.new : Evaluator β) := by
  refine coherent_configured s (c := ⟨Evaluator.defaultPrimitives, ∅, ∅⟩) (fun i p fn hp hfn => ?_)
    (by simp) (by simp)
  obtain ⟨op, hop⟩ := builtin_of_defaultPrimitives i p hp
  rw [hop] at hfn
  cases hfn

end Evaluators

end TermGraph
