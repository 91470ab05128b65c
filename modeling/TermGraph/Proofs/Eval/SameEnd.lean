import Mathlib
import TermGraph.Proofs.Eval.Memoization

/-!
# Computations with the same end

Two computations come to the same end, each from a state of its own, when one of them ends if
and only if the other does, and they give the same data or fail with the same error.  They may
even coincide: then all of their outcomes and the states that they leave are the same.
-/

namespace TermGraph

open EvalM (Converges)
open Value (Similar)

variable {β : Type}

/-! ## The same end -/

theorem SameResult.refl {r : Except Stop (Value β)} (h : r ≠ .error .outOfFuel) :
    SameResult r r := by
  match r with
  | .ok v => exact .ok fun _ => rfl
  | .error (.fault e) => exact .fault e
  | .error .outOfFuel => exact absurd rfl h

theorem SameResult.symm {r r' : Except Stop (Value β)} (h : SameResult r r') :
    SameResult r' r := by
  cases h with
  | ok hvw => exact .ok fun hdata => (hvw hdata.symm).symm
  | fault e => exact .fault e

theorem SameResult.trans {r r' r'' : Except Stop (Value β)} (h : SameResult r r')
    (h' : SameResult r' r'') : SameResult r r'' := by
  cases h with
  | fault e => exact h'
  | ok hvw =>
      cases h' with
      | ok hwu =>
          refine .ok fun hdata => ?_
          rcases hdata with hdata | hdata
          · have heq := hvw (.inl hdata)
            exact heq.trans (hwu (.inl (heq ▸ hdata)))
          · have heq := hwu (.inr hdata)
            exact (hvw (.inr (heq ▸ hdata))).trans heq

/-- One computation comes to an end from one state if and only if another one does from
another state, and then with the same result. -/
structure SameEnd (m : Nat → EvalM β (Value β)) (ev : Evaluator β)
    (m' : Nat → EvalM β (Value β)) (ev' : Evaluator β) : Prop where
  ends : (∃ fuel, Ends (m fuel) ev) ↔ ∃ fuel, Ends (m' fuel) ev'
  result : ∀ fuel fuel', Ends (m fuel) ev → Ends (m' fuel') ev' →
    SameResult ((m fuel).exec ev).1 ((m' fuel').exec ev').1

section SameEnd

variable {m m' m'' : Nat → EvalM β (Value β)} {ev ev' ev'' : Evaluator β} {fuel : Nat}

theorem Ends.of_ok {v : Value β} (h : (m fuel).exec ev = (.ok v, ev')) : Ends (m fuel) ev := by
  simp [Ends, h]

/-- What has come to an end does so with all more fuel. -/
theorem Ends.converges (h : Ends (m fuel) ev)
    (happrox : ∀ {n n'}, n ≤ n' → (m n).Approximates (m n')) :
    Converges m ev ((m fuel).exec ev) :=
  ⟨fuel, fun _ hn => (happrox hn).exec_eq (Prod.eta _).symm h⟩

theorem EvalM.Converges.ends {q : Except Stop (Value β) × Evaluator β} (h : Converges m ev q)
    (hq : q.1 ≠ .error .outOfFuel) : ∃ fuel, Ends (m fuel) ev := by
  obtain ⟨k, hk⟩ := h
  exact ⟨k, by rwa [Ends, hk k le_rfl]⟩

theorem SameEnd.symm (h : SameEnd m ev m' ev') : SameEnd m' ev' m ev :=
  ⟨h.ends.symm, fun fuel fuel' hends hends' => (h.result fuel' fuel hends' hends).symm⟩

theorem SameEnd.trans (h : SameEnd m ev m' ev') (h' : SameEnd m' ev' m'' ev'') :
    SameEnd m ev m'' ev'' := by
  refine ⟨h.ends.trans h'.ends, fun fuel fuel'' hends hends'' => ?_⟩
  obtain ⟨fuel', hends'⟩ := h.ends.mp ⟨fuel, hends⟩
  exact (h.result fuel fuel' hends hends').trans (h'.result fuel' fuel'' hends' hends'')

/-- Computations that follow each other come to the same end. -/
theorem Follows.sameEnd {s : Store} {c : Setting β} {S T : Side c} {σ τ : Sources β}
    (h : ∀ fuel, Follows S T σ τ (m fuel) m' (Similar s))
    (h' : ∀ fuel, Follows T S τ σ (m' fuel) m (Similar s))
    (happrox : ∀ {n n'}, n ≤ n' → (m' n).Approximates (m' n'))
    (hev : S.At σ ev) (hev' : T.At τ ev') : SameEnd m ev m' ev' := by
  refine ⟨⟨?_, ?_⟩, fun fuel fuel' hends hends' => ?_⟩
  · rintro ⟨fuel, hends⟩
    obtain ⟨-, r', ev₁', hconv, -, hagree⟩ := h fuel ev ev' hev hev' _ _ rfl hends
    exact hconv.ends hagree.right_ne
  · rintro ⟨fuel, hends⟩
    obtain ⟨-, r', ev₁', hconv, -, hagree⟩ := h' fuel ev' ev hev' hev _ _ rfl hends
    exact hconv.ends hagree.right_ne
  · obtain ⟨-, r', ev₁', hconv, -, hagree⟩ := h fuel ev ev' hev hev' _ _ rfl hends
    rw [← hconv.unique (hends'.converges happrox)]
    exact hagree.same

end SameEnd

/-! ## The same outcome -/

namespace EvalM

variable {α γ : Type}

/-- Two computations come to the same end, one from each of two states: with the same outcome,
in the same state. -/
def Coincide (m : Nat → EvalM β α) (ev : Evaluator β) (m' : Nat → EvalM β α)
    (ev' : Evaluator β) : Prop :=
  ∀ q : Except Stop α × Evaluator β, q.1 ≠ .error .outOfFuel →
    (Converges m ev q ↔ Converges m' ev' q)

variable {m m' m'' : Nat → EvalM β α} {f : Nat → α → EvalM β γ} {ev ev' ev'' : Evaluator β}

theorem exec_bind_congr {m m' : EvalM β α} (h : m.exec ev = m'.exec ev') (f : α → EvalM β γ) :
    (m >>= f).exec ev = (m' >>= f).exec ev' := by
  rw [exec_bind, exec_bind, h]

/-- What comes to an end after another computation does so after the other has. -/
theorem Converges.bind_iff (happrox : ∀ {n n'}, n ≤ n' → (m n).Approximates (m n'))
    {q : Except Stop γ × Evaluator β} (hq : q.1 ≠ .error .outOfFuel) :
    Converges (fun n => m n >>= f n) ev q ↔
      (∃ a ev₁, Converges m ev (.ok a, ev₁) ∧ Converges (fun n => f n a) ev₁ q) ∨
        ∃ e, Converges m ev (.error e, q.2) ∧ q.1 = .error e ∧ e ≠ .outOfFuel := by
  constructor
  · rintro ⟨k, hk⟩
    rcases hm : (m k).exec ev with ⟨e | a, ev₁⟩
    · have hfirst := hk k le_rfl
      rw [exec_bind_error hm] at hfirst
      subst hfirst
      have he : e ≠ .outOfFuel := fun heq => hq (congrArg _ heq)
      exact .inr ⟨e, ⟨k, fun n hn => (happrox hn).exec_eq hm (he ∘ Except.error.inj)⟩, rfl, he⟩
    · have hok (n : Nat) (hn : k ≤ n) : (m n).exec ev = (.ok a, ev₁) :=
        (happrox hn).exec_eq hm nofun
      exact .inl ⟨a, ev₁, ⟨k, hok⟩, k, fun n hn => (exec_bind_ok (hok n hn) _).symm.trans (hk n hn)⟩
  · rintro (⟨a, ev₁, hm, hf⟩ | ⟨e, hm, he, -⟩)
    · exact hm.bind hf
    · obtain ⟨r, ev₁⟩ := q
      obtain rfl : r = .error e := he
      exact hm.bind_error

namespace Coincide

theorem trans (h : Coincide m ev m' ev') (h' : Coincide m' ev' m'' ev'') :
    Coincide m ev m'' ev'' :=
  fun q hq => (h q hq).trans (h' q hq)

/-- Computations that do the same with enough fuel. -/
theorem of_eventually {k : Nat} (h : ∀ n, k ≤ n → (m n).exec ev = (m' n).exec ev') :
    Coincide m ev m' ev' := by
  refine fun q _ => ⟨?_, ?_⟩
  · rintro ⟨k', hk'⟩
    exact ⟨max k k', fun n hn => (h n (by omega)).symm.trans (hk' n (by omega))⟩
  · rintro ⟨k', hk'⟩
    exact ⟨max k k', fun n hn => (h n (by omega)).trans (hk' n (by omega))⟩

/-- The first unit of fuel may be set apart. -/
theorem of_succ (h : ∀ n, (m (n + 1)).exec ev = (m' n).exec ev') : Coincide m ev m' ev' := by
  refine fun q _ => ⟨?_, fun hm' => .of_succ ?_⟩
  · rintro ⟨k, hk⟩
    exact ⟨k, fun n hn => (h n).symm.trans (hk (n + 1) (by omega))⟩
  · obtain ⟨k, hk⟩ := hm'
    exact ⟨k, fun n hn => (h n).trans (hk n hn)⟩

/-- The same may be done next. -/
theorem bind (h : Coincide m ev m' ev')
    (happrox : ∀ {n n'}, n ≤ n' → (m n).Approximates (m n'))
    (happrox' : ∀ {n n'}, n ≤ n' → (m' n).Approximates (m' n')) (f : Nat → α → EvalM β γ) :
    Coincide (fun n => m n >>= f n) ev (fun n => m' n >>= f n) ev' := by
  intro q hq
  rw [Converges.bind_iff happrox hq, Converges.bind_iff happrox' hq]
  refine or_congr ?_ ?_
  · exact exists₂_congr fun a ev₁ => and_congr_left' (h _ nofun)
  · refine exists_congr fun e => and_congr_left fun ⟨he, hne⟩ => h _ ?_
    exact fun heq => hne (Except.error.inj heq)

/-- The end is the same in particular. -/
theorem sameEnd {m m' : Nat → EvalM β (Value β)} (h : Coincide m ev m' ev')
    (happrox : ∀ {n n'}, n ≤ n' → (m n).Approximates (m n'))
    (happrox' : ∀ {n n'}, n ≤ n' → (m' n).Approximates (m' n')) : SameEnd m ev m' ev' := by
  refine ⟨⟨?_, ?_⟩, fun fuel fuel' hends hends' => ?_⟩
  · rintro ⟨fuel, hends⟩
    exact ((h _ hends).mp (hends.converges happrox)).ends hends
  · rintro ⟨fuel, hends⟩
    exact ((h _ hends).mpr (hends.converges happrox')).ends hends
  · rw [((h _ hends).mp (hends.converges happrox)).unique (hends'.converges happrox')]
    exact .refl hends'

end Coincide

end EvalM

end TermGraph
