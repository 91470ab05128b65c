import Mathlib
import TermGraph.Proofs.Eval.Fuel
import TermGraph.Proofs.Eval.Sound

/-!
# Keeping values loses no evaluation

An evaluation of a reference is followed by one that keeps values: where the latter recalls a
value, the former has just computed a similar one, because a computation that has come to an
end gives the same with more fuel.
-/

namespace TermGraph

open EvalM (Converges Approximates)
open Value (Similar SimilarOn)

variable {β : Type}

section Recall

variable {c : Setting β} {s : Store} {S T : Side c} {σ τ : Sources β} {v : Value β}

/-- What is computed need not be computed again by the other side, which has kept it. -/
theorem Follows.recallRight {m : Nat → EvalM β (Value β)}
    (happrox : ∀ {n n'}, n ≤ n' → (m n).Approximates (m n')) (h : Denotes s S τ m v) (n : Nat) :
    Follows S T σ τ (m n) (fun _ => Pure.pure v) (Similar s) := by
  intro ev ev' hev hev' r ev₁ hrun hr
  obtain ⟨w, ev₂, ⟨k, hconv⟩, hlater, hvw⟩ := h ev hev.holds
  have hsame := hconv (max n k) (le_max_right n k)
  rw [(happrox (le_max_left n k)).exec_eq hrun hr] at hsame
  cases hsame
  exact ⟨hlater, _, ev', .of_forall fun _ => rfl, .refl hev'.holds,
    .ok (hvw.symm.mono (.refl _) hev'.sources_le)⟩

end Recall

/-- The right side may keep what it computes, when that is sound. -/
theorem Follows.keepRight {c : Setting β} {α α' γ : Type} {S T : Side c} {σ τ : Sources β}
    {m : EvalM β α} {m' : Nat → EvalM β α'} {m'' : Nat → EvalM β γ} {R : Relation β α α'}
    {Q : Relation β α' γ} {f : α' → Evaluator β → Evaluator β} (hm : Follows S T σ τ m m' R)
    (hf : ∀ a ev, T.sources (f a ev) = T.sources ev)
    (hsound : ∀ n, Follows T S τ σ
      (do let a ← m' n; modifyThe (Evaluator β) (f a); return a) m'' Q) :
    Follows S T σ τ m (fun n => do let a ← m' n; modifyThe (Evaluator β) (f a); return a) R := by
  intro ev ev' hev hev' r ev₁ hrun hr
  obtain ⟨hlater, r', ev₁', hconv, hlater', hagree⟩ := hm _ _ hev hev' _ _ hrun hr
  cases hagree with
  | fault e => exact ⟨hlater, _, ev₁', hconv.bind_error, hlater', .fault e⟩
  | @ok a a' hrel =>
      have hkept : Converges
          (fun n => do let a ← m' n; modifyThe (Evaluator β) (f a); return a) ev'
          (.ok a', f a' ev₁') :=
        hconv.bind (.of_forall fun _ => EvalM.exec_bind_ok (EvalM.exec_modify _ _) _)
      obtain ⟨k, hk⟩ := hkept
      obtain ⟨hlater'', -⟩ := hsound k _ _ hev' hev _ _ (hk k le_rfl) nofun
      refine ⟨hlater, _, _, ⟨k, hk⟩, hlater'', .ok ?_⟩
      rwa [hf]

variable [BitLike β] [DecidableEq β] {s : Store} {c : Setting β}

/-- Streams that are similar to one that is kept from before have its elements, when the calls
of the right side give what the sources give for the others. -/
theorem CallsFollow.element_of_kept {S T : Side c} {calls' : Nat → Calls β} {σ τ : Sources β}
    {m : EvalM β (Value β)} {i j : StreamId} (n : Nat)
    (hself : τ.kept i → Follows S T σ τ m (fun k => (calls' k).element i n) (Similar s))
    (hrule : ∀ j src, τ j = some src → Similar s σ τ (.stream i) (.stream j) →
      Follows S T σ τ m (fun k => TermGraph.sourceElement (calls' k) j n) (Similar s) →
      Follows S T σ τ m (fun k => (calls' k).element j n) (Similar s))
    (hi : σ.kept i) (hij : Similar s σ τ (.stream i) (.stream j)) :
    Follows S T σ τ m (fun k => (calls' k).element j n) (Similar s) := by
  induction hij using Similar.stream_induction with
  | generator hi' | mux hi' | muxLeft hi' => exact absurd hi (Sources.not_kept_of_source hi')
  | muxRight hj left right ihl ihr =>
      refine hrule _ _ hj (.streamRight hj left right) (.askRight fun ev' hev' => ?_)
      rw [hev'.source? hj]
      refine .fork (ihl hself hrule hi) (ihr hself hrule hi) (Value.persistent_similar s) ?_
      exact fun σ₁ τ₁ a a' b' ha hb => .ofMergeRight (ha.mux_right hb)
  | kept _ hj => exact hself hj

namespace Reference

variable {R : Reference s c} {view : View} {σ τ : Sources β} {p : Keeps} {n : Nat}

/-- An element that the other side has kept. -/
theorem recallRightElement {i j : StreamId} {k : Nat} {v : Value β} {T : Side c}
    (h : R.DenotesElement τ j k v) (hij : Similar s σ τ (.stream i) (.stream j)) (n : Nat) :
    Follows R.side T σ τ ((R.calls n).element i k) (fun _ => Pure.pure v) (Similar s) := by
  intro ev ev' hev hev' r ev₁ hrun hr
  obtain ⟨w, ev₂, ⟨k', hconv⟩, hlater, hvw⟩ := h τ σ i ev (.refl _) hij.symm hev
  have hsame := hconv (max n k') (le_max_right n k')
  rw [((R.approximate (le_max_left n k')).element _ _).exec_eq hrun hr] at hsame
  cases hsame
  exact ⟨hlater, _, ev', .of_forall fun _ => rfl, .refl hev'.holds,
    .ok (hvw.symm.mono (.refl _) hev'.sources_le)⟩

/-- The calls of a reference and those of an evaluator that keeps values. -/
abbrev Kept (R : Reference s c) (view : View) (p : Keeps) (n : Nat) : Prop :=
  CallsFollow s R.side (R.keeper view) (R.calls n) (Evaluator.callsBy p s)

theorem kept_constant (h : R.Kept view p n) (hp : p.Covers R.given)
    (hc : c.Alike s R.side (R.keeper view)) (ident : Ident) (body : Option TermId) :
    Follows R.side (R.keeper view) σ τ (R.given.constant (R.calls n) ident body)
      (fun k => evalConstant (Evaluator.callsBy p s k) ident body) (Similar s) := by
  refine .askLeft fun ev hev => .askRightAt fun ev' hev' => ?_
  rw [hev.overrides_eq, hev'.overrides_eq]
  cases hv : c.overrides[ident]? with
  | some v =>
      exact .pureAt fun ev ev' hev hev' => hc.overrides ident v hv ev ev' hev.holds hev'.holds
  | none =>
      cases body with
      | none => exact h.evalGlobal hc ident
      | some body =>
          dsimp only
          cases hkept : ev'.constants[body]? with
          | some v =>
              exact .recallRight (fun hle => (R.approximate hle).body R.given body)
                (hev'.holds.constants body v hkept) n
          | none =>
              have hgiven := hev'.holds.constants_eq_none hkept
              rw [body_eq_eval hgiven]
              exact .keepRight (h.eval fun _ _ => .inl ⟨rfl, rfl⟩) (fun _ _ => rfl) fun k =>
                follows_keptConstant (callsBy_follows hp hc.symm k) hgiven

theorem kept_node (h : R.Kept view p n) (hp : p.Covers R.given)
    (hc : c.Alike s R.side (R.keeper view)) {id : TermId} (hgiven : R.given.nodes id = none)
    {env env' : Env β} (henv : SimilarOn s σ τ (s.looseVars id) env env') :
    Follows R.side (R.keeper view) σ τ ((R.calls (n + 1)).eval id env)
      (fun k => evalNode s (Evaluator.callsBy p s k) id env') (Similar s) := by
  rw [R.eval_succ]
  simp only [Given.step, hgiven]
  split
  · next ident ty body hnode =>
      simp only [evalNode, hnode]
      exact kept_constant h hp hc ident body
  · next hconst => exact h.evalNode hc hconst henv

theorem kept_eval (h : R.Kept view p n) (hp : p.Covers R.given)
    (hc : c.Alike s R.side (R.keeper view)) {id : TermId} {env env' : Env β}
    (henv : SimilarOn s σ τ (s.looseVars id) env env') :
    Follows R.side (R.keeper view) σ τ ((R.calls (n + 1)).eval id env)
      (fun k => evalStep s (Evaluator.callsBy p s k) id env') (Similar s) := by
  refine .askRightAt fun ev' hev' => ?_
  replace henv := henv.mono (.refl _) hev'.sources_le
  split
  · next hshared =>
      cases hkept : ev'.memo[id]? with
      | some v =>
          exact .recallRight (fun hle => (R.approximate hle).eval id env)
            (hev'.holds.memo id v hshared hkept env) (n + 1)
      | none =>
          have hgiven := hev'.holds.nodes_eq_none fun _ => hkept
          exact .keepRight (kept_node h hp hc hgiven henv) (fun _ _ => rfl) fun k =>
            follows_keptNode (callsBy_follows hp hc.symm k) hc.symm hgiven
              (hev'.holds.closed id hshared) env' env
  · next hshared =>
      exact kept_node h hp hc (hev'.holds.nodes_eq_none fun h => absurd h hshared) henv

/-- What follows a computation of an element from the source of a stream is also followed when
the element is kept. -/
theorem kept_element_rule (hp : p.Covers R.given) (hc : c.Alike s R.side (R.keeper view))
    {i j : StreamId} {k : Nat} (hij : Similar s σ τ (.stream i) (.stream j))
    (hsource : Follows R.side (R.keeper view) σ τ ((R.calls n).element i k)
      (fun m => sourceElement (Evaluator.callsBy p s m) j k) (Similar s)) :
    Follows R.side (R.keeper view) σ τ ((R.calls n).element i k)
      (fun m => (Evaluator.callsBy p s m).element j k) (Similar s) := by
  refine .of_succ ?_
  cases helements : p.elements with
  | false =>
      simp only [Evaluator.callsBy, helements, Bool.false_eq_true, if_false]
      exact hsource
  | true =>
      simp only [Evaluator.callsBy, helements, if_true, elementStep_eq]
      refine .askRightAt fun ev' hev' => ?_
      replace hij := hij.mono (.refl _) hev'.sources_le
      cases hkept : ev'.heap.element? j k with
      | some v =>
          exact recallRightElement
            (hev'.holds.elements j k v (counts_of_similar hij.symm) hkept) hij n
      | none =>
          exact .keepRight (hsource.later (.refl _) hev'.sources_le)
            (fun _ _ => Heap.sources_remember _ _ _ _ _) fun m =>
            follows_keptElement (callsBy_follows hp hc.symm m) hc.symm
              (hev'.holds.elements_eq_none hkept) hij.symm

/-- An element that is given is kept. -/
theorem kept_givenElement (hp : p.Covers R.given) {i : StreamId} {k : Nat}
    (hgiven : R.given.elements i k ≠ none) (hi : σ.kept i) (hi' : τ.kept i) :
    Follows R.side (R.keeper view) σ τ ((R.calls n).element i k)
      (fun m => (Evaluator.callsBy p s m).element i k) (Similar s) := by
  have helements := hp.elements.resolve_right fun hnone => hgiven (hnone i k)
  refine .of_succ ?_
  simp only [Evaluator.callsBy, helements, if_true, elementStep_eq]
  refine .askRightAt fun ev' hev' => ?_
  have hii : Similar s σ ((R.keeper view).sources ev') (.stream i) (.stream i) :=
    .streamKept hi (hev'.sources_le.kept i hi')
  obtain ⟨v, hkept⟩ := Option.ne_none_iff_exists'.mp (hev'.holds.givenElements i k hgiven)
  rw [hkept]
  exact recallRightElement (hev'.holds.elements i k v (counts_of_similar hii.symm) hkept) hii n

theorem kept_element (h : R.Kept view p n) (hp : p.Covers R.given)
    (hc : c.Alike s R.side (R.keeper view)) {i j : StreamId} (k : Nat)
    (hij : Similar s σ τ (.stream i) (.stream j)) :
    Follows R.side (R.keeper view) σ τ ((R.calls (n + 1)).element i k)
      (fun m => (Evaluator.callsBy p s m).element j k) (Similar s) := by
  cases hgiven : R.given.elements i k with
  | none =>
      have hstep : (R.calls (n + 1)).element i k = sourceElement (R.calls n) i k := by
        rw [R.element_succ, Given.element_eq_sourceElement hgiven]
      rw [hstep]
      refine h.sourceElement hc k (fun j _ hij hsource => ?_) hij
      rw [← hstep] at hsource ⊢
      exact kept_element_rule hp hc hij hsource
  | some v =>
      have hne : R.given.elements i k ≠ none := by simp [hgiven]
      intro ev ev' hev hev'
      exact CallsFollow.element_of_kept k
        (fun hi' => kept_givenElement hp hne (R.kept hev.holds hne) hi')
        (fun j src _ hij hsource => kept_element_rule hp hc hij hsource)
        (R.kept hev.holds hne) (hij.mono hev.sources_le (.refl _)) ev ev' hev.self hev'

/-- An evaluation of a reference is followed by one that keeps values. -/
theorem calls_followed {p : Keeps} (hp : p.Covers R.given)
    (hc : c.Alike s R.side (R.keeper view)) (fuel : Nat) : R.Kept view p fuel := by
  induction fuel with
  | zero =>
      rw [Kept, R.zero]
      exact ⟨fun _ => .outOfFuel, fun _ _ => .outOfFuel, fun _ _ => .outOfFuel⟩
  | succ fuel ih =>
      refine ⟨fun henv => ?_, fun hfn harg => ?_, kept_element ih hp hc⟩
      · refine .of_succ ?_
        cases hnodes : p.nodes with
        | true =>
            simp only [Evaluator.callsBy, hnodes, if_true]
            exact kept_eval ih hp hc henv
        | false =>
            obtain ⟨hnone, hconstants⟩ := hp.nodes.resolve_left (by simp [hnodes])
            simp only [Evaluator.callsBy, hnodes, Bool.false_eq_true, if_false, R.eval_succ,
              Given.step_eq_plainStep (hnone _) hconstants]
            exact ih.plainStep hc henv
      · rw [R.apply_succ]
        exact ih.applyStep hc (fun _ _ _ => rfl) hfn harg

end Reference

/-- An evaluation that keeps nothing is followed by one that keeps values. -/
theorem bareCalls_followed (p : Keeps) (s : Store) {c : Setting β} (hc : c.Plain)
    (start : StreamId) (fuel : Nat) :
    CallsFollow s (bareSide c) (keeper s c start) (bareCalls s fuel) (Evaluator.callsBy p s) :=
  Reference.calls_followed (R := bareReference s c) p.covers_none (hc.alike s _ id) fuel

end TermGraph
