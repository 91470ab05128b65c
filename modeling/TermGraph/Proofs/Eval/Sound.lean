import Mathlib
import TermGraph.Proofs.Eval.Reference

/-!
# What is kept is what would be computed anew

The values that an evaluator keeps are those that a reference evaluator, which keeps nothing
itself, would compute from whatever state and, since shared nodes are closed, in whatever
environment.  Every evaluation preserves this, so it is followed by an evaluation of the
reference.
-/

namespace TermGraph

open EvalM (Converges)
open Value (Similar SimilarOn Fits)

variable {β : Type}

/-! ## Values that stand for what is computed anew -/

section Denotes

variable {c : Setting β} {s : Store} {S T : Side c} {σ σ' τ : Sources β} {v : Value β}
  {m : EvalM β (Value β)} {m' : Nat → EvalM β (Value β)} {ev ev₁ : Evaluator β}

/-- A value is similar to what a computation gives from whatever state of a side. -/
def Denotes (s : Store) (T : Side c) (σ : Sources β) (m' : Nat → EvalM β (Value β))
    (v : Value β) : Prop :=
  ∀ ev', T.Holds ev' → ∃ w ev₁', Converges m' ev' (.ok w, ev₁') ∧ T.Later ev' ev₁' ∧
    Similar s σ (T.sources ev₁') v w

theorem Denotes.mono (h : Denotes s T σ m' v) (hσ : σ.Le σ') : Denotes s T σ' m' v := by
  intro ev' hev'
  obtain ⟨w, ev₁', hconv, hlater, hvw⟩ := h ev' hev'
  exact ⟨w, ev₁', hconv, hlater, hvw.mono hσ (.refl _)⟩

/-- What has been computed stands for what every computation that follows gives. -/
theorem Follows.denotes (h : ∀ τ, Follows S T σ τ m m' (Similar s)) (hev : S.At σ ev)
    (hrun : m.exec ev = (.ok v, ev₁)) : Denotes s T (S.sources ev₁) m' v := by
  intro ev' hev'
  obtain ⟨-, r', ev₁', hconv, hlater, hagree⟩ :=
    h (T.sources ev') _ _ hev ⟨hev', .refl _⟩ _ _ hrun nofun
  cases hagree with
  | ok hvw => exact ⟨_, ev₁', hconv, hlater, hvw⟩

/-- What is kept need not be computed again. -/
theorem Follows.recall (h : Denotes s T σ m' v) :
    Follows S T σ τ (Pure.pure v) m' (Similar s) := by
  intro ev ev' hev hev' r ev₁ hrun _
  cases hrun
  obtain ⟨w, ev₁', hconv, hlater, hvw⟩ := h ev' hev'.holds
  exact ⟨.refl hev.holds, _, ev₁', hconv, hlater, .ok (hvw.mono hev.sources_le (.refl _))⟩

end Denotes

/-- Keeping a result changes nothing about it. -/
theorem Follows.keep {c : Setting β} {α α' : Type} {S T : Side c} {σ τ : Sources β}
    {m : EvalM β α} {m' : Nat → EvalM β α'} {R : Relation β α α'}
    {f : α → Evaluator β → Evaluator β} (hm : Follows S T σ τ m m' R)
    (hf : ∀ ev ev₁ a, S.At σ ev → S.Later ev ev₁ → m.exec ev = (.ok a, ev₁) →
      S.Holds (f a ev₁) ∧ S.sources (f a ev₁) = S.sources ev₁) :
    Follows S T σ τ (do let a ← m; modifyThe (Evaluator β) (f a); return a) m' R := by
  intro ev ev' hev hev' r ev₂ hrun hr
  rcases hm₁ : m.exec ev with ⟨e | a, ev₁⟩
  · rw [EvalM.exec_bind_error hm₁] at hrun
    cases hrun
    exact hm _ _ hev hev' _ _ hm₁ hr
  · rw [EvalM.exec_bind_ok hm₁, EvalM.exec_bind_ok (EvalM.exec_modify _ _)] at hrun
    cases hrun
    obtain ⟨hlater, r', ev₁', hconv, hlater', hagree⟩ := hm _ _ hev hev' _ _ hm₁ nofun
    obtain ⟨hholds, hsources⟩ := hf _ _ _ hev hlater hm₁
    refine ⟨⟨hholds, hsources ▸ hlater.sources_le⟩, r', ev₁', hconv, hlater', ?_⟩
    rwa [hsources]

/-! ## Sound states -/

variable [BitLike β] [DecidableEq β] {s : Store} {c : Setting β} (R : Reference s c)

/-- An element of a stream stands for the elements of all similar streams, whatever streams
are added. -/
def Reference.DenotesElement (σ : Sources β) (i : StreamId) (n : Nat) (v : Value β) : Prop :=
  ∀ σ' τ j ev', σ.Le σ' → Similar s σ' τ (.stream i) (.stream j) → R.side.At τ ev' →
    ∃ w ev₁', Converges (fun k => (R.calls k).element j n) ev' (.ok w, ev₁') ∧
      R.side.Later ev' ev₁' ∧ Similar s σ' (R.side.sources ev₁') v w

variable {R}

theorem Reference.DenotesElement.mono {σ σ' : Sources β} {i : StreamId} {n : Nat} {v : Value β}
    (h : R.DenotesElement σ i n v) (hσ : σ.Le σ') : R.DenotesElement σ' i n v :=
  fun σ'' τ j ev' hσ' => h σ'' τ j ev' (hσ.trans hσ')

/-- Everything that an evaluator keeps is what the reference would compute anew, and what the
reference is given is kept.  Streams that are out of use do not matter. -/
structure Reference.Sound (R : Reference s c) (view : View) (ev : Evaluator β) : Prop where
  base : R.side.Holds ev
  start_le : view.start ≤ ev.heap.cells.size
  closed : ∀ id, ev.shared.contains id = true → s.looseVars id = []
  memo : ∀ (id : TermId) v, ev.shared.contains id = true → ev.memo[id]? = some v → ∀ env,
    Denotes s R.side (ev.heap.sources view) (fun n => (R.calls n).eval id env) v
  constants : ∀ (body : TermId) v, ev.constants[body]? = some v →
    Denotes s R.side (ev.heap.sources view) (fun n => R.given.body (R.calls n) body) v
  elements : ∀ i n v, view.keeps ∨ view.start ≤ i → ev.heap.element? i n = some v →
    R.DenotesElement (ev.heap.sources view) i n v
  givenNodes : ∀ id, R.given.nodes id ≠ none →
    ev.shared.contains id = true ∧ ev.memo[id]? ≠ none
  givenConstants : ∀ body, R.given.constants body ≠ none → ev.constants[body]? ≠ none
  givenElements : ∀ i n, R.given.elements i n ≠ none → ev.heap.element? i n ≠ none

variable {view : View} {calls : Calls β} {σ τ : Sources β}

namespace Reference.Sound

variable {ev : Evaluator β}

theorem setting_eq (h : R.Sound view ev) : ev.setting = c :=
  R.side.setting_eq h.base

/-- Sound states stay so when streams are added. -/
theorem adds {heap : Heap β} (h : R.Sound view ev) (hadds : ev.heap.Adds heap) :
    R.Sound view { ev with heap := heap } := by
  have hσ := hadds.sources_le view
  exact ⟨R.side.adds h.base hadds, h.start_le.trans hadds.size_le, h.closed,
    fun id v hid hv env => (h.memo id v hid hv env).mono hσ,
    fun body v hv => (h.constants body v hv).mono hσ,
    fun i n v hi hv => (h.elements i n v hi (hadds.element i n ▸ hv)).mono hσ,
    h.givenNodes, h.givenConstants,
    fun i n hi => (hadds.element i n).symm ▸ h.givenElements i n hi⟩

theorem insertMemo {id : TermId} {v : Value β} (h : R.Sound view ev)
    (hv : ∀ env, Denotes s R.side (ev.heap.sources view) (fun n => (R.calls n).eval id env) v) :
    R.Sound view { ev with memo := ev.memo.insert id v } where
  base := R.holds_of h.base rfl rfl fun _ => rfl
  start_le := h.start_le
  closed := h.closed
  memo id' w hid hw := by
    rw [Std.HashMap.getElem?_insert] at hw
    split at hw
    · next heq =>
        cases hw
        rw [← eq_of_beq heq]
        exact hv
    · exact h.memo id' w hid hw
  constants := h.constants
  elements := h.elements
  givenNodes id' hid := by
    obtain ⟨hshared, hmemo⟩ := h.givenNodes id' hid
    refine ⟨hshared, ?_⟩
    rw [Std.HashMap.getElem?_insert]
    split
    · nofun
    · exact hmemo
  givenConstants := h.givenConstants
  givenElements := h.givenElements

theorem insertConstant {body : TermId} {v : Value β} (h : R.Sound view ev)
    (hv : Denotes s R.side (ev.heap.sources view) (fun n => R.given.body (R.calls n) body) v) :
    R.Sound view { ev with constants := ev.constants.insert body v } where
  base := R.holds_of h.base rfl rfl fun _ => rfl
  start_le := h.start_le
  closed := h.closed
  memo := h.memo
  constants body' w hw := by
    rw [Std.HashMap.getElem?_insert] at hw
    split at hw
    · next heq =>
        cases hw
        rw [← eq_of_beq heq]
        exact hv
    · exact h.constants body' w hw
  elements := h.elements
  givenNodes := h.givenNodes
  givenConstants body' hbody := by
    rw [Std.HashMap.getElem?_insert]
    split
    · nofun
    · exact h.givenConstants body' hbody
  givenElements := h.givenElements

theorem remember {i : StreamId} {n : Nat} {v : Value β} (h : R.Sound view ev)
    (hv : R.DenotesElement (ev.heap.sources view) i n v) :
    R.Sound view { ev with heap := ev.heap.remember i n v } where
  base := R.holds_of h.base rfl (Heap.size_remember _ _ _ _) (Heap.source?_remember _ _ _ _)
  start_le := (Heap.size_remember _ _ _ _).symm ▸ h.start_le
  closed := h.closed
  memo := by
    simp only [Heap.sources_remember]
    exact h.memo
  constants := by
    simp only [Heap.sources_remember]
    exact h.constants
  elements j m w hj hw := by
    simp only [Heap.sources_remember]
    rw [Heap.element?_remember] at hw
    split at hw
    · next hsame =>
        obtain ⟨rfl, rfl, -⟩ := hsame
        cases hw
        exact hv
    · exact h.elements j m w hj hw
  givenNodes := h.givenNodes
  givenConstants := h.givenConstants
  givenElements j m hj := by
    rw [Heap.element?_remember]
    split
    · nofun
    · exact h.givenElements j m hj

/-- The reference is not given a node whose value is not kept. -/
theorem nodes_eq_none (h : R.Sound view ev) {id : TermId}
    (hid : ev.shared.contains id = true → ev.memo[id]? = none) : R.given.nodes id = none := by
  by_contra hgiven
  obtain ⟨hshared, hmemo⟩ := h.givenNodes id hgiven
  exact hmemo (hid hshared)

theorem constants_eq_none (h : R.Sound view ev) {body : TermId}
    (hbody : ev.constants[body]? = none) : R.given.constants body = none :=
  not_not.mp fun hgiven => h.givenConstants body hgiven hbody

theorem elements_eq_none (h : R.Sound view ev) {i : StreamId} {n : Nat}
    (hi : ev.heap.element? i n = none) : R.given.elements i n = none :=
  not_not.mp fun hgiven => h.givenElements i n hgiven hi

end Reference.Sound

/-- The side of an evaluator that may keep values. -/
def Reference.keeper (R : Reference s c) (view : View) : Side c where
  view := view
  Holds := R.Sound view
  setting_eq h := h.setting_eq
  start_le h := h.start_le
  adds h hadds := h.adds hadds
  counts h := ⟨R.side.counts h.base, h.start_le, h.closed, h.memo, h.constants, h.elements,
    h.givenNodes, h.givenConstants, h.givenElements⟩

/-- Nothing is given, and the streams before `start` are out of use. -/
abbrev Sound (s : Store) (c : Setting β) (start : StreamId) (ev : Evaluator β) : Prop :=
  (bareReference s c).Sound start ev

abbrev keeper (s : Store) (c : Setting β) (start : StreamId) : Side c :=
  (bareReference s c).keeper start

/-! ## Evaluation preserves soundness -/

namespace Reference

theorem body_eq_eval {body : TermId} (h : R.given.constants body = none) (calls : Calls β) :
    R.given.body calls body = calls.eval body [] := by
  rw [Given.body, h]

/-- The body of a constant, computed and kept. -/
theorem follows_keptConstant (h : CallsFollow s (R.keeper view) R.side calls R.calls)
    {body : TermId} (hgiven : R.given.constants body = none) :
    Follows (R.keeper view) R.side σ τ
      (do
        let v ← calls.eval body []
        modifyThe (Evaluator β) fun ev => { ev with constants := ev.constants.insert body v }
        return v)
      (fun n => R.given.body (R.calls n) body) (Similar s) := by
  have hnil {σ τ : Sources β} : SimilarOn s σ τ (s.looseVars body) [] [] :=
    fun _ _ => .inl ⟨rfl, rfl⟩
  have hbody {σ τ : Sources β} : Follows (R.keeper view) R.side σ τ (calls.eval body [])
      (fun n => R.given.body (R.calls n) body) (Similar s) := by
    simp only [body_eq_eval hgiven]
    exact h.eval hnil
  refine .keep hbody fun ev ev₁ v hev hlater hrun => ?_
  exact ⟨hlater.holds.insertConstant (Follows.denotes (fun τ => hbody) hev hrun), rfl⟩

/-- The body of a constant, kept or computed. -/
theorem follows_constant (h : CallsFollow s (R.keeper view) R.side calls R.calls)
    (hc : c.Alike s (R.keeper view) R.side) (ident : Ident) (body : Option TermId) :
    Follows (R.keeper view) R.side σ τ (evalConstant calls ident body)
      (fun n => R.given.constant (R.calls n) ident body) (Similar s) := by
  refine .askAt fun ev hev => .askRight fun ev' hev' => ?_
  rw [hev.overrides_eq, hev'.overrides_eq]
  cases hv : c.overrides[ident]? with
  | some v =>
      exact .pureAt fun ev ev' hev hev' => hc.overrides ident v hv ev ev' hev.holds hev'.holds
  | none =>
      cases body with
      | none => exact h.evalGlobal hc ident
      | some body =>
          dsimp only
          cases hkept : ev.constants[body]? with
          | some v => exact .recall (hev.holds.constants body v hkept)
          | none => exact follows_keptConstant h (hev.holds.constants_eq_none hkept)

/-- The value of a node that is not given, computed. -/
theorem follows_node (h : CallsFollow s (R.keeper view) R.side calls R.calls)
    (hc : c.Alike s (R.keeper view) R.side) {id : TermId} (hgiven : R.given.nodes id = none)
    {env env' : Env β} (henv : SimilarOn s σ τ (s.looseVars id) env env') :
    Follows (R.keeper view) R.side σ τ (evalNode s calls id env)
      (fun n => (R.calls n).eval id env') (Similar s) := by
  refine .of_succ ?_
  simp only [R.eval_succ, Given.step, hgiven]
  split
  · next ident ty body hnode =>
      simp only [evalNode, hnode]
      exact follows_constant h hc ident body
  · next hconst => exact h.evalNode hc hconst henv

/-- The value of a closed node, computed and kept. -/
theorem follows_keptNode (h : CallsFollow s (R.keeper view) R.side calls R.calls)
    (hc : c.Alike s (R.keeper view) R.side) {id : TermId} (hgiven : R.given.nodes id = none)
    (hclosed : s.looseVars id = []) (env env' : Env β) :
    Follows (R.keeper view) R.side σ τ
      (do
        let v ← evalNode s calls id env
        modifyThe (Evaluator β) fun ev => { ev with memo := ev.memo.insert id v }
        return v)
      (fun n => (R.calls n).eval id env') (Similar s) := by
  -- A closed node has the same value in all environments.
  have hany {σ τ : Sources β} (env' : Env β) : SimilarOn s σ τ (s.looseVars id) env env' := by
    rw [hclosed]
    exact fun i hi => absurd hi List.not_mem_nil
  refine .keep (follows_node h hc hgiven (hany env')) fun ev ev₁ v hev hlater hrun => ?_
  refine ⟨hlater.holds.insertMemo fun env'' => ?_, rfl⟩
  exact Follows.denotes (fun τ => follows_node h hc hgiven (hany env'')) hev hrun

/-- The value of a term, kept or computed. -/
theorem follows_eval (h : CallsFollow s (R.keeper view) R.side calls R.calls)
    (hc : c.Alike s (R.keeper view) R.side) {id : TermId} {env env' : Env β}
    (henv : SimilarOn s σ τ (s.looseVars id) env env') :
    Follows (R.keeper view) R.side σ τ (evalStep s calls id env)
      (fun n => (R.calls n).eval id env') (Similar s) := by
  refine .askAt fun ev hev => ?_
  replace henv := henv.mono hev.sources_le (.refl _)
  split
  · next hshared =>
      cases hkept : ev.memo[id]? with
      | some v => exact .recall (hev.holds.memo id v hshared hkept env')
      | none =>
          exact follows_keptNode h hc (hev.holds.nodes_eq_none fun _ => hkept)
            (hev.holds.closed id hshared) env env'
  · next hshared =>
      exact follows_node h hc (hev.holds.nodes_eq_none fun h => absurd h hshared) henv

/-- An element of a stream that is not kept from before comes from the source: only elements
of streams from before are given. -/
theorem follows_element_of_source {S : Side c} {m : EvalM β (Value β)} {j : StreamId} {n : Nat}
    {Q : Relation β (Value β) (Value β)}
    (hj : R.given.elements j n = none ∨ ∃ src, τ j = some src)
    (hsource : Follows S R.side σ τ m (fun k => sourceElement (R.calls k) j n) Q) :
    Follows S R.side σ τ m (fun k => (R.calls k).element j n) Q := by
  refine .of_at fun ev ev' _ hev' => .of_succ ?_
  have hgiven : R.given.elements j n = none := by
    rcases hj with hj | ⟨src, hj⟩
    · exact hj
    · by_contra hne
      exact Sources.not_kept_of_source (hev'.sources_le.source j src hj) (R.kept hev'.holds hne)
  simp only [R.element_succ, Given.element_eq_sourceElement hgiven]
  exact hsource

/-- The element of a stream that is not given, computed from its source. -/
theorem follows_sourceElement (h : CallsFollow s (R.keeper view) R.side calls R.calls)
    (hc : c.Alike s (R.keeper view) R.side) {i j : StreamId} {n : Nat}
    (hgiven : R.given.elements i n = none) (hij : Similar s σ τ (.stream i) (.stream j)) :
    Follows (R.keeper view) R.side σ τ (sourceElement calls i n)
      (fun k => (R.calls k).element j n) (Similar s) := by
  refine h.sourceElement hc n (fun j hj _ => follows_element_of_source ?_) hij
  rcases hj with rfl | hj
  · exact .inl hgiven
  · exact .inr hj

omit [BitLike β] [DecidableEq β] in
/-- A stream that is similar to another is one of those that count. -/
theorem counts_of_similar {h : Heap β} {i : StreamId} {w : Value β}
    (hi : Similar s (h.sources view) τ (.stream i) w) : view.keeps ∨ view.start ≤ i := by
  cases hi.fits with
  | atom h => cases h
  | stream hi _ | streamMux hi _ _ => exact .inr (Heap.of_sources_eq_some hi).1
  | streamKept hi => exact .inl hi.1

/-- An element that is kept need not be computed again. -/
theorem recallElement {S : Side c} {i j : StreamId} {n : Nat} {v : Value β}
    (h : R.DenotesElement σ i n v) (hij : Similar s σ τ (.stream i) (.stream j)) :
    Follows S R.side σ τ (Pure.pure v) (fun k => (R.calls k).element j n) (Similar s) := by
  intro ev ev' hev hev' r ev₁ hrun _
  cases hrun
  obtain ⟨w, ev₁', hconv, hlater, hvw⟩ :=
    h _ τ j ev' hev.sources_le (hij.mono hev.sources_le (.refl _)) hev'
  exact ⟨.refl hev.holds, _, ev₁', hconv, hlater, .ok hvw⟩

/-- The element of a stream, computed and kept. -/
theorem follows_keptElement (h : CallsFollow s (R.keeper view) R.side calls R.calls)
    (hc : c.Alike s (R.keeper view) R.side) {i j : StreamId} {n : Nat}
    (hgiven : R.given.elements i n = none) (hij : Similar s σ τ (.stream i) (.stream j)) :
    Follows (R.keeper view) R.side σ τ
      (do
        let v ← sourceElement calls i n
        modifyThe (Evaluator β) fun ev => { ev with heap := ev.heap.remember i n v }
        return v)
      (fun k => (R.calls k).element j n) (Similar s) := by
  refine .keep (follows_sourceElement h hc hgiven hij) fun ev ev₁ v hev hlater hrun => ?_
  refine ⟨hlater.holds.remember ?_, Heap.sources_remember _ _ _ _ _⟩
  intro σ' τ' j' ev' hσ' hij' hev'
  -- The stream was there before its element was computed.
  have hij₀ := hij'.restrict ((hev.sources_le.trans hlater.sources_le).trans hσ') hij.fits
  obtain ⟨-, r', ev₁', hconv, hlater', hagree⟩ :=
    follows_sourceElement h hc hgiven hij₀ _ _ hev hev' _ _ hrun nofun
  cases hagree with
  | ok hvw => exact ⟨_, ev₁', hconv, hlater', hvw.mono hσ' (.refl _)⟩

/-- The element of a stream, kept or computed. -/
theorem follows_element (h : CallsFollow s (R.keeper view) R.side calls R.calls)
    (hc : c.Alike s (R.keeper view) R.side) {i j : StreamId} (n : Nat)
    (hij : Similar s σ τ (.stream i) (.stream j)) :
    Follows (R.keeper view) R.side σ τ (elementStep calls i n)
      (fun k => (R.calls k).element j n) (Similar s) := by
  rw [elementStep_eq]
  refine .askAt fun ev hev => ?_
  replace hij := hij.mono hev.sources_le (.refl _)
  cases hkept : ev.heap.element? i n with
  | some v => exact recallElement (hev.holds.elements i n v (counts_of_similar hij) hkept) hij
  | none => exact follows_keptElement h hc (hev.holds.elements_eq_none hkept) hij

/-- An evaluation that keeps values is followed by one of the reference. -/
theorem callsBy_follows {p : Keeps} (hp : p.Covers R.given)
    (hc : c.Alike s (R.keeper view) R.side) (fuel : Nat) :
    CallsFollow s (R.keeper view) R.side (Evaluator.callsBy p s fuel) R.calls := by
  induction fuel with
  | zero => exact ⟨fun _ => .outOfFuel, fun _ _ => .outOfFuel, fun _ _ => .outOfFuel⟩
  | succ fuel ih =>
      refine ⟨fun henv => ?_, fun hfn harg => ?_, fun n hij => ?_⟩
      · cases hnodes : p.nodes with
        | true =>
            simp only [Evaluator.callsBy, hnodes, if_true]
            exact follows_eval ih hc henv
        | false =>
            obtain ⟨hnone, hconstants⟩ := hp.nodes.resolve_left (by simp [hnodes])
            simp only [Evaluator.callsBy, hnodes, Bool.false_eq_true, if_false]
            refine .of_succ ?_
            simp only [R.eval_succ, Given.step_eq_plainStep (hnone _) hconstants]
            exact ih.plainStep hc henv
      · exact ih.applyStep hc R.apply_succ hfn harg
      · cases helements : p.elements with
        | true =>
            simp only [Evaluator.callsBy, helements, if_true]
            exact follows_element ih hc n hij
        | false =>
            have hnone := hp.elements.resolve_left (by simp [helements])
            simp only [Evaluator.callsBy, helements, Bool.false_eq_true, if_false]
            exact follows_sourceElement ih hc (hnone _ _) hij

end Reference

/-- An evaluation that keeps values is followed by one that keeps nothing. -/
theorem callsBy_follows (p : Keeps) (s : Store) {c : Setting β} (hc : c.Plain)
    (start : StreamId) (fuel : Nat) :
    CallsFollow s (keeper s c start) (bareSide c) (Evaluator.callsBy p s fuel) (bareCalls s) :=
  Reference.callsBy_follows (R := bareReference s c) p.covers_none (hc.alike s _ id) fuel

end TermGraph
