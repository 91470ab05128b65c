import Mathlib
import TermGraph.Proofs.Eval.InForce

/-!
# Calls while nothing is put in force

From some state on an evaluator answers calls, and nothing that it reads is changed in
between.  What it has kept before is taken as it is, whatever it comes from: the reference for
such a stretch of calls is given these values and elements, and keeps nothing itself.  All
that is kept during the stretch is what that reference would compute anew.
-/

namespace TermGraph

open EvalM (Converges)
open Value (Similar SimilarOn Fits)

variable {β : Type}

/-! ## The state that a stretch begins with -/

/-- A source that refers to streams of `σ` only. -/
inductive StreamSource.Fits (s : Store) (σ : Sources β) : StreamSource β → Prop where
  | generator {fn : Value β} (h : Value.Fits s σ fn) : Fits s σ (.generator fn)
  | mux {c : β} {a b : StreamId} (left : Value.Fits s σ (.stream a))
      (right : Value.Fits s σ (.stream b)) : Fits s σ (.mux c a b)

namespace Evaluator

/-- The streams of a state, kept as they are, and all that are added. -/
def view (ev : Evaluator β) : View :=
  ⟨ev.heap.cells.size, True⟩

/-- What a state has kept.  Values of nodes count while the nodes are shared. -/
def given (ev : Evaluator β) : Given β where
  nodes id := if ev.shared.contains id then ev.memo[id]? else none
  constants body := ev.constants[body]?
  elements i n := ev.heap.element? i n

/-- A state that reads the same as an earlier one and still has its streams. -/
structure Continues (ev₀ ev : Evaluator β) : Prop where
  setting_eq : ev.setting = ev₀.setting
  size_le : ev₀.heap.cells.size ≤ ev.heap.cells.size
  source : ∀ id src, ev₀.heap.source? id = some src → ev.heap.source? id = some src

theorem Continues.refl (ev : Evaluator β) : ev.Continues ev :=
  ⟨rfl, le_rfl, fun _ _ h => h⟩

/-- What a state sees of its own streams it sees in every later state. -/
theorem sources_view_le (ev₀ : Evaluator β) (h : Heap β) :
    (ev₀.heap.sources ev₀.view).Le (h.sources ev₀.view) where
  source id src hs := by
    obtain ⟨hid, hsrc⟩ := Heap.of_sources_eq_some hs
    have hnone : ev₀.heap.cells[id]? = none := Array.getElem?_eq_none hid
    simp [Heap.source?, hnone] at hsrc
  kept _ hid := hid

/-- The side of a stretch of calls that begins with a state. -/
def side (ev₀ : Evaluator β) : Side ev₀.setting where
  view := ev₀.view
  Holds := ev₀.Continues
  setting_eq h := h.setting_eq
  start_le h := h.size_le
  adds h hadds := ⟨h.setting_eq, h.size_le.trans hadds.size_le,
    fun id src hs => hadds.source id src (h.source id src hs)⟩
  counts h := ⟨h.setting_eq, h.size_le, h.source⟩

variable [BitLike β] [DecidableEq β]

/-- The reference for a stretch of calls: it is given what has been kept before. -/
def reference (s : Store) (ev₀ : Evaluator β) : Reference s ev₀.setting where
  given := ev₀.given
  side := ev₀.side
  calls := ev₀.given.calls s
  zero := rfl
  eval_succ _ _ _ := rfl
  apply_succ _ _ _ := rfl
  element_succ _ _ _ := rfl
  holds_of h hsetting hsize hsource :=
    ⟨hsetting.trans h.setting_eq, hsize ▸ h.size_le,
      fun id src hs => (hsource id).trans (h.source id src hs)⟩
  kept _ hi := ⟨trivial, Heap.lt_of_element? hi⟩

end Evaluator

/-- A state whose values refer to streams that are there, and whose functions from outside do
not tell similar values apart. -/
structure Coherent (s : Store) (ev : Evaluator β) : Prop where
  host : ∀ (i : Ident) p fn, ev.primitives[i]? = some p → p.implementation = .host fn →
    RespectsSimilar s fn
  closed : ∀ id, ev.shared.contains id = true → s.looseVars id = []
  overrides : ∀ (i : Ident) v, ev.overrides[i]? = some v → Fits s (ev.heap.sources ev.view) v
  freeValues : ∀ (id : TermId) v, ev.freeValues[id]? = some v →
    Fits s (ev.heap.sources ev.view) v
  memo : ∀ (id : TermId) v, ev.memo[id]? = some v → Fits s (ev.heap.sources ev.view) v
  constants : ∀ (body : TermId) v, ev.constants[body]? = some v →
    Fits s (ev.heap.sources ev.view) v
  elements : ∀ i n v, ev.heap.element? i n = some v → Fits s (ev.heap.sources ev.view) v
  sources : ∀ i src, ev.heap.source? i = some src → src.Fits s (ev.heap.sources ev.view)

/-- A new evaluator is coherent when it reads data and functions that do not tell similar values
apart. -/
theorem coherent_configured (s : Store) {c : Setting β}
    (hhost : ∀ (i : Ident) p fn, c.primitives[i]? = some p → p.implementation = .host fn →
      RespectsSimilar s fn)
    (hoverrides : ∀ (i : Ident) v, c.overrides[i]? = some v → v.isData = true)
    (hfreeValues : ∀ (id : TermId) v, c.freeValues[id]? = some v → v.isData = true) :
    Coherent s (Evaluator.configured c) where
  host := hhost
  closed id hid := by simp [Evaluator.configured, Evaluator.new] at hid
  overrides i v hv := (Value.similar_self_of_isData (τ := .none) v (hoverrides i v hv)).fits
  freeValues id v hv := (Value.similar_self_of_isData (τ := .none) v (hfreeValues id v hv)).fits
  memo id v hv := by simp [Evaluator.configured, Evaluator.new] at hv
  constants body v hv := by simp [Evaluator.configured, Evaluator.new] at hv
  elements i n v hv := by cases hv
  sources i src hv := by cases hv

namespace Coherent

variable {s : Store} {ev₀ ev : Evaluator β}

/-- What refers to streams that are there at first stands for itself later on. -/
theorem similar_self {v : Value β} (h : Fits s (ev₀.heap.sources ev₀.view) v)
    {S T : Side ev₀.setting} (hS : S.view = ev₀.view) (hT : T.view = ev₀.view)
    (ev ev' : Evaluator β) : Similar s (S.sources ev) (T.sources ev') v v := by
  unfold Side.sources
  rw [hS, hT]
  exact similar_of_fits_both h (ev₀.sources_view_le _) (ev₀.sources_view_le _)

/-- Nothing that is read in a stretch of calls tells its sides apart. -/
theorem alike (h : Coherent s ev₀) {S T : Side ev₀.setting} (hS : S.view = ev₀.view)
    (hT : T.view = ev₀.view) (hSc : ∀ {ev}, S.Holds ev → ev₀.Continues ev)
    (hTc : ∀ {ev}, T.Holds ev → ev₀.Continues ev) : ev₀.setting.Alike s S T where
  host := h.host
  overrides i v hv ev ev' _ _ := similar_self (h.overrides i v hv) hS hT ev ev'
  freeValues id v hv ev ev' _ _ := similar_self (h.freeValues id v hv) hS hT ev ev'
  kept i ev ev' hev hev' hi _ := by
    -- A stream that is looked into as it is was there at first, and its source has not changed.
    have hlt : i < ev₀.heap.cells.size := by
      rw [Side.sources, hS] at hi
      exact hi.2
    obtain ⟨src, hsource⟩ : ∃ src, ev₀.heap.source? i = some src :=
      ⟨ev₀.heap.cells[i].source, by simp [Heap.source?, hlt]⟩
    rw [(hSc hev).source i _ hsource, (hTc hev').source i _ hsource]
    cases h.sources i _ hsource with
    | generator hfn => exact .generator (similar_self hfn hS hT ev ev')
    | mux left right =>
        exact .mux (similar_self left hS hT ev ev') (similar_self right hS hT ev ev')

variable [BitLike β] [DecidableEq β]

/-- The two sides of a stretch of calls. -/
theorem alike_keeper (h : Coherent s ev₀) :
    ev₀.setting.Alike s ((ev₀.reference s).keeper ev₀.view) ev₀.side :=
  h.alike rfl rfl (fun hev => hev.base) id

omit [BitLike β] [DecidableEq β] in
/-- What is given as it is stands for what the reference computes. -/
theorem denotes_given (s : Store) {m : Nat → EvalM β (Value β)} {v : Value β}
    (hv : Fits s (ev₀.heap.sources ev₀.view) v) (hm : ∀ n, m (n + 1) = pure v) :
    Denotes s ev₀.side (ev₀.heap.sources ev₀.view) m v := by
  intro ev' hev'
  refine ⟨v, ev', .of_succ (.of_forall fun n => ?_), .refl hev', ?_⟩
  · rw [hm]
    rfl
  · exact similar_of_fits_both hv (.refl _) (ev₀.sources_view_le _)

/-- An element that is given stands for the elements of all similar streams. -/
theorem denotesElement_given (h : Coherent s ev₀) {i : StreamId} {n : Nat} {v : Value β}
    (hv : ev₀.heap.element? i n = some v) :
    (ev₀.reference s).DenotesElement (ev₀.heap.sources ev₀.view) i n v := by
  intro σ' τ j ev' hσ' hij hev'
  -- A stream with an element was there at first, so similar streams have similar sources.
  have hne : ev₀.heap.element? i n ≠ none := by simp [hv]
  have hkept : (ev₀.heap.sources ev₀.view).kept i := ⟨trivial, Heap.lt_of_element? hne⟩
  have hfollows : Follows ev₀.side ev₀.side (ev₀.heap.sources ev₀.view) τ (pure v)
      (fun k => ((ev₀.reference s).calls k).element j n) (Similar s) := by
    refine CallsFollow.element_of_kept n (fun _ => .of_succ ?_)
      (fun j src hj _ =>
        Reference.follows_element_of_source (R := ev₀.reference s) (.inr ⟨src, hj⟩)) hkept
      (hij.restrict hσ' (.streamKept hkept))
    have hgiven (k : Nat) : ((ev₀.reference s).calls (k + 1)).element i n = pure v := by
      rw [Reference.element_succ, Given.element]
      simp only [Evaluator.reference, Evaluator.given, hv]
    simp only [hgiven]
    exact .pureAt fun ev ev' _ _ => similar_self (h.elements i n v hv) rfl rfl ev ev'
  obtain ⟨-, r', ev₁', hconv, hlater, hagree⟩ :=
    hfollows ev₀ ev' ⟨.refl _, .refl _⟩ hev' _ _ (EvalM.exec_pure _ _) (by simp)
  cases hagree with
  | ok hvw => exact ⟨_, ev₁', hconv, hlater, hvw.mono hσ' (.refl _)⟩

/-- At first all that is kept is given. -/
theorem sound (h : Coherent s ev₀) : (ev₀.reference s).Sound ev₀.view ev₀ where
  base := .refl ev₀
  start_le := le_rfl
  closed := h.closed
  memo id v hid hv env := by
    refine denotes_given s (h.memo id v hv) fun n => ?_
    rw [Reference.eval_succ, Given.step]
    simp only [Evaluator.reference, Evaluator.given, hid, hv, if_true]
  constants body v hv := by
    refine denotes_given s (h.constants body v hv) fun n => ?_
    rw [Given.body]
    simp only [Evaluator.reference, Evaluator.given, hv]
  elements i n v _ hv := h.denotesElement_given hv
  givenNodes id hid := by
    change (if ev₀.shared.contains id then ev₀.memo[id]? else none) ≠ none at hid
    split at hid
    · next hshared => exact ⟨hshared, hid⟩
    · exact absurd rfl hid
  givenConstants _ hbody := hbody
  givenElements _ _ hi := hi

end Coherent

/-! ## Calls -/

variable [BitLike β] [DecidableEq β]

/-- An environment refers to streams of `σ` only, as far as a term looks into it. -/
def Env.Fits (s : Store) (σ : Sources β) (id : TermId) (env : Env β) : Prop :=
  ∀ i ∈ s.looseVars id, ∀ v, env[i]? = some v → Value.Fits s σ v

/-- A call in a stretch that begins with `ev₀`.  It comes to an end, and what it is called on
refers to streams that are there.  An evaluation forgets the values of nodes, so it may only
start where none of them is given. -/
inductive Call (s : Store) (ev₀ : Evaluator β) : Evaluator β → Evaluator β → Prop where
  | evaluate {ev ev' : Evaluator β} {fuel : Nat} {root : TermId} {r : Except Stop (Value β)}
      (hnodes : ∀ id, ev₀.given.nodes id = none)
      (hrun : (Evaluator.evaluate s fuel root).exec ev = (r, ev'))
      (hends : r ≠ .error .outOfFuel) : Call s ev₀ ev ev'
  | eval {ev ev' : Evaluator β} {fuel : Nat} {id : TermId} {env : Env β}
      {r : Except Stop (Value β)} (henv : env.Fits s (ev.heap.sources ev₀.view) id)
      (hrun : (Evaluator.eval s fuel id env).exec ev = (r, ev'))
      (hends : r ≠ .error .outOfFuel) : Call s ev₀ ev ev'
  | apply {ev ev' : Evaluator β} {fuel : Nat} {fn arg : Value β} {r : Except Stop (Value β)}
      (hfn : Fits s (ev.heap.sources ev₀.view) fn) (harg : Fits s (ev.heap.sources ev₀.view) arg)
      (hrun : (Evaluator.apply s fuel fn arg).exec ev = (r, ev'))
      (hends : r ≠ .error .outOfFuel) : Call s ev₀ ev ev'
  | get {ev ev' : Evaluator β} {fuel : Nat} {id : StreamId} {n : Nat} {r : Except Stop (Value β)}
      (hid : Fits s (ev.heap.sources ev₀.view) (.stream id))
      (hrun : (Evaluator.element s fuel id n).exec ev = (r, ev'))
      (hends : r ≠ .error .outOfFuel) : Call s ev₀ ev ev'
  /-- A stream is built. -/
  | build {ev : Evaluator β} {src : StreamSource β}
      (hsrc : src.Fits s (ev.heap.sources ev₀.view)) :
      Call s ev₀ ev { ev with heap := (ev.heap.alloc src).2 }

/-- Any number of calls in a stretch that begins with `ev₀`. -/
def Stretch (s : Store) (ev₀ : Evaluator β) : Evaluator β → Evaluator β → Prop :=
  Relation.ReflTransGen (Call s ev₀)

section Calls

variable {s : Store} {ev₀ ev ev' : Evaluator β}

omit [BitLike β] [DecidableEq β] in
/-- An environment whose streams are there stands for itself. -/
theorem Env.Fits.similarOn {σ τ υ : Sources β} {id : TermId} {env : Env β}
    (h : env.Fits s υ id) (hσ : υ.Le σ) (hτ : υ.Le τ) :
    SimilarOn s σ τ (s.looseVars id) env env := by
  intro i hi
  cases hv : env[i]? with
  | none => exact .inl ⟨rfl, rfl⟩
  | some v => exact .inr ⟨v, v, rfl, rfl, similar_of_fits_both (h i hi v hv) hσ hτ⟩

/-- The calls of an evaluator are followed by those of the reference for a stretch. -/
theorem Coherent.follows (h : Coherent s ev₀) (fuel : Nat) :
    CallsFollow s ((ev₀.reference s).keeper ev₀.view) ev₀.side (Evaluator.calls s fuel)
      (ev₀.reference s).calls := by
  rw [← Evaluator.callsBy_everything]
  exact Reference.callsBy_follows (R := ev₀.reference s) ⟨.inl rfl, .inl rfl⟩ h.alike_keeper fuel

/-- And those of the reference by those of the evaluator. -/
theorem Coherent.followed (h : Coherent s ev₀) (fuel : Nat) :
    CallsFollow s ev₀.side ((ev₀.reference s).keeper ev₀.view) ((ev₀.reference s).calls fuel)
      (Evaluator.calls s) := by
  rw [show Evaluator.calls (β := β) s = Evaluator.callsBy ⟨true, true⟩ s from
    funext fun k => (Evaluator.callsBy_everything s k).symm]
  exact Reference.calls_followed (R := ev₀.reference s) ⟨.inl rfl, .inl rfl⟩ h.alike_keeper.symm
    fuel

/-- What is followed by a reference leaves a sound state. -/
theorem Reference.Sound.later {c : Setting β} {R : Reference s c} {view : View}
    (h : R.Sound view ev) {m : EvalM β (Value β)} {m' : Nat → EvalM β (Value β)}
    (hfollows : Follows (R.keeper view) R.side ((R.keeper view).sources ev) (R.side.sources ev)
      m m' (Similar s))
    {r : Except Stop (Value β)} (hrun : m.exec ev = (r, ev')) (hends : r ≠ .error .outOfFuel) :
    (R.keeper view).Later ev ev' :=
  (hfollows ev ev ⟨h, .refl _⟩ ⟨h.base, .refl _⟩ r ev' hrun hends).1

/-- A call leaves what is kept sound, and no stream is lost. -/
theorem Call.later (h : Coherent s ev₀) (hcall : Call s ev₀ ev ev')
    (hev : (ev₀.reference s).Sound ev₀.view ev) :
    ((ev₀.reference s).keeper ev₀.view).Later ev ev' := by
  cases hcall with
  | @evaluate _ fuel root r hnodes hrun hends =>
      have hnil {σ τ : Sources β} : SimilarOn s σ τ (s.looseVars root) [] [] :=
        fun _ _ => .inl ⟨rfl, rfl⟩
      have hlater := (hev.startPass hnodes root).later ((h.follows fuel).eval hnil)
        ((EvalM.exec_bind_ok (EvalM.exec_modify _ _) _).symm.trans hrun) hends
      exact ⟨hlater.holds, hlater.sources_le⟩
  | eval henv hrun hends =>
      exact hev.later ((h.follows _).eval (henv.similarOn (.refl _) (.refl _))) hrun hends
  | apply hfn harg hrun hends =>
      exact hev.later ((h.follows _).apply (similar_of_fits hfn (.refl _))
        (similar_of_fits harg (.refl _))) hrun hends
  | get hid hrun hends =>
      exact hev.later ((h.follows _).element _ (similar_of_fits hid (.refl _))) hrun hends
  | @build src hsrc =>
      have hadds := ev.heap.adds_alloc src
      exact ⟨hev.adds hadds, hadds.sources_le _⟩

/-- What is kept stays sound. -/
theorem Stretch.later (h : Coherent s ev₀) (hstretch : Stretch s ev₀ ev ev')
    (hev : (ev₀.reference s).Sound ev₀.view ev) :
    ((ev₀.reference s).keeper ev₀.view).Later ev ev' := by
  induction hstretch with
  | refl => exact .refl hev
  | tail _ hcall ih => exact ih.trans (hcall.later h ih.holds)

end Calls

end TermGraph
