import Mathlib
import TermGraph.Eval.Evaluate
import TermGraph.Proofs.Value.Merge

/-!
# One evaluation follows another

Two evaluators that keep different things take different steps to the same end, with
different fuel.  `Follows S T σ τ m m' R` says: whenever `m` comes to an end on the side
`S`, then `m'` does on the side `T` with all large enough fuel, and either both fail with
one error, or both give results related by `R`.  A side says what its states satisfy and
which of their streams count.

The rules below follow the shape of programs.  Two rules are for steps that only one side
takes: a value that one side computes as the merge of two may be one value on the other.
-/

namespace TermGraph

variable {β : Type}

/-! ## Running a computation -/

namespace EvalM

variable {α γ : Type}

/-- The outcome of a computation and the state that it leaves. -/
def exec (m : EvalM β α) (ev : Evaluator β) : Except Stop α × Evaluator β :=
  m.run.run ev

theorem ext {m m' : EvalM β α} (h : ∀ ev, m.exec ev = m'.exec ev) : m = m' :=
  funext h

@[simp] theorem exec_pure (a : α) (ev : Evaluator β) : (pure a : EvalM β α).exec ev = (.ok a, ev) :=
  rfl

@[simp] theorem exec_throw (e : Stop) (ev : Evaluator β) :
    (throw e : EvalM β α).exec ev = (.error e, ev) :=
  rfl

@[simp] theorem exec_fail (e : EvalError) (ev : Evaluator β) :
    (fail e : EvalM β α).exec ev = (.error (.fault e), ev) :=
  rfl

@[simp] theorem exec_get (ev : Evaluator β) :
    (getThe (Evaluator β) : EvalM β _).exec ev = (.ok ev, ev) :=
  rfl

@[simp] theorem exec_modify (f : Evaluator β → Evaluator β) (ev : Evaluator β) :
    (modifyThe (Evaluator β) f : EvalM β _).exec ev = (.ok ⟨⟩, f ev) :=
  rfl

theorem exec_bind (m : EvalM β α) (f : α → EvalM β γ) (ev : Evaluator β) :
    (m >>= f).exec ev =
      match m.exec ev with
      | (.ok a, ev₁) => (f a).exec ev₁
      | (.error e, ev₁) => (.error e, ev₁) := by
  rw [exec, ExceptT.run_bind, StateT.run_bind]
  rcases h : m.run.run ev with ⟨e | a, ev₁⟩
  all_goals rw [exec, h]; rfl

theorem exec_bind_ok {m : EvalM β α} {a : α} {ev ev₁ : Evaluator β}
    (h : m.exec ev = (.ok a, ev₁)) (f : α → EvalM β γ) : (m >>= f).exec ev = (f a).exec ev₁ := by
  rw [exec_bind, h]

theorem exec_bind_error {m : EvalM β α} {e : Stop} {ev ev₁ : Evaluator β}
    (h : m.exec ev = (.error e, ev₁)) (f : α → EvalM β γ) :
    (m >>= f).exec ev = (.error e, ev₁) := by
  rw [exec_bind, h]

/-- A computation that has succeeded was one after another. -/
theorem exec_bind_eq_ok {m : EvalM β α} {k : α → EvalM β γ} {ev ev₂ : Evaluator β} {b : γ}
    (hrun : (m >>= k).exec ev = (.ok b, ev₂)) :
    ∃ a ev₁, m.exec ev = (.ok a, ev₁) ∧ (k a).exec ev₁ = (.ok b, ev₂) := by
  rcases hm : m.exec ev with ⟨e | a, ev₁⟩
  · rw [exec_bind_error hm] at hrun
    cases hrun
  · rw [exec_bind_ok hm] at hrun
    exact ⟨a, ev₁, rfl, hrun⟩

theorem exec_ofMerge (m : Merge β α) (ev : Evaluator β) :
    (ofMerge m).exec ev =
      match m.run ev.heap with
      | .ok (a, heap) => (.ok a, { ev with heap := heap })
      | .error e => (.error (.fault e), ev) := by
  rw [ofMerge, exec_bind_ok (exec_get ev)]
  rcases m.run ev.heap with e | ⟨a, heap⟩ <;> rfl

/-- With all large enough fuel a computation has this outcome and leaves this state. -/
def Converges (m : Nat → EvalM β α) (ev : Evaluator β) (r : Except Stop α × Evaluator β) : Prop :=
  ∃ k, ∀ n, k ≤ n → (m n).exec ev = r

namespace Converges

variable {m : Nat → EvalM β α} {f : Nat → α → EvalM β γ} {ev ev₁ : Evaluator β}
  {r r' : Except Stop α × Evaluator β}

theorem of_forall (h : ∀ n, (m n).exec ev = r) : Converges m ev r :=
  ⟨0, fun n _ => h n⟩

theorem unique (h : Converges m ev r) (h' : Converges m ev r') : r = r' := by
  obtain ⟨k, hk⟩ := h
  obtain ⟨k', hk'⟩ := h'
  rw [← hk (max k k') (by omega), hk' (max k k') (by omega)]

/-- The first unit of fuel may be set apart. -/
theorem of_succ (h : Converges (fun n => m (n + 1)) ev r) : Converges m ev r := by
  obtain ⟨k, hk⟩ := h
  refine ⟨k + 1, fun n hn => ?_⟩
  obtain ⟨n, rfl⟩ := Nat.exists_eq_add_of_le' (show 1 ≤ n by omega)
  exact hk n (by omega)

theorem bind {a : α} {q : Except Stop γ × Evaluator β} (hm : Converges m ev (.ok a, ev₁))
    (hf : Converges (fun n => f n a) ev₁ q) : Converges (fun n => m n >>= f n) ev q := by
  obtain ⟨k, hk⟩ := hm
  obtain ⟨k', hk'⟩ := hf
  refine ⟨max k k', fun n hn => ?_⟩
  rw [exec_bind_ok (hk n (by omega))]
  exact hk' n (by omega)

theorem bind_error {e : Stop} (hm : Converges m ev (.error e, ev₁)) :
    Converges (fun n => m n >>= f n) ev (.error e, ev₁) := by
  obtain ⟨k, hk⟩ := hm
  exact ⟨k, fun n hn => exec_bind_error (hk n hn) _⟩

end Converges

end EvalM

open EvalM (Converges)

/-! ## Sides -/

/-- What evaluation reads and never changes. -/
structure Setting (β : Type) where
  primitives : Std.HashMap Ident (Primitive β)
  overrides : Std.HashMap Ident (Value β)
  freeValues : Std.HashMap TermId (Value β)

/-- What an evaluator was set up with. -/
def Evaluator.setting (ev : Evaluator β) : Setting β :=
  ⟨ev.primitives, ev.overrides, ev.freeValues⟩

/-- One of two evaluators: the streams that are looked into, and what holds of its states,
whatever streams are added and however often primitives from outside are called. -/
structure Side (c : Setting β) where
  view : View
  Holds : Evaluator β → Prop
  setting_eq : ∀ {ev}, Holds ev → ev.setting = c
  start_le : ∀ {ev}, Holds ev → view.start ≤ ev.heap.cells.size
  adds : ∀ {ev heap}, Holds ev → ev.heap.Adds heap → Holds { ev with heap := heap }
  counts : ∀ {ev n}, Holds ev → Holds { ev with hostCalls := n }

namespace Side

variable {c : Setting β} {S : Side c} {σ σ₁ : Sources β} {ev ev₁ ev₂ : Evaluator β}

/-- The streams of a state that are looked into. -/
def sources (S : Side c) (ev : Evaluator β) : Sources β :=
  ev.heap.sources S.view

/-- A state of a side with all streams of `σ`. -/
structure At (S : Side c) (σ : Sources β) (ev : Evaluator β) : Prop where
  holds : S.Holds ev
  sources_le : σ.Le (S.sources ev)

/-- A later state of a side: no stream has been lost. -/
structure Later (S : Side c) (ev ev₁ : Evaluator β) : Prop where
  holds : S.Holds ev₁
  sources_le : (S.sources ev).Le (S.sources ev₁)

/-- What a state of a side reads is what is in force. -/
theorem At.primitives_eq (h : S.At σ ev) : ev.primitives = c.primitives :=
  congrArg Setting.primitives (S.setting_eq h.holds)

theorem At.overrides_eq (h : S.At σ ev) : ev.overrides = c.overrides :=
  congrArg Setting.overrides (S.setting_eq h.holds)

theorem At.freeValues_eq (h : S.At σ ev) : ev.freeValues = c.freeValues :=
  congrArg Setting.freeValues (S.setting_eq h.holds)

theorem At.self (h : S.At σ ev) : S.At (S.sources ev) ev :=
  ⟨h.holds, .refl _⟩

/-- A stream of `σ` has its source in the heap. -/
theorem At.source? {id : StreamId} {src : StreamSource β} (h : S.At σ ev)
    (hid : σ id = some src) : ev.heap.source? id = some src :=
  (Heap.of_sources_eq_some (h.sources_le.source id src hid)).2

theorem At.covers (h : S.At σ ev) : ev.heap.Covers S.view σ :=
  ⟨S.start_le h.holds, h.sources_le⟩

theorem At.of_le (h : S.At σ₁ ev) (hσ : σ.Le σ₁) : S.At σ ev :=
  ⟨h.holds, hσ.trans h.sources_le⟩

theorem Later.refl (h : S.Holds ev) : S.Later ev ev :=
  ⟨h, .refl _⟩

theorem Later.trans (h : S.Later ev ev₁) (h' : S.Later ev₁ ev₂) : S.Later ev ev₂ :=
  ⟨h'.holds, h.sources_le.trans h'.sources_le⟩

theorem Later.at (h : S.Later ev ev₁) (hev : S.At σ ev) : S.At σ ev₁ :=
  ⟨h.holds, hev.sources_le.trans h.sources_le⟩

theorem Later.self (h : S.Later ev ev₁) : S.At (S.sources ev₁) ev₁ :=
  ⟨h.holds, .refl _⟩

end Side

/-! ## Following -/

/-- Two outcomes that agree: one error, or related results.  Running out of fuel agrees
with nothing. -/
inductive Agree {α α' : Type} (R : α → α' → Prop) : Except Stop α → Except Stop α' → Prop where
  | ok {a : α} {a' : α'} (h : R a a') : Agree R (.ok a) (.ok a')
  | fault (e : EvalError) : Agree R (.error (.fault e)) (.error (.fault e))

/-- Whenever `m` comes to an end on one side, `m'` does on the other, with an outcome that
agrees. -/
def Follows {c : Setting β} {α α' : Type} (S T : Side c) (σ τ : Sources β) (m : EvalM β α)
    (m' : Nat → EvalM β α') (R : Relation β α α') : Prop :=
  ∀ ev ev', S.At σ ev → T.At τ ev' → ∀ r ev₁, m.exec ev = (r, ev₁) → r ≠ .error .outOfFuel →
    S.Later ev ev₁ ∧ ∃ r' ev₁', Converges m' ev' (r', ev₁') ∧ T.Later ev' ev₁' ∧
      Agree (R (S.sources ev₁) (T.sources ev₁')) r r'

namespace Follows

variable {c : Setting β} {S T : Side c} {σ τ : Sources β} {α α' γ γ' : Type} {m : EvalM β α}
  {m' : Nat → EvalM β α'} {R : Relation β α α'} {Q : Relation β γ γ'}

/-- New streams keep computations in step. -/
theorem later {σ₁ τ₁ : Sources β} (h : Follows S T σ τ m m' R) (hσ : σ.Le σ₁) (hτ : τ.Le τ₁) :
    Follows S T σ₁ τ₁ m m' R :=
  fun ev ev' hev hev' => h ev ev' (hev.of_le hσ) (hev'.of_le hτ)

/-- Only states that there are need to be looked at. -/
theorem of_at (h : ∀ ev ev', S.At σ ev → T.At τ ev' → Follows S T σ τ m m' R) :
    Follows S T σ τ m m' R :=
  fun ev ev' hev hev' => h ev ev' hev hev' ev ev' hev hev'

theorem of_succ (h : Follows S T σ τ m (fun n => m' (n + 1)) R) : Follows S T σ τ m m' R := by
  intro ev ev' hev hev' r ev₁ hrun hr
  obtain ⟨hlater, r', ev₁', hconv, hrest⟩ := h _ _ hev hev' _ _ hrun hr
  exact ⟨hlater, r', ev₁', hconv.of_succ, hrest⟩

theorem outOfFuel : Follows S T σ τ (throw .outOfFuel) m' R := by
  intro ev ev' _ _ r ev₁ hrun hr
  cases hrun
  exact absurd rfl hr

theorem pure {a : α} {a' : α'} (h : ∀ σ₁ τ₁, σ.Le σ₁ → τ.Le τ₁ → R σ₁ τ₁ a a') :
    Follows S T σ τ (Pure.pure a) (fun _ => Pure.pure a') R := by
  intro ev ev' hev hev' r ev₁ hrun _
  cases hrun
  exact ⟨.refl hev.holds, .ok a', ev', .of_forall fun _ => rfl, .refl hev'.holds,
    .ok (h _ _ hev.sources_le hev'.sources_le)⟩

/-- The results need to be related only for the states that the sides are in. -/
theorem pureAt {a : α} {a' : α'}
    (h : ∀ ev ev', S.At σ ev → T.At τ ev' → R (S.sources ev) (T.sources ev') a a') :
    Follows S T σ τ (Pure.pure a) (fun _ => Pure.pure a') R := by
  intro ev ev' hev hev' r ev₁ hrun _
  cases hrun
  exact ⟨.refl hev.holds, .ok a', ev', .of_forall fun _ => rfl, .refl hev'.holds,
    .ok (h ev ev' hev hev')⟩

theorem fail (e : EvalError) : Follows S T σ τ (EvalM.fail e) (fun _ => EvalM.fail e) R := by
  intro ev ev' hev hev' r ev₁ hrun _
  cases hrun
  exact ⟨.refl hev.holds, _, ev', .of_forall fun _ => rfl, .refl hev'.holds, .fault e⟩

theorem bind {f : α → EvalM β γ} {f' : Nat → α' → EvalM β γ'} (hm : Follows S T σ τ m m' R)
    (hf : ∀ σ₁ τ₁ a a', σ.Le σ₁ → τ.Le τ₁ → R σ₁ τ₁ a a' →
      Follows S T σ₁ τ₁ (f a) (fun n => f' n a') Q) :
    Follows S T σ τ (m >>= f) (fun n => m' n >>= f' n) Q := by
  intro ev ev' hev hev' r ev₂ hrun hr
  rcases hm₁ : m.exec ev with ⟨e | a, ev₁⟩
  · rw [EvalM.exec_bind_error hm₁] at hrun
    cases hrun
    obtain ⟨hlater, r', ev₁', hconv, hlater', hagree⟩ :=
      hm _ _ hev hev' _ _ hm₁ (by rintro ⟨⟩; exact hr rfl)
    cases hagree
    exact ⟨hlater, _, ev₁', hconv.bind_error, hlater', .fault _⟩
  · rw [EvalM.exec_bind_ok hm₁] at hrun
    obtain ⟨hlater, r', ev₁', hconv, hlater', hagree⟩ := hm _ _ hev hev' _ _ hm₁ nofun
    cases hagree with
    | ok hrel =>
        obtain ⟨hlater₂, r'', ev₂', hconv₂, hlater₂', hagree₂⟩ :=
          hf _ _ _ _ (hlater.at hev).sources_le (hlater'.at hev').sources_le hrel
            _ _ hlater.self hlater'.self _ _ hrun hr
        exact ⟨hlater.trans hlater₂, r'', ev₂', hconv.bind hconv₂, hlater'.trans hlater₂',
          hagree₂⟩

/-- The left side goes on from the state that it reads. -/
theorem askAt {f : Evaluator β → EvalM β α}
    (h : ∀ ev, S.At σ ev → Follows S T (S.sources ev) τ (f ev) m' R) :
    Follows S T σ τ (getThe (Evaluator β) >>= f) m' R := by
  intro ev ev' hev hev' r ev₁ hrun hr
  rw [EvalM.exec_bind_ok (EvalM.exec_get ev)] at hrun
  exact h ev hev _ _ hev.self hev' _ _ hrun hr

/-- Reading the state of the left side only chooses how to go on. -/
theorem askLeft {f : Evaluator β → EvalM β α} (h : ∀ ev, S.At σ ev → Follows S T σ τ (f ev) m' R) :
    Follows S T σ τ (getThe (Evaluator β) >>= f) m' R :=
  askAt fun ev hev => (h ev hev).later hev.sources_le (.refl _)

/-- The right side goes on from the state that it reads. -/
theorem askRightAt {f' : Nat → Evaluator β → EvalM β α'}
    (h : ∀ ev', T.At τ ev' → Follows S T σ (T.sources ev') m (fun n => f' n ev') R) :
    Follows S T σ τ m (fun n => getThe (Evaluator β) >>= f' n) R := by
  intro ev ev' hev hev' r ev₁ hrun hr
  obtain ⟨hlater, r', ev₁', hconv, hrest⟩ := h ev' hev' _ _ hev hev'.self _ _ hrun hr
  exact ⟨hlater, r', ev₁', .bind (.of_forall fun _ => EvalM.exec_get ev') hconv, hrest⟩

/-- Reading the state of the right side only chooses how to go on. -/
theorem askRight {f' : Nat → Evaluator β → EvalM β α'}
    (h : ∀ ev', T.At τ ev' → Follows S T σ τ m (fun n => f' n ev') R) :
    Follows S T σ τ m (fun n => getThe (Evaluator β) >>= f' n) R :=
  askRightAt fun ev' hev' => (h ev' hev').later (.refl _) hev'.sources_le

theorem ask {f : Evaluator β → EvalM β α} {f' : Nat → Evaluator β → EvalM β α'}
    (h : ∀ ev ev', S.At σ ev → T.At τ ev' → Follows S T σ τ (f ev) (fun n => f' n ev') R) :
    Follows S T σ τ (getThe (Evaluator β) >>= f) (fun n => getThe (Evaluator β) >>= f' n) R :=
  askLeft fun ev hev => askRight fun ev' hev' => h ev ev' hev hev'

/-- Calls of primitives from outside are counted on both sides. -/
theorem counted (h : Follows S T σ τ m m' R) :
    Follows S T σ τ
      (do modifyThe (Evaluator β) fun ev => { ev with hostCalls := ev.hostCalls + 1 }; m)
      (fun n => do
        modifyThe (Evaluator β) fun ev => { ev with hostCalls := ev.hostCalls + 1 }
        m' n) R := by
  intro ev ev' hev hev' r ev₁ hrun hr
  rw [EvalM.exec_bind_ok (EvalM.exec_modify _ _)] at hrun
  obtain ⟨hlater, r', ev₁', hconv, hlater', hagree⟩ :=
    h { ev with hostCalls := ev.hostCalls + 1 } { ev' with hostCalls := ev'.hostCalls + 1 }
      ⟨S.counts hev.holds, hev.sources_le⟩ ⟨T.counts hev'.holds, hev'.sources_le⟩ _ _ hrun hr
  exact ⟨⟨hlater.holds, hlater.sources_le⟩, r', ev₁',
    .bind (.of_forall fun _ => EvalM.exec_modify _ ev') hconv,
    ⟨hlater'.holds, hlater'.sources_le⟩, hagree⟩

theorem ofExcept {x : Except EvalError α} {x' : Except EvalError α'}
    (herror : ∀ e, x = .error e → x' = .error e)
    (hok : ∀ a, x = .ok a → ∃ a', x' = .ok a' ∧ ∀ σ₁ τ₁, σ.Le σ₁ → τ.Le τ₁ → R σ₁ τ₁ a a') :
    Follows S T σ τ (EvalM.ofExcept x) (fun _ => EvalM.ofExcept x') R := by
  cases hx : x with
  | error e =>
      rw [herror e hx]
      exact fail e
  | ok a =>
      obtain ⟨a', hx', hR⟩ := hok a hx
      rw [hx']
      exact pure hR

theorem ofMerge {m : Merge β α} {m' : Merge β α'} (h : Merges S.view T.view σ τ m m' R) :
    Follows S T σ τ (EvalM.ofMerge m) (fun _ => EvalM.ofMerge m') R := by
  intro ev ev' hev hev' r ev₁ hrun _
  have hmerged := h _ _ hev.covers hev'.covers
  rw [EvalM.exec_ofMerge] at hrun
  have hconv (n : Nat) := EvalM.exec_ofMerge m' ev'
  generalize m.run ev.heap = x, m'.run ev'.heap = x' at hmerged hrun hconv
  cases hmerged with
  | error e =>
      cases hrun
      exact ⟨.refl hev.holds, _, ev', .of_forall hconv, .refl hev'.holds, .fault e⟩
  | ok adds adds' rel =>
      cases hrun
      exact ⟨⟨S.adds hev.holds adds, adds.sources_le _⟩, _, _, .of_forall hconv,
        ⟨T.adds hev'.holds adds', adds'.sources_le _⟩, .ok rel⟩

theorem ofMergeLeft {m : Merge β α} {a' : α'}
    (h : Merges S.view T.view σ τ m (Pure.pure a') R) :
    Follows S T σ τ (EvalM.ofMerge m) (fun _ => Pure.pure a') R :=
  ofMerge h

theorem ofMergeRight {a : α} {m' : Merge β α'}
    (h : Merges S.view T.view σ τ (Pure.pure a) m' R) :
    Follows S T σ τ (Pure.pure a) (fun _ => EvalM.ofMerge m') R :=
  ofMerge h

/-- The left side takes two computations where the right side takes one. -/
theorem join {mA mB : EvalM β α} {k : α → α → EvalM β α} (hA : Follows S T σ τ mA m' R)
    (hB : Follows S T σ τ mB m' R) (hR : R.Persistent)
    (hk : ∀ σ₁ τ₁ a b a', R σ₁ τ₁ a a' → R σ₁ τ₁ b a' →
      Follows S T σ₁ τ₁ (k a b) (fun _ => Pure.pure a') R) :
    Follows S T σ τ (do let a ← mA; let b ← mB; k a b) m' R := by
  intro ev ev' hev hev' r ev₃ hrun hr
  rcases hrunA : mA.exec ev with ⟨e | a, ev₁⟩
  · rw [EvalM.exec_bind_error hrunA] at hrun
    cases hrun
    obtain ⟨hlater, r', ev₁', hconv, hlater', hagree⟩ :=
      hA _ _ hev hev' _ _ hrunA (by rintro ⟨⟩; exact hr rfl)
    cases hagree
    exact ⟨hlater, _, ev₁', hconv, hlater', .fault _⟩
  rw [EvalM.exec_bind_ok hrunA] at hrun
  obtain ⟨hlater₁, r', ev₁', hconv, hlater', ⟨hrelA⟩⟩ := hA _ _ hev hev' _ _ hrunA nofun
  -- The second computation is compared with the right one from its start again.
  rcases hrunB : mB.exec ev₁ with ⟨e | b, ev₂⟩
  · rw [EvalM.exec_bind_error hrunB] at hrun
    cases hrun
    obtain ⟨hlater₂, r', ev₂', hconv₂, hlater₂', hagree⟩ :=
      hB _ _ (hlater₁.at hev) hev' _ _ hrunB (by rintro ⟨⟩; exact hr rfl)
    cases hagree
    exact ⟨hlater₁.trans hlater₂, _, ev₂', hconv₂, hlater₂', .fault _⟩
  rw [EvalM.exec_bind_ok hrunB] at hrun
  obtain ⟨hlater₂, r', ev₂', hconv₂, -, ⟨hrelB⟩⟩ := hB _ _ (hlater₁.at hev) hev' _ _ hrunB nofun
  cases hconv.unique hconv₂
  obtain ⟨hlater₃, r', ev₃', ⟨k, hpure⟩, -, hagree⟩ :=
    hk _ _ a b _ (hR hlater₂.sources_le (.refl _) hrelA) hrelB _ _ hlater₂.self hlater'.self
      _ _ hrun hr
  cases (EvalM.exec_pure _ _).symm.trans (hpure k le_rfl)
  exact ⟨(hlater₁.trans hlater₂).trans hlater₃, _, _, hconv, hlater', hagree⟩

/-- The right side takes two computations where the left side takes one. -/
theorem fork {mA' mB' : Nat → EvalM β α'} {k' : Nat → α' → α' → EvalM β α'}
    (hA : Follows S T σ τ m mA' R) (hB : Follows S T σ τ m mB' R) (hR : R.Persistent)
    (hk : ∀ σ₁ τ₁ a a' b', R σ₁ τ₁ a a' → R σ₁ τ₁ a b' →
      Follows S T σ₁ τ₁ (Pure.pure a) (fun n => k' n a' b') R) :
    Follows S T σ τ m (fun n => do let a ← mA' n; let b ← mB' n; k' n a b) R := by
  intro ev ev' hev hev' r ev₁ hrun hr
  obtain ⟨hlater, r', ev₁', hconvA, hlaterA, hagreeA⟩ := hA _ _ hev hev' _ _ hrun hr
  obtain ⟨-, r'', ev₂', hconvB, hlaterB, hagreeB⟩ := hB _ _ hev (hlaterA.at hev') _ _ hrun hr
  cases hagreeA with
  | fault e => exact ⟨hlater, _, ev₁', hconvA.bind_error, hlaterA, .fault e⟩
  | ok hrelA =>
      cases hagreeB with
      | ok hrelB =>
          obtain ⟨-, r'', ev₃', hconv, hlater₃, hagree⟩ :=
            hk _ _ _ _ _ (hR (.refl _) hlaterB.sources_le hrelA) hrelB _ _ hlater.self
              hlaterB.self _ _ (EvalM.exec_pure _ _) nofun
          exact ⟨hlater, _, ev₃', hconvA.bind (hconvB.bind hconv),
            (hlaterA.trans hlaterB).trans hlater₃, hagree⟩

/-- The same computation on each of two related lists. -/
theorem mapM {δ δ' : Type} {P : δ → δ' → Prop} {f : δ → EvalM β α} {f' : Nat → δ' → EvalM β α'}
    {xs : List δ} {xs' : List δ'} (hR : R.Persistent) (hxs : List.Forall₂ P xs xs')
    (hf : ∀ x x', P x x' → Follows S T σ τ (f x) (fun n => f' n x') R) :
    Follows S T σ τ (xs.mapM f) (fun n => xs'.mapM (f' n)) fun σ τ => List.Forall₂ (R σ τ) := by
  induction hxs with
  | nil =>
      simp only [List.mapM_nil]
      exact pure fun _ _ _ _ => List.Forall₂.nil
  | cons hx _ ih =>
      simp only [List.mapM_cons]
      refine bind (hf _ _ hx) fun σ₁ τ₁ a a' hσ hτ ha => ?_
      refine bind (ih.later hσ hτ) fun σ₂ τ₂ as as' hσ₂ hτ₂ has => ?_
      exact pure fun _ _ hσ₃ hτ₃ =>
        .cons (hR (hσ₂.trans hσ₃) (hτ₂.trans hτ₃) ha) (has.imp fun _ _ h => hR hσ₃ hτ₃ h)

end Follows

end TermGraph
