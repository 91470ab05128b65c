import Mathlib
import TermGraph.Proofs.Eval.Grow
import TermGraph.Proofs.Eval.Sound

/-!
# A symbolic computation and a known one

`Simulates c c' σ τ m m' R` says: whenever both the symbolic computation `m` and the known
computation `m'` succeed, their results are related by `R`.  The two are not in step: where
the known computation takes one way, the symbolic one may take all of them and merge the
results, and then only the way that the condition picks counts.  Of the others it is enough
that they lose no stream.
-/

namespace TermGraph

open EvalM (Grows)
open Value (Stands)

variable {β : Type}

namespace EvalM

variable {α γ : Type}

theorem exec_ofMerge_eq_ok {m : Merge β α} {ev ev₁ : Evaluator β} {a : α}
    (hrun : (ofMerge m).exec ev = (.ok a, ev₁)) :
    ∃ heap, m.run ev.heap = .ok (a, heap) ∧ ev₁ = { ev with heap := heap } := by
  rw [exec_ofMerge] at hrun
  cases hm : m.run ev.heap with
  | error e =>
      rw [hm] at hrun
      cases hrun
  | ok r =>
      rw [hm] at hrun
      cases hrun
      exact ⟨_, rfl, rfl⟩

/-- Nothing that was there before is lost. -/
theorem Grows.later {m : EvalM β α} {c : Setting β} {ev ev₁ : Evaluator β} {r : Except Stop α}
    (h : Grows m) (hev : (bareSide c).Holds ev) (hrun : m.exec ev = (r, ev₁)) :
    (bareSide c).Later ev ev₁ := by
  obtain ⟨hsetting, hheap⟩ := h ev
  rw [hrun] at hsetting hheap
  exact ⟨hsetting.trans hev, hheap.sources_le .all⟩

end EvalM

/-! ## The primitives of the Prelude -/

/-- The row of the table with a name; of two rows of one name the later one counts. -/
def Builtin.row? (i : Ident) : Option (String × Nat × Builtin) :=
  Builtin.table.reverse.find? fun row => .prelude row.1 = i

theorem getElem?_defaultPrimitives (i : Ident) :
    (Evaluator.defaultPrimitives : Std.HashMap Ident (Primitive β))[i]? =
      (Builtin.row? i).map fun row => ⟨row.2.1, .builtin row.2.2⟩ := by
  -- A later row replaces an earlier one, so the rows are searched from the end.
  have hfold (rows : List (String × Nat × Builtin)) (m : Std.HashMap Ident (Primitive β)) :
      (rows.foldl (fun m row => m.insert (.prelude row.1) ⟨row.2.1, .builtin row.2.2⟩) m)[i]? =
        ((rows.reverse.find? fun row => .prelude row.1 = i).map fun row =>
          (⟨row.2.1, .builtin row.2.2⟩ : Primitive β)).or m[i]? := by
    induction rows generalizing m with
    | nil => rfl
    | cons row rows ih =>
        rw [List.foldl_cons, ih, List.reverse_cons, List.find?_append, Std.HashMap.getElem?_insert,
          List.find?_singleton]
        cases rows.reverse.find? fun row => .prelude row.1 = i with
        | some _ => rfl
        | none =>
            by_cases hrow : Ident.prelude row.1 = i <;> simp [hrow]
  rw [Evaluator.defaultPrimitives, hfold, Std.HashMap.getElem?_empty, Option.or_none]
  rfl

/-- A built-in primitive waits for its arguments and then runs. -/
theorem exec_callPrimitive_builtin [BitLike β] [DecidableEq β] {ev : Evaluator β} {prim : Ident}
    {arity : Nat} {op : Builtin} (hprim : ev.primitives[prim]? = some ⟨arity, .builtin op⟩)
    (calls : Calls β) (args : List (Value β)) :
    (callPrimitive calls prim args).exec ev =
      if args.length < arity then (.ok (.partialApp prim args), ev)
      else (Primitive.run calls op args).exec ev := by
  rw [callPrimitive, EvalM.exec_bind_ok (EvalM.exec_get ev), hprim]
  dsimp only
  split <;> rfl

/-- So does a primitive of the Prelude. -/
theorem exec_callPrimitive [BitLike β] [DecidableEq β] {ev : Evaluator β}
    (hev : ev.primitives = Evaluator.defaultPrimitives) {prim : Ident}
    {row : String × Nat × Builtin} (hrow : Builtin.row? prim = some row) (calls : Calls β)
    (args : List (Value β)) :
    (callPrimitive calls prim args).exec ev =
      if args.length < row.2.1 then (.ok (.partialApp prim args), ev)
      else (Primitive.run calls row.2.2 args).exec ev := by
  refine exec_callPrimitive_builtin ?_ calls args
  rw [hev, getElem?_defaultPrimitives, hrow]
  rfl

/-- The conditional waits for its type, its condition and its branches. -/
theorem getElem?_defaultPrimitives_ite : (Evaluator.defaultPrimitives : Std.HashMap Ident
    (Primitive β))[Ident.prelude "ite"]? = some ⟨4, .builtin .ite⟩ := by
  rw [getElem?_defaultPrimitives,
    show Builtin.row? (.prelude "ite") = some ("ite", 4, .ite) by decide]
  rfl

/-- A known setting is a symbolic one under a valuation: both have the primitives of the
Prelude, and values of the same globals and free variables, which stand for each other
whatever streams there are. -/
structure Setting.Shadows [BitLike β] (f : Valuation β) (c : Setting β) (c' : Setting Bool) :
    Prop where
  primitives : c.primitives = Evaluator.defaultPrimitives
  primitives' : c'.primitives = Evaluator.defaultPrimitives
  overrides : ∀ i : Ident,
    Option.Rel (fun v w => ∀ σ τ, Stands f σ τ v w) c.overrides[i]? c'.overrides[i]?
  freeValues : ∀ id : TermId,
    Option.Rel (fun v w => ∀ σ τ, Stands f σ τ v w) c.freeValues[id]? c'.freeValues[id]?

section Shadows

variable [BitLike β] {f : Valuation β} {c : Setting β} {c' : Setting Bool} {σ : Sources β}
  {τ : Sources Bool} {ev : Evaluator β} {ev' : Evaluator Bool}

/-- A name is replaced on both sides or on neither. -/
theorem Setting.Shadows.override (h : c.Shadows f c') (hev : (bareSide c).At σ ev)
    (hev' : (bareSide c').At τ ev') (i : Ident) :
    (ev.overrides[i]? = none ∧ ev'.overrides[i]? = none) ∨
      ∃ v w, ev.overrides[i]? = some v ∧ ev'.overrides[i]? = some w ∧
        ∀ σ τ, Stands f σ τ v w := by
  rw [hev.overrides_eq, hev'.overrides_eq]
  have hrel := h.overrides i
  generalize c.overrides[i]? = o, c'.overrides[i]? = o' at hrel
  cases hrel with
  | none => exact .inl ⟨rfl, rfl⟩
  | some hvw => exact .inr ⟨_, _, rfl, rfl, hvw⟩

/-- A free variable has values on both sides or on neither. -/
theorem Setting.Shadows.freeValue (h : c.Shadows f c') (hev : (bareSide c).At σ ev)
    (hev' : (bareSide c').At τ ev') (id : TermId) :
    (ev.freeValues[id]? = none ∧ ev'.freeValues[id]? = none) ∨
      ∃ v w, ev.freeValues[id]? = some v ∧ ev'.freeValues[id]? = some w ∧
        ∀ σ τ, Stands f σ τ v w := by
  rw [hev.freeValues_eq, hev'.freeValues_eq]
  have hrel := h.freeValues id
  generalize c.freeValues[id]? = o, c'.freeValues[id]? = o' at hrel
  cases hrel with
  | none => exact .inl ⟨rfl, rfl⟩
  | some hvw => exact .inr ⟨_, _, rfl, rfl, hvw⟩

end Shadows

/-! ## Simulation -/

/-- A relation between results of a symbolic and of a known computation, where there are
streams with these sources. -/
abbrev Reading (β α α' : Type) : Type :=
  Sources β → Sources Bool → α → α' → Prop

/-- A reading that new streams do not affect. -/
def Reading.Persistent {α α' : Type} (R : Reading β α α') : Prop :=
  ∀ ⦃σ σ' : Sources β⦄ ⦃τ τ' : Sources Bool⦄ ⦃a : α⦄ ⦃a' : α'⦄,
    σ.Le σ' → τ.Le τ' → R σ τ a a' → R σ' τ' a a'

theorem persistent_stands [BitLike β] (f : Valuation β) : Reading.Persistent (Stands f) :=
  fun _ _ _ _ _ _ hσ hτ h => h.mono hσ hτ

/-- Whenever both computations succeed, their results are related. -/
def Simulates {α α' : Type} (c : Setting β) (c' : Setting Bool) (σ : Sources β)
    (τ : Sources Bool) (m : EvalM β α) (m' : EvalM Bool α') (R : Reading β α α') : Prop :=
  ∀ ev ev' a a' ev₁ ev₁', (bareSide c).At σ ev → (bareSide c').At τ ev' →
    m.exec ev = (.ok a, ev₁) → m'.exec ev' = (.ok a', ev₁') →
    (bareSide c).Later ev ev₁ ∧ (bareSide c').Later ev' ev₁' ∧
      R ((bareSide c).sources ev₁) ((bareSide c').sources ev₁') a a'

namespace Simulates

variable {α α' γ γ' : Type} {c : Setting β} {c' : Setting Bool} {σ : Sources β}
  {τ : Sources Bool} {m : EvalM β α} {m' : EvalM Bool α'} {R : Reading β α α'}
  {Q : Reading β γ γ'}

/-- New streams keep computations related. -/
theorem later {σ₁ : Sources β} {τ₁ : Sources Bool} (h : Simulates c c' σ τ m m' R)
    (hσ : σ.Le σ₁) (hτ : τ.Le τ₁) : Simulates c c' σ₁ τ₁ m m' R :=
  fun _ _ _ _ _ _ hev hev' => h _ _ _ _ _ _ (hev.of_le hσ) (hev'.of_le hτ)

theorem pure {a : α} {a' : α'} (hR : R.Persistent) (h : R σ τ a a') :
    Simulates c c' σ τ (Pure.pure a) (Pure.pure a') R := by
  intro ev ev' _ _ ev₁ ev₁' hev hev' hrun hrun'
  cases hrun
  cases hrun'
  exact ⟨.refl hev.holds, .refl hev'.holds, hR hev.sources_le hev'.sources_le h⟩

theorem fail (e : EvalError) (m' : EvalM Bool α') :
    Simulates c c' σ τ (EvalM.fail e) m' R :=
  nofun

theorem outOfFuel (m' : EvalM Bool α') : Simulates c c' σ τ (throw .outOfFuel) m' R :=
  nofun

theorem outOfFuelRight (m : EvalM β α) : Simulates c c' σ τ m (throw .outOfFuel) R :=
  fun _ _ _ _ _ _ _ _ _ hrun' => nomatch hrun'

theorem failRight (m : EvalM β α) (e : EvalError) :
    Simulates c c' σ τ m (EvalM.fail e) R :=
  fun _ _ _ _ _ _ _ _ _ hrun' => nomatch hrun'

theorem bind {k : α → EvalM β γ} {k' : α' → EvalM Bool γ'} (hm : Simulates c c' σ τ m m' R)
    (hk : ∀ σ₁ τ₁ a a', σ.Le σ₁ → τ.Le τ₁ → R σ₁ τ₁ a a' →
      Simulates c c' σ₁ τ₁ (k a) (k' a') Q) :
    Simulates c c' σ τ (m >>= k) (m' >>= k') Q := by
  intro ev ev' b b' ev₂ ev₂' hev hev' hrun hrun'
  obtain ⟨a, ev₁, hm₁, hk₁⟩ := EvalM.exec_bind_eq_ok hrun
  obtain ⟨a', ev₁', hm₁', hk₁'⟩ := EvalM.exec_bind_eq_ok hrun'
  obtain ⟨hlater, hlater', hrel⟩ := hm _ _ _ _ _ _ hev hev' hm₁ hm₁'
  obtain ⟨hlater₂, hlater₂', hrel₂⟩ :=
    hk _ _ _ _ (hlater.at hev).sources_le (hlater'.at hev').sources_le hrel
      _ _ _ _ _ _ hlater.self hlater'.self hk₁ hk₁'
  exact ⟨hlater.trans hlater₂, hlater'.trans hlater₂', hrel₂⟩

/-- Reading the states only chooses how to go on. -/
theorem ask {k : Evaluator β → EvalM β α} {k' : Evaluator Bool → EvalM Bool α'}
    (h : ∀ ev ev', (bareSide c).At σ ev → (bareSide c').At τ ev' →
      Simulates c c' σ τ (k ev) (k' ev') R) :
    Simulates c c' σ τ (getThe (Evaluator β) >>= k) (getThe (Evaluator Bool) >>= k') R :=
  fun ev ev' _ _ _ _ hev hev' hrun hrun' => h ev ev' hev hev' _ _ _ _ _ _ hev hev' hrun hrun'

/-- The symbolic side goes on from the state that it reads. -/
theorem askLeft {k : Evaluator β → EvalM β α}
    (h : ∀ ev, (bareSide c).At σ ev → Simulates c c' σ τ (k ev) m' R) :
    Simulates c c' σ τ (getThe (Evaluator β) >>= k) m' R :=
  fun ev _ _ _ _ _ hev hev' hrun hrun' => h ev hev _ _ _ _ _ _ hev hev' hrun hrun'

theorem ofExcept {x : Except EvalError α} {y : Except EvalError α'} (hR : R.Persistent)
    (h : Matches (R σ τ) x y) :
    Simulates c c' σ τ (EvalM.ofExcept x) (EvalM.ofExcept y) R := by
  cases x with
  | error e => exact fail e _
  | ok a =>
      cases y with
      | error e => exact failRight _ e
      | ok a' => exact pure hR (h a a' rfl rfl)

/-- Arguments are read on both sides before anything else is done. -/
theorem read {x : Except EvalError α} {y : Except EvalError α'} {P : α → α' → Prop}
    {k : α → EvalM β γ} {k' : α' → EvalM Bool γ'} (h : Matches P x y)
    (hk : ∀ a a', P a a' → Simulates c c' σ τ (k a) (k' a') Q) :
    Simulates c c' σ τ (EvalM.ofExcept x >>= k) (EvalM.ofExcept y >>= k') Q := by
  cases x with
  | error e => exact nofun
  | ok a =>
      cases y with
      | error e => exact fun _ _ _ _ _ _ _ _ _ hrun' => nomatch hrun'
      | ok a' => exact hk a a' (h a a' rfl rfl)

/-- The symbolic side may do less than it does. -/
theorem ofLeft {n : EvalM β α} (h : Simulates c c' σ τ n m' R)
    (hrun : ∀ ev a ev₁, (bareSide c).Holds ev → m.exec ev = (.ok a, ev₁) →
      n.exec ev = (.ok a, ev₁)) : Simulates c c' σ τ m m' R :=
  fun ev _ a _ ev₁ _ hev hev' hm => h _ _ _ _ _ _ hev hev' (hrun ev a ev₁ hev.holds hm)

/-- The symbolic side computes something that does not count. -/
theorem skip {n : EvalM β γ} {k : γ → EvalM β α} (hn : Grows n)
    (hk : ∀ b, Simulates c c' σ τ (k b) m' R) : Simulates c c' σ τ (n >>= k) m' R := by
  intro ev ev' a a' ev₂ ev₁' hev hev' hrun hrun'
  obtain ⟨b, ev₁, hn₁, hk₁⟩ := EvalM.exec_bind_eq_ok hrun
  have hlater := hn.later hev.holds hn₁
  obtain ⟨hlater₂, hlater', hrel⟩ := hk b _ _ _ _ _ _ (hlater.at hev) hev' hk₁ hrun'
  exact ⟨hlater.trans hlater₂, hlater', hrel⟩

/-- The same computation on each of two related lists. -/
theorem mapM {δ δ' : Type} {P : δ → δ' → Prop} {g : δ → EvalM β α} {g' : δ' → EvalM Bool α'}
    {xs : List δ} {xs' : List δ'} (hR : R.Persistent) (hxs : List.Forall₂ P xs xs')
    (hg : ∀ x x', P x x' → Simulates c c' σ τ (g x) (g' x') R) :
    Simulates c c' σ τ (xs.mapM g) (xs'.mapM g') fun σ τ => List.Forall₂ (R σ τ) := by
  have hRs : Reading.Persistent fun σ τ => List.Forall₂ (R σ τ) :=
    fun _ _ _ _ _ _ hσ hτ h => h.imp fun _ _ h => hR hσ hτ h
  induction hxs with
  | nil =>
      rw [List.mapM_nil, List.mapM_nil]
      exact pure hRs .nil
  | cons hx _ ih =>
      rw [List.mapM_cons, List.mapM_cons]
      refine bind (hg _ _ hx) fun σ₁ τ₁ a a' hσ hτ ha => ?_
      refine bind (ih.later hσ hτ) fun σ₂ τ₂ as as' hσ₂ hτ₂ has => ?_
      exact pure hRs (.cons (hR hσ₂ hτ₂ ha) has)

/-- The symbolic side computes the results for a list, the known one that for one of them. -/
theorem nth {δ : Type} {g : δ → EvalM β α} {xs : List δ} {x : δ} {n : Nat} (hR : R.Persistent)
    (hx : xs[n]? = some x) (hgrow : ∀ x, Grows (g x)) (hg : Simulates c c' σ τ (g x) m' R) :
    Simulates c c' σ τ (xs.mapM g) m' fun σ τ as a' => ∃ a, as[n]? = some a ∧ R σ τ a a' := by
  induction xs generalizing n with
  | nil => cases hx
  | cons y ys ih =>
      rw [List.mapM_cons]
      cases n with
      | zero =>
          -- What comes after the element that counts only adds streams.
          obtain rfl : y = x := by simpa using hx
          intro ev ev' as a' ev₃ ev₁' hev hev' hrun hrun'
          obtain ⟨a, ev₁, hrun₁, hrest⟩ := EvalM.exec_bind_eq_ok hrun
          obtain ⟨as', ev₂, hrun₂, hlast⟩ := EvalM.exec_bind_eq_ok hrest
          cases hlast
          obtain ⟨hlater, hlater', hrel⟩ := hg _ _ _ _ _ _ hev hev' hrun₁ hrun'
          have hlater₂ := (Grows.mapM fun y _ => hgrow y).later hlater.holds hrun₂
          exact ⟨hlater.trans hlater₂, hlater', a, rfl, hR hlater₂.sources_le (.refl _) hrel⟩
      | succ n =>
          refine skip (hgrow y) fun b => ?_
          intro ev ev' as a' ev₂ ev₁' hev hev' hrun hrun'
          obtain ⟨as', ev₁, hrun₁, hlast⟩ := EvalM.exec_bind_eq_ok hrun
          cases hlast
          obtain ⟨hlater, hlater', a, ha, hrel⟩ :=
            ih (by simpa using hx) _ _ _ _ _ _ hev hev' hrun₁ hrun'
          exact ⟨hlater, hlater', a, by simpa using ha, hrel⟩

/-! ### Merges -/

section Merges

variable [BitLike β] [DecidableEq β] {f : Valuation β} {b : β}

/-- The symbolic side merges two values, and the known one has what the condition picks. -/
theorem picked {v w : Value β} {w' : Value Bool}
    (h : Stands f σ τ (if f.read b then v else w) w') :
    Simulates c c' σ τ (EvalM.ofMerge (Value.mux b v w)) (Pure.pure w') (Stands f) := by
  intro ev ev' r _ ev₁ ev₁' hev hev' hrun hrun'
  cases hrun'
  obtain ⟨heap, hmux, rfl⟩ := EvalM.exec_ofMerge_eq_ok hrun
  obtain ⟨hadds, hpick⟩ := Value.picks_mux b v w ev.heap r heap hmux
  have hw := hpick w' (h.mono hev.sources_le hev'.sources_le)
  exact ⟨⟨hev.holds, hadds.sources_le .all⟩, .refl hev'.holds, hw⟩

/-- The symbolic side computes two values and merges them, the known one only what the
condition picks. -/
theorem choose {mv mw : EvalM β (Value β)} {m' : EvalM Bool (Value Bool)} (hv : Grows mv)
    (hw : Grows mw) (h : Simulates c c' σ τ (if f.read b then mv else mw) m' (Stands f)) :
    Simulates c c' σ τ (do let v ← mv; let w ← mw; EvalM.ofMerge (Value.mux b v w)) m'
      (Stands f) := by
  intro ev ev' r r' ev₃ ev₁' hev hev' hrun hrun'
  obtain ⟨v, ev₁, hrunv, hrest⟩ := EvalM.exec_bind_eq_ok hrun
  obtain ⟨w, ev₂, hrunw, hmerge⟩ := EvalM.exec_bind_eq_ok hrest
  have hlater₁ := hv.later hev.holds hrunv
  have hlater₂ := hw.later hlater₁.holds hrunw
  -- What the known side does is related to the branch that counts; the other one goes before
  -- or after it and only adds streams.
  have hpicked : (bareSide c').Later ev' ev₁' ∧
      Stands f ((bareSide c).sources ev₂) ((bareSide c').sources ev₁')
        (if f.read b then v else w) r' := by
    cases hb : f.read b with
    | true =>
        rw [hb] at h
        obtain ⟨-, hlater', hstands⟩ := h _ _ _ _ _ _ hev hev' hrunv hrun'
        exact ⟨hlater', hstands.mono hlater₂.sources_le (.refl _)⟩
    | false =>
        rw [hb] at h
        obtain ⟨-, hlater', hstands⟩ := h _ _ _ _ _ _ (hlater₁.at hev) hev' hrunw hrun'
        exact ⟨hlater', hstands⟩
  obtain ⟨hlater', hstands⟩ := hpicked
  obtain ⟨hlater₃, -, hr⟩ :=
    picked hstands _ _ _ _ _ _ hlater₂.self ⟨hlater'.holds, .refl _⟩ hmerge rfl
  exact ⟨(hlater₁.trans hlater₂).trans hlater₃, hlater', hr⟩

/-- The symbolic side selects among elements, and the known one has that of the index. -/
theorem selected {elems : List (Value β)} {index : List β} {v : Value β} {w : Value Bool}
    (hv : elems[f.number index]? = some v) (h : Stands f σ τ v w) :
    Simulates c c' σ τ (EvalM.ofMerge (Primitive.select elems index)) (Pure.pure w)
      (Stands f) := by
  intro ev ev' r _ ev₁ ev₁' hev hev' hrun hrun'
  cases hrun'
  obtain ⟨heap, hselect, rfl⟩ := EvalM.exec_ofMerge_eq_ok hrun
  obtain ⟨hadds, picked, hpicked, hpick⟩ := Primitive.picks_select hselect
  obtain rfl := hpicked.eq_of_getElem? hv
  have hw := hpick w (h.mono hev.sources_le hev'.sources_le)
  exact ⟨⟨hev.holds, hadds.sources_le .all⟩, .refl hev'.holds, hw⟩

end Merges

/-- Both sides add a stream. -/
theorem alloc [BitLike β] {f : Valuation β} {g : Value β} {g' : Value Bool}
    (h : Stands f σ τ g g') :
    Simulates c c' σ τ
      (EvalM.ofMerge (modifyGet (·.alloc (.generator g))))
      (EvalM.ofMerge (modifyGet (·.alloc (.generator g'))))
      fun σ τ i j => Stands f σ τ (.stream i) (.stream j) := by
  intro ev ev' i j ev₁ ev₁' hev hev' hrun hrun'
  cases hrun
  cases hrun'
  have hadds := ev.heap.adds_alloc (.generator g)
  have hadds' := ev'.heap.adds_alloc (.generator g')
  refine ⟨⟨hev.holds, hadds.sources_le .all⟩, ⟨hev'.holds, hadds'.sources_le .all⟩, ?_⟩
  refine .stream (ev.heap.sources_alloc _ (Nat.zero_le _))
    (ev'.heap.sources_alloc _ (Nat.zero_le _)) (h.mono ?_ ?_)
  · exact hev.sources_le.trans (hadds.sources_le .all)
  · exact hev'.sources_le.trans (hadds'.sources_le .all)

end Simulates

end TermGraph
