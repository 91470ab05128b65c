import Mathlib
import TermGraph.Proofs.Eval.Operations
import TermGraph.Proofs.Eval.Plain

/-!
# Evaluation only adds

Whatever comes of an evaluation, it leaves what the evaluator was set up with as it is, and
it loses no stream and no element of a stream that is remembered.  So a value stays what it
is while others are computed.
-/

namespace TermGraph

variable {β : Type}

namespace EvalM

variable {α γ : Type}

/-- A computation leaves the setting as it is and loses nothing of the streams. -/
def Grows (m : EvalM β α) : Prop :=
  ∀ ev, (m.exec ev).2.setting = ev.setting ∧ ev.heap.Retains (m.exec ev).2.heap

namespace Grows

variable {m : EvalM β α} {f : α → EvalM β γ}

theorem pure (a : α) : Grows (Pure.pure a : EvalM β α) :=
  fun _ => ⟨rfl, .refl _⟩

theorem throw (e : Stop) : Grows (MonadExcept.throw e : EvalM β α) :=
  fun _ => ⟨rfl, .refl _⟩

theorem fail (e : EvalError) : Grows (EvalM.fail e : EvalM β α) :=
  .throw _

theorem get : Grows (getThe (Evaluator β) : EvalM β _) :=
  fun _ => ⟨rfl, .refl _⟩

theorem modify {g : Evaluator β → Evaluator β} (hsetting : ∀ ev, (g ev).setting = ev.setting)
    (hheap : ∀ ev, (g ev).heap = ev.heap) : Grows (modifyThe (Evaluator β) g : EvalM β _) :=
  fun ev => ⟨hsetting ev, (hheap ev).symm ▸ .refl _⟩

theorem bind (hm : Grows m) (hf : ∀ a, Grows (f a)) : Grows (m >>= f) := by
  intro ev
  obtain ⟨hsetting, hheap⟩ := hm ev
  rcases hrun : m.exec ev with ⟨e | a, ev₁⟩ <;> rw [hrun] at hsetting hheap
  · rw [exec_bind_error hrun]
    exact ⟨hsetting, hheap⟩
  · rw [exec_bind_ok hrun]
    obtain ⟨hsetting₁, hheap₁⟩ := hf a ev₁
    exact ⟨hsetting₁.trans hsetting, hheap.trans hheap₁⟩

theorem ofExcept (x : Except EvalError α) : Grows (EvalM.ofExcept x : EvalM β α) := by
  cases x with
  | error e => exact .fail e
  | ok a => exact .pure a

theorem ofMerge {m : Merge β α} (h : ∀ h a h₁, m.run h = .ok (a, h₁) → h.Adds h₁) :
    Grows (EvalM.ofMerge m) := by
  intro ev
  rw [exec_ofMerge]
  cases hrun : m.run ev.heap with
  | error e => exact ⟨rfl, .refl _⟩
  | ok r => exact ⟨rfl, (h _ _ _ hrun).retains⟩

theorem mapM {as : List α} (h : ∀ a ∈ as, Grows (f a)) : Grows (as.mapM f) := by
  induction as with
  | nil => exact .pure _
  | cons a as ih =>
      obtain ⟨ha, has⟩ := List.forall_mem_cons.mp h
      rw [List.mapM_cons]
      exact .bind ha fun _ => .bind (ih has) fun _ => .pure _

/-- Keeping a result touches neither the setting nor the streams. -/
theorem keep {g : α → Evaluator β → Evaluator β} (hm : Grows m)
    (hsetting : ∀ a ev, (g a ev).setting = ev.setting)
    (hheap : ∀ a ev, (g a ev).heap = ev.heap) :
    Grows (do let a ← m; modifyThe (Evaluator β) (g a); return a) :=
  .bind hm fun a => .bind (.modify (hsetting a) (hheap a)) fun _ => .pure _

end Grows

end EvalM

open EvalM (Grows)

/-- All calls leave the setting as it is and lose nothing of the streams. -/
structure Calls.Grow (calls : Calls β) : Prop where
  eval : ∀ id env, Grows (calls.eval id env)
  apply : ∀ fn arg, Grows (calls.apply fn arg)
  element : ∀ id n, Grows (calls.element id n)

/-! ## Merges -/

/-- A computation over values that adds streams only. -/
def Merge.AddsOnly {α : Type} (m : Merge β α) : Prop :=
  ∀ h a h₁, m.run h = .ok (a, h₁) → h.Adds h₁

namespace Merge.AddsOnly

variable {α γ : Type} {m : Merge β α} {f : α → Merge β γ}

theorem pure (a : α) : AddsOnly (Pure.pure a : Merge β α) := by
  intro h a' h₁ hrun
  cases hrun
  exact .refl h

theorem throw (e : EvalError) : AddsOnly (MonadExcept.throw e : Merge β α) := by
  intro h a h₁ hrun
  cases hrun

theorem bind (hm : AddsOnly m) (hf : ∀ a, AddsOnly (f a)) : AddsOnly (m >>= f) := by
  intro h b h₂ hrun
  obtain ⟨a, h₁, hrun₁, hrun₂⟩ := Value.run_bind_eq_ok hrun
  exact (hm h a h₁ hrun₁).trans (hf a h₁ b h₂ hrun₂)

theorem ite {p : Prop} [Decidable p] {m' : Merge β α} (hm : AddsOnly m) (hm' : AddsOnly m') :
    AddsOnly (if p then m else m') := by
  split
  · exact hm
  · exact hm'

theorem alloc (src : StreamSource β) :
    AddsOnly (modifyGet (·.alloc src) : Merge β StreamId) := by
  intro h a h₁ hrun
  cases hrun
  exact h.adds_alloc src

end Merge.AddsOnly

section Merges

open Merge (AddsOnly)
open Value (muxList muxFields)

variable [BitLike β] [DecidableEq β] {c : β}

theorem addsOnly_muxList {as : List (Value β)} (ih : ∀ a ∈ as, ∀ e, AddsOnly (Value.mux c a e))
    (bs : List (Value β)) : AddsOnly (muxList c as bs) := by
  induction as generalizing bs with
  | nil => rw [Value.muxList_nil]; exact .pure _
  | cons a as iha =>
      obtain ⟨ha, has⟩ := List.forall_mem_cons.mp ih
      cases bs with
      | nil => rw [Value.muxList_nil_right]; exact .pure _
      | cons b bs =>
          rw [Value.muxList_cons]
          exact .bind (ha b) fun _ => .bind (iha has bs) fun _ => .pure _

theorem addsOnly_muxFields {fs : List (String × Value β)}
    (ih : ∀ f ∈ fs, ∀ e, AddsOnly (Value.mux c f.2 e)) (gs : List (String × Value β)) :
    AddsOnly (muxFields c fs gs) := by
  induction fs generalizing gs with
  | nil => rw [Value.muxFields_nil]; exact .pure _
  | cons f fs ihf =>
      obtain ⟨hf, hfs⟩ := List.forall_mem_cons.mp ih
      cases gs with
      | nil => rw [Value.muxFields_nil_right]; exact .pure _
      | cons g gs =>
          rw [Value.muxFields_cons]
          exact .bind (hf g.2) fun _ => .bind (ihf hfs gs) fun _ => .pure _

/-- A merge adds streams only if the merges of the parts do. -/
theorem addsOnly_mergeShapes {t e : Value β}
    (hvector : ∀ as bs, t = .vector as → AddsOnly (muxList c as bs))
    (hpair : ∀ a b a' b', t = .pair a b → AddsOnly (Value.mux c a a') ∧ AddsOnly (Value.mux c b b'))
    (hrecord : ∀ fs gs, t = .record fs → AddsOnly (muxFields c fs gs))
    (hctor : ∀ i as bs, t = .ctor i as → AddsOnly (muxList c as bs)) :
    AddsOnly (Value.mergeShapes c t e) := by
  unfold Value.mergeShapes
  split
  case h_2 | h_14 => exact .ite (.pure _) (.throw _)
  case h_9 as bs => exact .ite (.bind (hvector as bs rfl) fun _ => .pure _) (.throw _)
  case h_10 a b a' b' =>
    obtain ⟨hleft, hright⟩ := hpair a b a' b' rfl
    exact .bind hleft fun _ => .bind hright fun _ => .pure _
  case h_11 fs gs => exact .ite (.bind (hrecord fs gs rfl) fun _ => .pure _) (.throw _)
  case h_12 i as j bs => exact .ite (.bind (hctor i as bs rfl) fun _ => .pure _) (.throw _)
  case h_13 => exact .bind (.alloc _) fun _ => .pure _
  all_goals first | exact .pure _ | exact .throw _

/-- Merging adds streams only. -/
theorem addsOnly_mux (c : β) (t : Value β) : ∀ e, AddsOnly (Value.mux c t e) := by
  have hshapes {t e : Value β} (h : AddsOnly (Value.mergeShapes c t e)) :
      AddsOnly (Value.mux c t e) := by
    rw [Value.mux_eq]
    split
    · exact .pure _
    · exact .ite (.pure _) h
  induction t using Value.inductOn with
  | vector as ih =>
      refine fun e => hshapes (addsOnly_mergeShapes ?_ nofun nofun nofun)
      rintro _ bs ⟨⟩
      exact addsOnly_muxList ih bs
  | pair a b iha ihb =>
      refine fun e => hshapes (addsOnly_mergeShapes nofun ?_ nofun nofun)
      rintro _ _ a' b' ⟨⟩
      exact ⟨iha a', ihb b'⟩
  | record fs ih =>
      refine fun e => hshapes (addsOnly_mergeShapes nofun nofun ?_ nofun)
      rintro _ gs ⟨⟩
      exact addsOnly_muxFields ih gs
  | ctor i as ih =>
      refine fun e => hshapes (addsOnly_mergeShapes nofun nofun nofun ?_)
      rintro _ _ bs ⟨⟩
      exact addsOnly_muxList ih bs
  | _ => exact fun e => hshapes (addsOnly_mergeShapes nofun nofun nofun nofun)

theorem addsOnly_chain (index : List β) (elems : List (Value β)) (k : Nat) (last : Value β) :
    AddsOnly (Primitive.chain index elems k last) := by
  induction elems generalizing k with
  | nil => exact .pure _
  | cons a as ih =>
      rw [Primitive.chain, List.zipIdx_cons, List.foldrM_cons]
      exact .bind (ih (k + 1)) fun rest => addsOnly_mux _ a rest

theorem addsOnly_select (elems : List (Value β)) (index : List β) :
    AddsOnly (Primitive.select elems index) := by
  intro h r h₁ hrun
  obtain ⟨as, last, hchain, -⟩ := Primitive.select_chain hrun
  exact addsOnly_chain index as 0 last h r h₁ hchain

theorem grows_mux (c : β) (t e : Value β) : Grows (EvalM.ofMerge (Value.mux c t e)) :=
  .ofMerge (addsOnly_mux c t e)

theorem grows_select (elems : List (Value β)) (index : List β) :
    Grows (EvalM.ofMerge (Primitive.select elems index)) :=
  .ofMerge (addsOnly_select elems index)

end Merges

namespace Calls.Grow

variable {calls : Calls β}

theorem tabulate (h : calls.Grow) (fn : Value β) (count start : Nat) :
    Grows (Primitive.tabulate calls.apply fn count start) := by
  induction count generalizing start with
  | zero => exact .pure _
  | succ count ih => exact .bind (h.apply _ _) fun _ => .bind (ih _) fun _ => .pure _

theorem applyArgs (h : calls.Grow) (fn : Value β) (args : List (Value β)) :
    Grows (TermGraph.applyArgs calls fn args) := by
  unfold TermGraph.applyArgs
  induction args generalizing fn with
  | nil => exact .pure _
  | cons a args ih =>
      rw [List.foldlM_cons]
      exact .bind (h.apply fn a) fun v => ih v

variable [BitLike β] [DecidableEq β]

theorem run (h : calls.Grow) (op : Builtin) (args : List (Value β)) :
    Grows (Primitive.run calls op args) := by
  cases Primitive.runCases op args with
  | direct x _ run_eq =>
      rw [run_eq]
      exact .ofExcept x
  | ite _ c t e => exact .bind (.ofExcept _) fun c => grows_mux c t e
  | gen n _ fn =>
      refine .bind (.ofExcept _) fun count => ?_
      split
      · exact .bind (h.tabulate fn count 0) fun _ => .pure _
      · exact .fail _
  | index _ _ v i =>
      refine .bind (.ofExcept _) fun elems => .bind (.ofExcept _) fun index => ?_
      cases index with
      | known n =>
          dsimp only
          split
          · exact .pure _
          · exact .fail _
      | symbolic bits => exact grows_select elems bits
  | append => exact .ofExcept _
  | mkStream _ fn =>
      refine .bind (.ofMerge fun heap a heap₁ hrun => ?_) fun _ => .pure _
      cases hrun
      exact heap.adds_alloc _
  | streamGet _ stream index =>
      refine .bind (.ofExcept _) fun id => .bind (.ofExcept _) fun index => ?_
      cases index with
      | known n => exact h.element id n
      | symbolic bits =>
          dsimp only
          split
          · exact .bind (.mapM fun n _ => h.element id n) fun elems => grows_select elems bits
          · exact .fail _

theorem callPrimitive (h : calls.Grow) (prim : Ident)
    (args : List (Value β)) : Grows (TermGraph.callPrimitive calls prim args) := by
  refine .bind .get fun ev => ?_
  split
  · exact .fail _
  · split
    · exact .pure _
    · split
      · exact h.run _ _
      · exact .bind (.modify (fun _ => rfl) fun _ => rfl) fun _ => .ofExcept _

theorem evalGlobal (h : calls.Grow) (ident : Ident) :
    Grows (TermGraph.evalGlobal calls ident) := by
  refine .bind .get fun ev => ?_
  split
  · exact .pure _
  · exact h.callPrimitive _ _

theorem evalConstant (h : calls.Grow) (ident : Ident)
    (body : Option TermId) : Grows (TermGraph.evalConstant calls ident body) := by
  refine .bind .get fun ev => ?_
  split
  · exact .pure _
  · split
    · exact .pure _
    · exact .keep (h.eval _ _) (fun _ _ => rfl) fun _ _ => rfl
  · exact h.evalGlobal _

theorem plainConstant (h : calls.Grow) (ident : Ident)
    (body : Option TermId) : Grows (TermGraph.plainConstant calls ident body) := by
  refine .bind .get fun ev => ?_
  split
  · exact .pure _
  · exact h.eval _ _
  · exact h.evalGlobal _

theorem evalConditional (h : calls.Grow) (env : Env β)
    (ty c t e : TermId) : Grows (TermGraph.evalConditional calls env ty c t e) := by
  refine .bind (h.eval _ _) fun cond => ?_
  split
  · exact h.eval _ _
  · exact .bind (h.evalGlobal _) fun _ => .bind (h.eval _ _) fun _ =>
      .bind (h.eval _ _) fun _ => .bind (h.eval _ _) fun _ => h.applyArgs _ _

theorem evalApp (h : calls.Grow) (s : Store) (id fn arg : TermId)
    (env : Env β) : Grows (TermGraph.evalApp s calls id fn arg env) := by
  have hstrict : Grows (do
      let v ← calls.eval fn env
      let w ← calls.eval arg env
      calls.apply v w) :=
    .bind (h.eval _ _) fun _ => .bind (h.eval _ _) fun _ => h.apply _ _
  unfold TermGraph.evalApp
  split
  · exact hstrict
  · refine .bind .get fun ev => ?_
    split
    · exact hstrict
    · exact h.evalConditional _ _ _ _ _

theorem evalNode (h : calls.Grow) (s : Store) (id : TermId) (env : Env β) :
    Grows (TermGraph.evalNode s calls id env) := by
  unfold TermGraph.evalNode
  cases s.node id with
  | global ident => exact h.evalGlobal ident
  | constant ident ty body => exact h.evalConstant ident body
  | free x ty =>
      refine .bind .get fun ev => ?_
      split
      · exact .pure _
      · exact .fail _
  | bound i =>
      dsimp only
      split
      · exact .pure _
      · exact .fail _
  | app fn arg => exact h.evalApp s id fn arg env
  | pair a b => exact .bind (h.eval _ _) fun _ => .bind (h.eval _ _) fun _ => .pure _
  | pairLeft p | pairRight p | proj r x => exact .bind (h.eval _ _) fun _ => .ofExcept _
  | record fields =>
      exact .bind (.mapM fun p _ => .bind (h.eval _ _) fun _ => .pure _) fun _ => .pure _
  | array elemType elems => exact .bind (.mapM fun p _ => h.eval _ _) fun _ => .pure _
  | ctor ident params args => exact .bind (.mapM fun p _ => h.eval _ _) fun _ => .pure _
  | letIn x ty v body => exact .bind (h.eval _ _) fun _ => h.eval _ _
  | recursor _ _ _ _ _ | fix _ _ _ => exact .fail _
  | _ => exact .pure _

theorem evalStep (h : calls.Grow) (s : Store) (id : TermId) (env : Env β) :
    Grows (TermGraph.evalStep s calls id env) := by
  refine .bind .get fun ev => ?_
  split
  · split
    · exact .pure _
    · exact .keep (h.evalNode s id env) (fun _ _ => rfl) fun _ _ => rfl
  · exact h.evalNode s id env

theorem plainStep (h : calls.Grow) (s : Store) (id : TermId) (env : Env β) :
    Grows (TermGraph.plainStep s calls id env) := by
  unfold TermGraph.plainStep
  split
  · exact h.plainConstant _ _
  · exact h.evalNode s id env

theorem applyStep (h : calls.Grow) (s : Store) (fn arg : Value β) :
    Grows (TermGraph.applyStep s calls fn arg) := by
  cases fn with
  | closure lambda env =>
      unfold TermGraph.applyStep
      dsimp only
      split
      · exact h.eval _ _
      · exact .fail _
  | partialApp prim args => exact h.callPrimitive _ _
  | funMux c t e =>
      exact .bind (h.apply _ _) fun _ => .bind (h.apply _ _) fun _ => grows_mux c _ _
  | type => exact .pure _
  | _ => exact .fail _

theorem sourceElement (h : calls.Grow) (id : StreamId) (n : Nat) :
    Grows (TermGraph.sourceElement calls id n) := by
  refine .bind .get fun ev => ?_
  split
  · exact h.apply _ _
  · exact .bind (h.element _ _) fun _ => .bind (h.element _ _) fun _ => grows_mux _ _ _
  · exact .fail _

/-- The element that is remembered in the end was not remembered at the start, so it replaces
none that was. -/
theorem elementStep (h : calls.Grow) (id : StreamId) (n : Nat) :
    Grows (TermGraph.elementStep calls id n) := by
  intro ev
  rw [elementStep_eq, EvalM.exec_bind_ok (EvalM.exec_get ev)]
  cases hkept : ev.heap.element? id n with
  | some v => exact ⟨rfl, .refl _⟩
  | none =>
      obtain ⟨hsetting, hheap⟩ := h.sourceElement id n ev
      rcases hrun : (TermGraph.sourceElement calls id n).exec ev with ⟨e | v, ev₁⟩ <;>
        rw [hrun] at hsetting hheap
      · dsimp only
        rw [EvalM.exec_bind_error hrun]
        exact ⟨hsetting, hheap⟩
      · dsimp only
        rw [EvalM.exec_bind_ok hrun]
        exact ⟨hsetting, hheap.remember hkept v⟩

end Calls.Grow

/-- Evaluation leaves the setting as it is and loses nothing of the streams, whatever it
keeps. -/
theorem grow_callsBy [BitLike β] [DecidableEq β] (p : Keeps) (s : Store)
    (fuel : Nat) : (Evaluator.callsBy p s fuel : Calls β).Grow := by
  induction fuel with
  | zero => exact ⟨fun _ _ => .throw _, fun _ _ => .throw _, fun _ _ => .throw _⟩
  | succ fuel ih =>
      refine ⟨fun id env => ?_, ih.applyStep s, fun id n => ?_⟩
      · change Grows (if p.nodes then _ else _)
        split
        · exact ih.evalStep s id env
        · exact ih.plainStep s id env
      · change Grows (if p.elements then _ else _)
        split
        · exact ih.elementStep id n
        · exact ih.sourceElement id n

/-! ## Elements stay -/

section Elements

variable [BitLike β] [DecidableEq β] {s : Store} {fuel : Nat} {id : StreamId} {n : Nat}
  {v : Value β} {ev ev' : Evaluator β}

theorem grow_calls (s : Store) (fuel : Nat) : (Evaluator.calls s fuel : Calls β).Grow := by
  rw [← Evaluator.callsBy_everything]
  exact grow_callsBy ⟨true, true⟩ s fuel

/-- An element that has been computed is remembered. -/
theorem element?_of_exec_element
    (hrun : ((Evaluator.calls s fuel).element id n).exec ev = (.ok v, ev')) :
    ev'.heap.element? id n = some v := by
  cases fuel with
  | zero => cases hrun
  | succ fuel =>
      change (elementStep (Evaluator.calls s fuel) id n).exec ev = (.ok v, ev') at hrun
      rw [elementStep_eq, EvalM.exec_bind_ok (EvalM.exec_get ev)] at hrun
      cases hkept : ev.heap.element? id n with
      | some w =>
          rw [hkept] at hrun
          cases hrun
          exact hkept
      | none =>
          rw [hkept] at hrun
          obtain ⟨w, ev₁, hsource, hrun⟩ := EvalM.exec_bind_eq_ok hrun
          cases hrun
          -- A stream whose element has been computed is there, and still is.
          obtain ⟨src, hsrc⟩ : ∃ src, ev.heap.source? id = some src := by
            cases hsrc : ev.heap.source? id with
            | some src => exact ⟨src, rfl⟩
            | none =>
                rw [sourceElement, EvalM.exec_bind_ok (EvalM.exec_get ev), hsrc] at hsource
                cases hsource
          obtain ⟨-, hheap⟩ := (grow_calls s fuel).sourceElement id n ev
          rw [hsource] at hheap
          rw [Heap.element?_remember, if_pos]
          exact ⟨rfl, rfl, by rw [hheap.source id src hsrc]; rfl⟩

/-- An element that is remembered is given at once, whatever calls could be made. -/
theorem exec_elementStep_of_element? (calls : Calls β) (h : ev.heap.element? id n = some v) :
    (elementStep calls id n).exec ev = (.ok v, ev) := by
  rw [elementStep_eq, EvalM.exec_bind_ok (EvalM.exec_get ev), h]
  rfl

theorem exec_element_of_element? (h : ev.heap.element? id n = some v) :
    ((Evaluator.calls s (fuel + 1)).element id n).exec ev = (.ok v, ev) :=
  exec_elementStep_of_element? (Evaluator.calls s fuel) h

/-- An element that is not remembered yet comes from the source, and is remembered. -/
theorem exec_elementStep_of_source {calls : Calls β} {ev₁ : Evaluator β}
    (hnone : ev.heap.element? id n = none)
    (hrun : (sourceElement calls id n).exec ev = (.ok v, ev₁)) :
    (elementStep calls id n).exec ev =
      (.ok v, { ev₁ with heap := ev₁.heap.remember id n v }) := by
  rw [elementStep_eq, EvalM.exec_bind_ok (EvalM.exec_get ev), hnone]
  exact EvalM.exec_bind_ok hrun _

theorem exec_sourceElement_of_generator {calls : Calls β} {fn : Value β}
    (hsource : ev.heap.source? id = some (.generator fn)) :
    (sourceElement calls id n).exec ev = (calls.apply fn (.nat n)).exec ev := by
  rw [sourceElement, EvalM.exec_bind_ok (EvalM.exec_get ev), hsource]

theorem exec_sourceElement_of_mux {calls : Calls β} {ev₁ ev₂ : Evaluator β} {c : β} {a b : StreamId}
    (hsource : ev.heap.source? id = some (.mux c a b)) {t e : Value β}
    (ht : (calls.element a n).exec ev = (.ok t, ev₁))
    (he : (calls.element b n).exec ev₁ = (.ok e, ev₂)) :
    (sourceElement calls id n).exec ev = (EvalM.ofMerge (Value.mux c t e)).exec ev₂ := by
  rw [sourceElement, EvalM.exec_bind_ok (EvalM.exec_get ev), hsource]
  dsimp only
  rw [EvalM.exec_bind_ok ht, EvalM.exec_bind_ok he]

end Elements

end TermGraph
