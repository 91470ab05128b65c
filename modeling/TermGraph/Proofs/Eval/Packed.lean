import Mathlib
import TermGraph.Proofs.Eval.BitBlast
import TermGraph.Proofs.Eval.InForce
import TermGraph.Proofs.Eval.WordLiterals
import TermGraph.Proofs.Value.Packed
import TermGraph.Proofs.Value.Shape

/-!
# Evaluation keeps bits in words

Vectors come about in many places: array literals, tabulated functions, concatenations,
merges, zero values, inputs.  Some of these put the bits of a vector of booleans into a word,
and the others make such a vector only from one.  So an evaluator that is given packed values
only returns packed values only.
-/

namespace TermGraph

variable {β : Type}

/-- An evaluator with the primitives of the Prelude in which all values are packed. -/
structure Evaluator.Packed (ev : Evaluator β) : Prop where
  primitives : ev.primitives = Evaluator.defaultPrimitives
  overrides : ∀ (ident : Ident) v, ev.overrides[ident]? = some v → v.Packed
  freeValues : ∀ (id : TermId) v, ev.freeValues[id]? = some v → v.Packed
  memo : ∀ (id : TermId) v, ev.memo[id]? = some v → v.Packed
  constants : ∀ (body : TermId) v, ev.constants[body]? = some v → v.Packed
  heap : ev.heap.Packed

/-! ## Computations -/

namespace EvalM

variable {α γ : Type}

/-- From a packed evaluator a computation gives what it should if it gives anything, and the
evaluator stays packed. -/
def Yields (P : α → Prop) (m : EvalM β α) : Prop :=
  ∀ ev, ev.Packed → (∀ a, (m.exec ev).1 = .ok a → P a) ∧ (m.exec ev).2.Packed

namespace Yields

variable {P : α → Prop} {Q : γ → Prop} {m : EvalM β α} {f : α → EvalM β γ}

theorem pure {a : α} (ha : P a) : Yields P (Pure.pure a : EvalM β α) := by
  refine fun ev hev => ⟨?_, hev⟩
  rintro _ ⟨⟩
  exact ha

theorem throw (e : Stop) : Yields P (MonadExcept.throw e : EvalM β α) :=
  fun _ hev => ⟨nofun, hev⟩

theorem fail (e : EvalError) : Yields P (EvalM.fail e : EvalM β α) :=
  .throw _

theorem get : Yields Evaluator.Packed (getThe (Evaluator β) : EvalM β _) := by
  refine fun ev hev => ⟨?_, hev⟩
  rintro _ ⟨⟩
  exact hev

theorem modify {g : Evaluator β → Evaluator β} (hg : ∀ ev, ev.Packed → (g ev).Packed) :
    Yields (fun _ => True) (modifyThe (Evaluator β) g : EvalM β _) :=
  fun ev hev => ⟨fun _ _ => trivial, hg ev hev⟩

theorem bind (hm : Yields P m) (hf : ∀ a, P a → Yields Q (f a)) : Yields Q (m >>= f) := by
  intro ev hev
  obtain ⟨ha, hev₁⟩ := hm ev hev
  rcases hrun : m.exec ev with ⟨e | a, ev₁⟩ <;> rw [hrun] at ha hev₁
  · rw [exec_bind_error hrun]
    exact ⟨nofun, hev₁⟩
  · rw [exec_bind_ok hrun]
    exact hf a (ha a rfl) ev₁ hev₁

theorem ofExcept {x : Except EvalError α} (h : ∀ a, x = .ok a → P a) :
    Yields P (EvalM.ofExcept x : EvalM β α) := by
  cases x with
  | error e => exact .fail e
  | ok a => exact .pure (h a rfl)

theorem ofMerge {m : Merge β α} (h : m.Yields P) : Yields P (EvalM.ofMerge m) := by
  intro ev hev
  rw [exec_ofMerge]
  cases hrun : m.run ev.heap with
  | error e => exact ⟨nofun, hev⟩
  | ok r =>
      obtain ⟨ha, hheap⟩ := h ev.heap r.1 r.2 hev.heap hrun
      refine ⟨?_, { hev with heap := hheap }⟩
      rintro _ ⟨⟩
      exact ha

theorem mapM {as : List α} (h : ∀ a ∈ as, Yields Q (f a)) :
    Yields (fun bs => ∀ b ∈ bs, Q b) (as.mapM f) := by
  induction as with
  | nil => exact .pure (List.forall_mem_nil _)
  | cons a as ih =>
      obtain ⟨ha, has⟩ := List.forall_mem_cons.mp h
      rw [List.mapM_cons]
      exact .bind ha fun _ hb => .bind (ih has) fun _ hbs =>
        .pure (List.forall_mem_cons.mpr ⟨hb, hbs⟩)

/-- A result that is kept is given as well. -/
theorem keep {g : α → Evaluator β → Evaluator β} (hm : Yields P m)
    (hg : ∀ a ev, P a → ev.Packed → (g a ev).Packed) :
    Yields P (do let a ← m; modifyThe (Evaluator β) (g a); return a) :=
  .bind hm fun a ha => .bind (.modify fun ev => hg a ev ha) fun _ _ => .pure ha

/-- What a computation that succeeds has given. -/
theorem of_exec (hm : Yields P m) {ev ev' : Evaluator β} (hev : ev.Packed) {a : α}
    (hrun : m.exec ev = (.ok a, ev')) : P a := by
  refine (hm ev hev).1 a ?_
  rw [hrun]

theorem packed_exec (hm : Yields P m) {ev : Evaluator β} (hev : ev.Packed) :
    (m.exec ev).2.Packed :=
  (hm ev hev).2

end Yields

end EvalM

open EvalM (Yields)

/-- All calls with packed values give packed values. -/
structure Calls.Packed (calls : Calls β) : Prop where
  eval : ∀ {id env}, (∀ v ∈ env, v.Packed) → Yields Value.Packed (calls.eval id env)
  apply : ∀ {fn arg}, fn.Packed → arg.Packed → Yields Value.Packed (calls.apply fn arg)
  element : ∀ id n, Yields Value.Packed (calls.element id n)

/-! ## Primitives -/

namespace Primitive

section Merges

variable [BitLike β] [DecidableEq β]

/-- A selection among packed values is packed; where the index can point past the end, it is
the zero value of one of them. -/
theorem yields_select {elems : List (Value β)} (h : ∀ a ∈ elems, a.Packed) (index : List β) :
    Merge.Yields Value.Packed (select elems index) := by
  unfold select
  extract_lets reachable covered chain
  have hreach : ∀ a ∈ reachable, a.Packed := by
    intro a ha
    unfold reachable at ha
    split at ha
    · exact h a (List.mem_of_mem_take ha)
    · exact h a ha
  have hchain (p : List (Value β) × Value β) (hp : (∀ a ∈ p.1, a.Packed) ∧ p.2.Packed) :
      Merge.Yields Value.Packed (chain p) :=
    .foldrM (fun q hq _ hrest =>
      Value.yields_mux _ (hp.1 q.1 (List.fst_mem_of_mem_zipIdx hq)) hrest) hp.2
  split
  · next last _ hlast =>
      exact .bind (.pure ⟨fun a ha => hreach a (List.mem_of_mem_dropLast ha),
        hreach last (List.mem_of_getLast? hlast)⟩) hchain
  · next first hfirst _ =>
      have hpacked := hreach first (List.mem_of_mem_head? hfirst)
      refine .bind (P := Value.Packed) ?_ fun zero hzero => .bind (.pure ⟨hreach, hzero⟩) hchain
      cases hdefault : first.defaultLike with
      | error e => exact .throw e
      | ok zero => exact .pure (Value.packedLike_of_defaultLike first zero hdefault hpacked).packed
  · exact .bind (P := fun _ => False) (.throw _) nofun

end Merges

theorem yields_of_givesAtom {x : Except EvalError (Value β)} (h : GivesAtom x) :
    Yields Value.Packed (EvalM.ofExcept x : EvalM β (Value β)) :=
  .ofExcept fun v hv => .of_isAtom (h v hv)

theorem packed_of_elemsArg {op : String} {v : Value β} {as : List (Value β)} (hv : v.Packed)
    (h : elemsArg op v = .ok as) : ∀ a ∈ as, a.Packed := by
  rw [elemsArg] at h
  split at h
  · next elems helems =>
      cases h
      exact hv.elems? helems
  · cases h

theorem packed_of_append {xs ys v : Value β} (hx : xs.Packed) (hy : ys.Packed)
    (h : append xs ys = .ok v) : v.Packed := by
  unfold append at h
  split at h
  · cases h
    exact .of_isAtom rfl
  · obtain ⟨as, has, h⟩ := exists_of_bind_eq_ok h
    obtain ⟨bs, hbs, h⟩ := exists_of_bind_eq_ok h
    cases h
    refine Value.packed_ofElems fun a ha => ?_
    rcases List.mem_append.mp ha with ha | ha
    · exact packed_of_elemsArg hx has a ha
    · exact packed_of_elemsArg hy hbs a ha

end Primitive

namespace Calls.Packed

variable {calls : Calls β}

theorem tabulate (h : calls.Packed) {fn : Value β} (hfn : fn.Packed) (count start : Nat) :
    Yields (fun vs => ∀ v ∈ vs, v.Packed) (Primitive.tabulate calls.apply fn count start) := by
  induction count generalizing start with
  | zero => exact .pure (List.forall_mem_nil _)
  | succ count ih =>
      exact .bind (h.apply hfn (.of_isAtom rfl)) fun _ hv => .bind (ih _) fun _ hvs =>
        .pure (List.forall_mem_cons.mpr ⟨hv, hvs⟩)

theorem applyArgs (h : calls.Packed) {fn : Value β} (hfn : fn.Packed) {args : List (Value β)}
    (hargs : ∀ a ∈ args, a.Packed) : Yields Value.Packed (TermGraph.applyArgs calls fn args) := by
  unfold TermGraph.applyArgs
  induction args generalizing fn with
  | nil => exact .pure hfn
  | cons a args ih =>
      obtain ⟨ha, hargs⟩ := List.forall_mem_cons.mp hargs
      rw [List.foldlM_cons]
      exact .bind (h.apply hfn ha) fun _ hv => ih hv hargs

variable [BitLike β]

theorem gen (h : calls.Packed) {n fn : Value β} (hfn : fn.Packed) :
    Yields Value.Packed (Primitive.gen calls n fn) := by
  refine .bind (.ofExcept fun _ _ => trivial) fun count _ => ?_
  split
  · exact .bind (h.tabulate hfn count 0) fun _ hvs => .pure (Value.packed_ofElems hvs)
  · exact .fail _

variable [DecidableEq β]

theorem elementAt {v i : Value β} (hv : v.Packed) :
    Yields Value.Packed (Primitive.elementAt v i) := by
  refine .bind (.ofExcept fun as => Primitive.packed_of_elemsArg hv) fun elems helems =>
    .bind (.ofExcept fun _ _ => trivial) fun index _ => ?_
  cases index with
  | known n =>
      dsimp only
      split
      · next w hw => exact .pure (helems w (List.mem_of_getElem? hw))
      · exact .fail _
  | symbolic bits => exact .ofMerge (Primitive.yields_select helems bits)

theorem streamGet (h : calls.Packed) (stream index : Value β) :
    Yields Value.Packed (Primitive.streamGet calls stream index) := by
  refine .bind (.ofExcept fun _ _ => trivial) fun id _ =>
    .bind (.ofExcept fun _ _ => trivial) fun index _ => ?_
  cases index with
  | known n => exact h.element id n
  | symbolic bits =>
      dsimp only
      split
      · exact .bind (.mapM fun n _ => h.element id n) fun elems helems =>
          .ofMerge (Primitive.yields_select helems bits)
      · exact .fail _

open Primitive in
theorem run (h : calls.Packed) (op : Builtin) {args : List (Value β)}
    (hargs : ∀ a ∈ args, a.Packed) : Yields Value.Packed (Primitive.run calls op args) := by
  cases runCases op args with
  | direct x atom run_eq =>
      rw [run_eq]
      exact yields_of_givesAtom atom
  | ite _ c t e =>
      exact .bind (.ofExcept fun _ _ => trivial) fun c _ =>
        .ofMerge (Value.yields_mux c (hargs t (by simp)) (hargs e (by simp)))
  | gen n _ fn => exact h.gen (hargs fn (by simp))
  | index _ _ v i => exact elementAt (hargs v (by simp))
  | append _ _ _ xs ys =>
      exact .ofExcept fun _ => packed_of_append (hargs xs (by simp)) (hargs ys (by simp))
  | mkStream _ fn =>
      exact .bind (.ofMerge (.alloc (hargs fn (by simp)))) fun id _ =>
        .pure (Value.packed_stream id)
  | streamGet _ stream index => exact h.streamGet stream index

theorem callPrimitive (h : calls.Packed) (prim : Ident) {args : List (Value β)}
    (hargs : ∀ a ∈ args, a.Packed) :
    Yields Value.Packed (TermGraph.callPrimitive calls prim args) := by
  refine .bind .get fun ev hev => ?_
  split
  · exact .fail _
  · next p hp =>
      split
      · exact .pure (Value.packed_partialApp.mpr hargs)
      · rw [hev.primitives] at hp
        obtain ⟨op, hop⟩ := builtin_of_defaultPrimitives prim p hp
        rw [hop]
        exact h.run op hargs

theorem evalGlobal (h : calls.Packed) (ident : Ident) :
    Yields Value.Packed (TermGraph.evalGlobal calls ident) := by
  refine .bind .get fun ev hev => ?_
  split
  · next v hv => exact .pure (hev.overrides ident v hv)
  · exact h.callPrimitive ident (List.forall_mem_nil _)

end Calls.Packed

/-- Inserting a packed value keeps all values of a map packed. -/
theorem packed_of_insert {κ : Type} [BEq κ] [Hashable κ] [LawfulBEq κ] [LawfulHashable κ]
    {m : Std.HashMap κ (Value β)} (h : ∀ (k : κ) v, m[k]? = some v → v.Packed) (k : κ)
    {v : Value β} (hv : v.Packed) : ∀ (k' : κ) v', (m.insert k v)[k']? = some v' → v'.Packed := by
  intro k' v' hv'
  rw [Std.HashMap.getElem?_insert] at hv'
  split at hv'
  · cases hv'
    exact hv
  · exact h k' v' hv'

namespace Calls.Packed

variable {calls : Calls β} [BitLike β] [DecidableEq β] {s : Store} {env : Env β}

theorem evalConstant (h : calls.Packed) (ident : Ident) (body : Option TermId) :
    Yields Value.Packed (TermGraph.evalConstant calls ident body) := by
  refine .bind .get fun ev hev => ?_
  split
  · next v hv => exact .pure (hev.overrides ident v hv)
  · next body _ =>
      split
      · next v hv => exact .pure (hev.constants body v hv)
      · exact .keep (h.eval (List.forall_mem_nil _)) fun v ev hv hev =>
          { hev with constants := packed_of_insert hev.constants body hv }
  · exact h.evalGlobal ident

theorem evalConditional (h : calls.Packed) (henv : ∀ v ∈ env, v.Packed) (ty c t e : TermId) :
    Yields Value.Packed (TermGraph.evalConditional calls env ty c t e) := by
  refine .bind (h.eval henv) fun cond hcond => ?_
  split
  · exact h.eval henv
  · exact .bind (h.evalGlobal _) fun fn hfn => .bind (h.eval henv) fun ty hty =>
      .bind (h.eval henv) fun t ht => .bind (h.eval henv) fun e he =>
        h.applyArgs hfn (by simp [hty, hcond, ht, he])

theorem evalApp (h : calls.Packed) (henv : ∀ v ∈ env, v.Packed) (id fn arg : TermId) :
    Yields Value.Packed (TermGraph.evalApp s calls id fn arg env) := by
  have hstrict : Yields Value.Packed (do
      let v ← calls.eval fn env
      let w ← calls.eval arg env
      calls.apply v w) :=
    .bind (h.eval henv) fun _ hv => .bind (h.eval henv) fun _ hw => h.apply hv hw
  unfold TermGraph.evalApp
  split
  · exact hstrict
  · refine .bind .get fun ev _ => ?_
    split
    · exact hstrict
    · exact h.evalConditional henv _ _ _ _

omit [BitLike β] [DecidableEq β] in
theorem packed_of_evalProjection {op : String} {part : Value β × Value β → Value β} {v w : Value β}
    (hpart : ∀ a b : Value β, a.Packed → b.Packed → (part (a, b)).Packed) (hv : v.Packed)
    (h : evalProjection op part v = .ok w) : w.Packed := by
  unfold evalProjection at h
  split at h
  · cases h
    obtain ⟨ha, hb⟩ := Value.packed_pair.mp hv
    exact hpart _ _ ha hb
  · cases h

omit [BitLike β] [DecidableEq β] in
theorem packed_of_evalField {field : String} {v w : Value β} (hv : v.Packed)
    (h : evalField field v = .ok w) : w.Packed := by
  unfold evalField at h
  split at h
  · split at h
    · next fields _ p hp =>
        cases h
        exact Value.packed_record.mp hv p (List.mem_of_find?_eq_some hp)
    · cases h
  · cases h

omit [BitLike β] [DecidableEq β] in
theorem packed_arrayValue (s : Store) (elemType : TermId) {vs : List (Value β)}
    (hvs : ∀ v ∈ vs, v.Packed) : (arrayValue s elemType vs).Packed := by
  unfold arrayValue
  split
  · exact .of_isAtom rfl
  · exact Value.packed_ofElems hvs

theorem evalNode (h : calls.Packed) (id : TermId) (henv : ∀ v ∈ env, v.Packed) :
    Yields Value.Packed (TermGraph.evalNode s calls id env) := by
  have hall (ids : List TermId) :
      Yields (fun vs => ∀ v ∈ vs, v.Packed) (ids.mapM fun c => calls.eval c env) :=
    .mapM fun c _ => h.eval henv
  unfold TermGraph.evalNode
  cases s.node id with
  | global ident => exact h.evalGlobal ident
  | constant ident ty body => exact h.evalConstant ident body
  | free x ty =>
      refine .bind .get fun ev hev => ?_
      split
      · next v hv => exact .pure (hev.freeValues id v hv)
      · exact .fail _
  | bound i =>
      dsimp only
      split
      · next v hv => exact .pure (henv v (List.mem_of_getElem? hv))
      · exact .fail _
  | app fn arg => exact h.evalApp henv id fn arg
  | pair a b =>
      exact .bind (h.eval henv) fun _ hv => .bind (h.eval henv) fun _ hw =>
        .pure (Value.packed_pair.mpr ⟨hv, hw⟩)
  | pairLeft p =>
      exact .bind (h.eval henv) fun _ hv => .ofExcept fun _ =>
        packed_of_evalProjection (fun _ _ ha _ => ha) hv
  | pairRight p =>
      exact .bind (h.eval henv) fun _ hv => .ofExcept fun _ =>
        packed_of_evalProjection (fun _ _ _ hb => hb) hv
  | proj r x => exact .bind (h.eval henv) fun _ hv => .ofExcept fun _ => packed_of_evalField hv
  | record fields =>
      exact .bind (.mapM (Q := fun f => f.2.Packed) fun p _ => .bind (h.eval henv) fun _ hv =>
        .pure hv) fun _ hfs => .pure (Value.packed_ofFields hfs)
  | array elemType elems =>
      exact .bind (hall elems) fun _ hvs => .pure (packed_arrayValue s elemType hvs)
  | ctor ident params args =>
      exact .bind (hall args) fun _ hvs => .pure (Value.packed_ctor.mpr hvs)
  | lam x ty body => exact .pure (Value.packed_closure.mpr henv)
  | letIn x ty v body =>
      exact .bind (h.eval henv) fun _ hv => h.eval (List.forall_mem_cons.mpr ⟨hv, henv⟩)
  | recursor _ _ _ _ _ | fix _ _ _ => exact .fail _
  | _ => exact .pure (.of_isAtom rfl)

theorem evalStep (h : calls.Packed) (id : TermId) (henv : ∀ v ∈ env, v.Packed) :
    Yields Value.Packed (TermGraph.evalStep s calls id env) := by
  refine .bind .get fun ev hev => ?_
  split
  · split
    · next v hv => exact .pure (hev.memo id v hv)
    · exact .keep (h.evalNode id henv) fun v ev hv hev =>
        { hev with memo := packed_of_insert hev.memo id hv }
  · exact h.evalNode id henv

theorem applyStep (h : calls.Packed) {fn arg : Value β} (hfn : fn.Packed) (harg : arg.Packed) :
    Yields Value.Packed (TermGraph.applyStep s calls fn arg) := by
  cases fn with
  | closure lambda env =>
      unfold TermGraph.applyStep
      dsimp only
      split
      · exact h.eval (List.forall_mem_cons.mpr ⟨harg, Value.packed_closure.mp hfn⟩)
      · exact .fail _
  | partialApp prim args =>
      refine h.callPrimitive prim fun a ha => ?_
      rcases List.mem_append.mp ha with ha | ha
      · exact Value.packed_partialApp.mp hfn a ha
      · exact (List.mem_singleton.mp ha).symm ▸ harg
  | funMux c t e =>
      obtain ⟨ht, he⟩ := Value.packed_funMux.mp hfn
      exact .bind (h.apply ht harg) fun _ hv => .bind (h.apply he harg) fun _ hw =>
        .ofMerge (Value.yields_mux c hv hw)
  | type => exact .pure (.of_isAtom rfl)
  | _ => exact .fail _

theorem sourceElement (h : calls.Packed) (id : StreamId) (n : Nat) :
    Yields Value.Packed (TermGraph.sourceElement calls id n) := by
  refine .bind .get fun ev hev => ?_
  split
  · next fn hsrc => exact h.apply (hev.heap.source id _ hsrc) (.of_isAtom rfl)
  · exact .bind (h.element _ _) fun _ hv => .bind (h.element _ _) fun _ hw =>
      .ofMerge (Value.yields_mux _ hv hw)
  · exact .fail _

theorem elementStep (h : calls.Packed) (id : StreamId) (n : Nat) :
    Yields Value.Packed (TermGraph.elementStep calls id n) := by
  rw [elementStep_eq]
  refine .bind .get fun ev hev => ?_
  split
  · next v hv => exact .pure (hev.heap.element id n v hv)
  · exact .keep (h.sourceElement id n) fun v ev hv hev =>
      { hev with heap := hev.heap.remember id n hv }

end Calls.Packed

/-! ## Inputs -/

section Inputs

variable [BitLike β]

/-- Only a boolean is made for the shape of booleans. -/
theorem Fresh.eq_bool_of_isBool {shape : Shape} {i j : Nat} {v : Value β}
    (hrun : (value shape).run i = .ok (v, j)) (hv : v.isBool = true) : shape = .bool := by
  cases shape with
  | bool => rfl
  | pair a b =>
      rw [value] at hrun
      obtain ⟨v₁, i₁, -, hrun⟩ := Value.run_bind_eq_ok hrun
      obtain ⟨v₂, i₂, -, hlast⟩ := Value.run_bind_eq_ok hrun
      cases hlast
      cases hv
  | unit =>
      rw [value] at hrun
      cases hrun
      cases hv
  | _ =>
      rw [value] at hrun
      obtain ⟨x, i₁, -, hlast⟩ := Value.run_bind_eq_ok hrun
      cases hlast
      cases hv

theorem Fresh.packed_valueFields {fields : List (String × Shape)}
    (h : ∀ f ∈ fields, ∀ {i j} {v : Value β}, (value f.2).run i = .ok (v, j) → v.Packed)
    {i j : Nat} {fs : List (String × Value β)} (hrun : (valueFields fields).run i = .ok (fs, j)) :
    ∀ f ∈ fs, f.2.Packed := by
  induction fields generalizing i fs with
  | nil =>
      rw [valueFields] at hrun
      cases hrun
      exact List.forall_mem_nil _
  | cons f fields ih =>
      obtain ⟨x, shape⟩ := f
      obtain ⟨hf, hfields⟩ := List.forall_mem_cons.mp h
      rw [valueFields] at hrun
      obtain ⟨v, i₁, hv, hrun⟩ := Value.run_bind_eq_ok hrun
      obtain ⟨gs, i₂, hgs, hlast⟩ := Value.run_bind_eq_ok hrun
      cases hlast
      exact List.forall_mem_cons.mpr ⟨hf hv, ih hfields hgs⟩

/-- What inputs make of the shape of a type is packed: a vector of booleans has the shape of
a word. -/
theorem Fresh.packed_value (s : Store) (type : TermId) : ∀ shape, Shape.ofType s type = .ok shape →
    ∀ {i j} {v : Value β}, (value shape).run i = .ok (v, j) → v.Packed := by
  refine Shape.of_ofType ?bool ?word ?vector ?pair ?record ?unit s type
  case bool | word =>
    intros
    rename_i hrun
    rw [value] at hrun
    obtain ⟨x, i₁, -, hlast⟩ := Value.run_bind_eq_ok hrun
    cases hlast
    exact .of_isAtom rfl
  case vector =>
    intro n elem hne ih i j v hrun
    rw [value] at hrun
    obtain ⟨elems, i₁, helems, hlast⟩ := Value.run_bind_eq_ok hrun
    cases hlast
    refine Value.packed_vector.mpr ⟨?_, of_times (fun _ _ _ => ih) n helems⟩
    have hbool := of_times (P := fun v => ¬v.isBool = true)
      (fun _ _ _ hv hbool => hne (eq_bool_of_isBool hv hbool)) n helems
    rw [← Bool.not_eq_true, Value.isBitVector_vector]
    rintro ⟨helems, hall⟩
    obtain ⟨a, rest, rfl⟩ := List.exists_cons_of_ne_nil helems
    exact hbool a List.mem_cons_self (hall a List.mem_cons_self)
  case pair =>
    intro a b iha ihb i j v hrun
    rw [value] at hrun
    obtain ⟨v₁, i₁, hv₁, hrun⟩ := Value.run_bind_eq_ok hrun
    obtain ⟨v₂, i₂, hv₂, hlast⟩ := Value.run_bind_eq_ok hrun
    cases hlast
    exact Value.packed_pair.mpr ⟨iha hv₁, ihb hv₂⟩
  case record =>
    intro fields _ ih i j v hrun
    rw [value] at hrun
    obtain ⟨fs, i₁, hfs, hlast⟩ := Value.run_bind_eq_ok hrun
    cases hlast
    exact Value.packed_record.mpr (packed_valueFields ih hfs)
  case unit =>
    intro i j v hrun
    rw [value] at hrun
    cases hrun
    exact .of_isAtom rfl

end Inputs

namespace Evaluator

theorem Packed.new : (new : Evaluator β).Packed where
  primitives := rfl
  overrides _ _ h := by simp [Evaluator.new] at h
  freeValues _ _ h := by simp [Evaluator.new] at h
  memo _ _ h := by simp [Evaluator.new] at h
  constants _ _ h := by simp [Evaluator.new] at h
  heap := .empty

variable {ev : Evaluator β} {v : Value β}

theorem Packed.addOverride (h : ev.Packed) (ident : Ident) (hv : v.Packed) :
    (ev.addOverride ident v).Packed :=
  { h with overrides := packed_of_insert h.overrides ident hv }

theorem Packed.bindVariable (h : ev.Packed) (id : TermId) (hv : v.Packed) :
    (ev.bindVariable id v).Packed :=
  { h with
    freeValues := packed_of_insert h.freeValues id hv
    constants := fun _ _ hnone => by simp [Evaluator.bindVariable] at hnone }

theorem Packed.startPass (h : ev.Packed) (shared : List TermId) : (ev.startPass shared).Packed :=
  { h with memo := fun _ _ hnone => by simp [Evaluator.startPass] at hnone }

variable [BitLike β] [DecidableEq β]

/-- However much fuel is left, calls with packed values give packed values. -/
theorem packed_calls (s : Store) (fuel : Nat) : (calls s fuel : Calls β).Packed := by
  induction fuel with
  | zero => exact ⟨fun _ => .throw _, fun _ _ => .throw _, fun _ _ => .throw _⟩
  | succ fuel ih =>
      exact ⟨fun henv => ih.evalStep _ henv, fun hfn harg => ih.applyStep hfn harg, ih.elementStep⟩

theorem yields_evaluate (s : Store) (fuel : Nat) (root : TermId) :
    Yields Value.Packed (evaluate s fuel root : EvalM β (Value β)) :=
  .bind (.modify fun _ hev => hev.startPass _) fun _ _ =>
    (packed_calls s fuel).eval (List.forall_mem_nil _)

omit [DecidableEq β] in
theorem yields_bindInputs (s : Store) (ids : List TermId) (next : Nat) :
    Yields (fun inputs => ∀ p ∈ inputs, p.2.Packed)
      (bindInputs s ids next : EvalM β (List (String × Value β))) := by
  induction ids generalizing next with
  | nil => exact .pure (List.forall_mem_nil _)
  | cons id ids ih =>
      rw [bindInputs]
      have hinput (r : (String × Value β) × Nat)
          (hrun : (BitBlast.variableInput s id).run next = .ok r) : r.1.2.Packed :=
        BitBlast.of_variableInput (P := Value.Packed) (fun h => Fresh.packed_value s _ _ h) hrun
      refine .bind (.ofExcept hinput) fun r hr => ?_
      exact .bind (.modify fun _ hev => hev.bindVariable id hr) fun _ _ =>
        .bind (ih _) fun _ hrest => .pure (List.forall_mem_cons.mpr ⟨hr, hrest⟩)

/-- Bit-blasting makes packed inputs, and its output is packed. -/
theorem yields_bitBlast (s : Store) (fuel : Nat) (term type : TermId) :
    Yields (fun r => r.output.Packed ∧ ∀ p ∈ r.inputs, p.2.Packed)
      (bitBlast s fuel term type : EvalM β (BitBlast β)) := by
  have hargs (r : List (String × Value β) × Nat)
      (hrun : (BitBlast.argumentInputs s (s.piChain type).1).run 0 = .ok r) :
      ∀ p ∈ r.1, p.2.Packed :=
    (BitBlast.of_argumentInputs (P := Value.Packed) (fun h => Fresh.packed_value s _ _ h) hrun).2
  refine .bind (.ofExcept hargs) fun r hr => .bind (yields_bindInputs s _ _) fun free hfree =>
    .bind (yields_evaluate s fuel term) fun fn hfn => ?_
  refine .bind ((packed_calls s fuel).applyArgs hfn (List.forall_mem_map.mpr hr))
    fun output houtput => .pure ⟨houtput, fun p hp => ?_⟩
  exact (List.mem_append.mp hp).elim (hr p) (hfree p)

/-- Evaluators with the primitives of the Prelude that have been given packed values only,
whatever they have computed. -/
inductive Supplied : Evaluator β → Prop where
  | new : Supplied new
  | addOverride {ev : Evaluator β} (h : Supplied ev) (ident : Ident) {v : Value β}
      (hv : v.Packed) : Supplied (ev.addOverride ident v)
  | bindVariable {ev : Evaluator β} (h : Supplied ev) (id : TermId) {v : Value β}
      (hv : v.Packed) : Supplied (ev.bindVariable id v)
  | stream {ev : Evaluator β} (h : Supplied ev) {fn : Value β} (hfn : fn.Packed) :
      Supplied { ev with heap := (ev.heap.alloc (.generator fn)).2 }
  | evaluate {ev : Evaluator β} (h : Supplied ev) (s : Store) (fuel : Nat) (root : TermId) :
      Supplied ((evaluate s fuel root).exec ev).2
  | apply {ev : Evaluator β} (h : Supplied ev) (s : Store) (fuel : Nat) {fn arg : Value β}
      (hfn : fn.Packed) (harg : arg.Packed) : Supplied ((apply s fuel fn arg).exec ev).2
  | element {ev : Evaluator β} (h : Supplied ev) (s : Store) (fuel : Nat) (id : StreamId)
      (n : Nat) : Supplied ((element s fuel id n).exec ev).2
  | mux {ev : Evaluator β} (h : Supplied ev) (c : β) {t e : Value β} (ht : t.Packed)
      (he : e.Packed) : Supplied ((EvalM.ofMerge (Value.mux c t e)).exec ev).2
  | bitBlast {ev : Evaluator β} (h : Supplied ev) (s : Store) (fuel : Nat) (term type : TermId) :
      Supplied ((bitBlast s fuel term type).exec ev).2

/-- All values in such an evaluator are packed. -/
theorem Supplied.packed (h : ev.Supplied) : ev.Packed := by
  induction h with
  | new => exact .new
  | addOverride _ ident hv ih => exact ih.addOverride ident hv
  | bindVariable _ id hv ih => exact ih.bindVariable id hv
  | stream _ hfn ih => exact { ih with heap := ih.heap.alloc hfn }
  | evaluate _ s fuel root ih => exact (yields_evaluate s fuel root).packed_exec ih
  | apply _ s fuel hfn harg ih => exact ((packed_calls s fuel).apply hfn harg).packed_exec ih
  | element _ s fuel id n ih => exact ((packed_calls s fuel).element id n).packed_exec ih
  | mux _ c ht he ih => exact (Yields.ofMerge (Value.yields_mux c ht he)).packed_exec ih
  | bitBlast _ s fuel term type ih => exact (yields_bitBlast s fuel term type).packed_exec ih

end Evaluator

/-! ## What is returned -/

section Returned

variable [BitLike β] [DecidableEq β]

open Evaluator in
/-- Vectors of booleans are words.  An evaluator that has been given packed values only
returns packed values only: the values of terms, the results of packed functions on packed
arguments, the elements of streams, the merges of packed values, and the inputs and outputs
of bit-blasting.  So values whose elements are booleans, at least one, have one form. -/
theorem bit_vectors_are_words {ev : Evaluator β} (h : ev.Supplied) (s : Store) (fuel : Nat) :
    (∀ root v ev', (evaluate s fuel root).exec ev = (.ok v, ev') → v.Packed) ∧
      (∀ fn arg v ev', fn.Packed → arg.Packed →
        (apply s fuel fn arg).exec ev = (.ok v, ev') → v.Packed) ∧
      (∀ c t e v ev', t.Packed → e.Packed →
        (EvalM.ofMerge (Value.mux c t e)).exec ev = (.ok v, ev') → v.Packed) ∧
      (∀ id n v ev', (element s fuel id n).exec ev = (.ok v, ev') → v.Packed) ∧
      (∀ term type r ev', (bitBlast s fuel term type).exec ev = (.ok r, ev') →
        r.output.Packed ∧ ∀ p ∈ r.inputs, p.2.Packed) ∧
      ∀ (v : Value β) bits, v.Packed → bits ≠ [] → v.elems? = some (bits.map .bool) →
        v = .word bits := by
  have hev := h.packed
  have hcalls := packed_calls (β := β) s fuel
  refine ⟨?evaluate, ?apply, ?mux, ?element, ?bitBlast, ?word⟩
  case evaluate => exact fun root v ev' => (yields_evaluate s fuel root).of_exec hev
  case apply => exact fun fn arg v ev' hfn harg => (hcalls.apply hfn harg).of_exec hev
  case mux =>
    exact fun c t e v ev' ht he => (Yields.ofMerge (Value.yields_mux c ht he)).of_exec hev
  case element => exact fun id n v ev' => (hcalls.element id n).of_exec hev
  case bitBlast => exact fun term type r ev' => (yields_bitBlast s fuel term type).of_exec hev
  case word => exact fun v bits hv hne hbits => hv.eq_word hne hbits

end Returned

/-- An array of boolean literals. -/
def literalStore : Store :=
  Store.ofNodes [.global (.prelude "Bool"), .bool false, .bool true, .array 0 [1, 2]]

/-- Two vectors of words are merged under an open bit, and an array of boolean literals is
evaluated. -/
theorem bit_vectors_are_words_merged :
    let ev := (Evaluator.new : Evaluator Anf).addOverride (.prelude "w") (.word [.var 0])
    let t : Value Anf := .vector [.word [.var 1], .word [.one]]
    let e : Value Anf := .vector [.word [.var 2], .word [.one]]
    ev.Supplied ∧ t.Packed ∧ e.Packed ∧
      (∃ v ev', (EvalM.ofMerge (Value.mux (.var 0) t e)).exec ev = (.ok v, ev') ∧ v.Packed) ∧
      ∃ ev', (Evaluator.evaluate literalStore 2 3).exec ev = (.ok (.word [.zero, .one]), ev') ∧
        (Value.word [Anf.zero, Anf.one]).Packed := by
  intro ev t e
  have hev : ev.Supplied := Evaluator.Supplied.new.addOverride (.prelude "w") (.of_isAtom rfl)
  have hwords (a b : Anf) : (Value.vector [.word [a], .word [b]]).Packed := by
    refine Value.packed_vector.mpr ⟨rfl, ?_⟩
    simp only [List.mem_cons, List.not_mem_nil, or_false, forall_eq_or_imp, forall_eq]
    exact ⟨.of_isAtom rfl, .of_isAtom rfl⟩
  have hliteral : literalStore.IsWordLiteral 3 [false, true] := ⟨0, [1, 2], rfl, rfl, .inl nofun⟩
  obtain ⟨hevaluate, -, hmux, -⟩ := bit_vectors_are_words hev literalStore 2
  obtain ⟨ev₁, hbits⟩ := exec_evaluate_of_isWordLiteral hliteral 0 ev
  refine ⟨hev, hwords _ _, hwords _ _, ⟨_, _, rfl, ?_⟩, ev₁, hbits, hevaluate 3 _ ev₁ hbits⟩
  exact hmux (.var 0) t e _ _ (hwords _ _) (hwords _ _) rfl

/-- A vector of booleans comes back from a merge under a known bit.  It also comes back when
the global that it overrides has been given a word since, from a constant that was evaluated
before. -/
theorem bit_vectors_returned :
    let v : Value Bool := .vector [.bool true]
    let g := Ident.prelude "g"
    v.isBitVector = true ∧
      (EvalM.ofMerge (Value.mux true v (.word [true]))).exec .new = (.ok v, .new) ∧
      (¬∀ (c : Bool) (t e w : Value Bool) ev',
        (EvalM.ofMerge (Value.mux c t e)).exec .new = (.ok w, ev') → w.Packed) ∧
      ∃ ev ev', (Evaluator.evaluate keptStore 2 6).exec (Evaluator.new.addOverride g v) =
          (.ok v, ev) ∧
        (∀ (ident : Ident) w,
          (ev.addOverride g (.word [true])).overrides[ident]? = some w → w.Packed) ∧
        (∀ (id : TermId) w,
          (ev.addOverride g (.word [true])).freeValues[id]? = some w → w.Packed) ∧
        (Evaluator.evaluate keptStore 2 6).exec (ev.addOverride g (.word [true])) =
          (.ok v, ev') := by
  intro v g
  have hmux : (EvalM.ofMerge (Value.mux true v (.word [true]))).exec .new = (.ok v, .new) := rfl
  have hmissing : (Evaluator.new.addOverride g v).overrides[Ident.prelude "k"]? = none := by
    rw [Evaluator.addOverride, Std.HashMap.getElem?_insert, if_neg (by decide)]
    simp [Evaluator.new]
  obtain ⟨ev, hrun, hoverrides, hkept⟩ := evaluate_keptStore_constant
    (Evaluator.new.addOverride g v) (v := v) (by simp [Evaluator.addOverride, g]) hmissing
  have hnone : (Evaluator.new.addOverride g v).constants[(5 : TermId)]?.getD v = v := by
    simp [Evaluator.addOverride, Evaluator.new]
  rw [hnone] at hrun hkept
  obtain ⟨ev', hagain, -⟩ := evaluate_keptStore_constant (ev.addOverride g (.word [true]))
    (v := .word [true]) (by simp [Evaluator.addOverride, g]) (by
      rw [Evaluator.addOverride, Std.HashMap.getElem?_insert, if_neg (by decide), hoverrides]
      exact hmissing)
  have hgrows : EvalM.Grows (Evaluator.evaluate keptStore 2 6 : EvalM Bool _) :=
    .bind (.modify (fun _ => rfl) fun _ => rfl) fun _ => (grow_calls keptStore 2).eval 6 []
  have hfree : ev.freeValues = ∅ := by
    have hsetting := (hgrows (Evaluator.new.addOverride g v)).1
    rw [hrun] at hsetting
    exact congrArg Setting.freeValues hsetting
  refine ⟨rfl, hmux, fun h => ?_, ev, ev', hrun, fun ident w hw => ?_, fun id w hw => ?_, ?_⟩
  · exact absurd (h true v _ v _ hmux v (.self v)) (by decide)
  · -- The only override is the one that has been replaced.
    rw [Evaluator.addOverride, hoverrides, Evaluator.addOverride, Std.HashMap.getElem?_insert] at hw
    split at hw
    · cases hw
      exact .of_isAtom rfl
    · next hne =>
        rw [Std.HashMap.getElem?_insert, if_neg hne] at hw
        simp [Evaluator.new] at hw
  · rw [Evaluator.addOverride, hfree] at hw
    simp at hw
  · rw [hagain]
    simp [Evaluator.addOverride, hkept]

end TermGraph
