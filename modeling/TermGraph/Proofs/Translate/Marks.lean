import Mathlib
import TermGraph.Proofs.Translate.Ledger

/-!
# Marks of nodes that are translated

To count how often a node is translated, a run may leave marks: comments, of which a
translation emits none of its own.  `Traces n m m' w Q` says that `m'` does what `m` does
apart from comments, whatever comes of it, that it leaves at most `w` more marks of the node
`n`, and that its value has `Q`.

Each step of the translation traces itself with another structural form of parts.  What
it adds to the marks is what is added for the positions that it hands on.
-/

namespace TermGraph

open Target Store

/-! ## Comments -/

/-- The text of a comment. -/
def Target.Decl.comment? : Decl → Option String
  | .comment text => some text
  | _ => none

namespace Emission

/-- The mark of a node. -/
def mark (id : TermId) : Decl :=
  .comment (toString id)

/-- The number of marks of a node. -/
def marks (e : Emission) (n : TermId) : Nat :=
  (e.declarations.toList.filterMap Decl.comment?).count (toString n)

/-- The declarations other than comments. -/
def code (e : Emission) : List Decl :=
  e.declarations.toList.filter fun d => d.comment?.isNone

/-- Two emissions that differ in comments only. -/
structure SameCode (e e' : Emission) : Prop where
  code : e.code = e'.code
  handled : e.handled = e'.handled
  names : e.names = e'.names

variable {e e' : Emission}

theorem SameCode.handle (h : SameCode e e') (ident : Ident) :
    SameCode (e.handle ident) (e'.handle ident) :=
  ⟨h.code, congrArg (·.insert ident) h.handled, h.names⟩

theorem code_push (e : Emission) (d : Decl) :
    (e.push d).code = e.code ++ if d.comment?.isNone then [d] else [] := by
  rw [code, code, push, Array.toList_push, List.filter_append, List.filter_singleton,
    Bool.cond_eq_ite]

theorem SameCode.push (h : SameCode e e') (d : Decl) : SameCode (e.push d) (e'.push d) where
  code := by rw [code_push, code_push, h.code]
  handled := h.handled
  names := by simp only [Emission.push, h.names]

theorem SameCode.push_mark (h : SameCode e e') (id : TermId) :
    SameCode e (e'.push (mark id)) where
  code := by rw [code_push, h.code]; exact (List.append_nil _).symm
  handled := h.handled
  names := h.names

theorem marks_push (e : Emission) (d : Decl) (n : TermId) :
    (e.push d).marks n = e.marks n + if d.comment? = some (toString n) then 1 else 0 := by
  rw [marks, marks, push, Array.toList_push, List.filterMap_append, List.count_append]
  congr 1
  cases h : d.comment? with
  | none => simp [h]
  | some text => simp [h, List.count_singleton]

/-- Different nodes have different marks. -/
theorem marks_push_mark (e : Emission) (id n : TermId) :
    (e.push (mark id)).marks n = e.marks n + if id = n then 1 else 0 := by
  rw [marks_push, mark, Decl.comment?]
  congr 1
  refine if_congr ⟨fun h => ?_, fun h => h ▸ rfl⟩ rfl rfl
  have htext := congrArg String.toList (Option.some.inj h)
  rw [Nat.toString_eq_ofList_toDigits, Nat.toString_eq_ofList_toDigits, String.toList_ofList,
    String.toList_ofList] at htext
  have hvalue := congrArg (fun cs => Nat.ofDigitChars 10 cs 0) htext
  simpa only [Nat.ofDigitChars_ten_toDigits] using hvalue

end Emission

open Emission

/-! ## Runs that leave marks -/

/-- A computation does what another one does, apart from comments, and leaves at most some
more marks of a node. -/
def Traces {α : Type} (n : TermId) (m m' : Emit α) (w : Nat) (Q : α → Prop) : Prop :=
  ∀ e e', SameCode e e' →
    (m'.exec e').1 = (m.exec e).1 ∧ SameCode (m.exec e).2 (m'.exec e').2 ∧
      (m'.exec e').2.marks n ≤ e'.marks n + w ∧ ∀ a, (m.exec e).1 = .ok a → Q a

section Traces

variable {α β : Type} {n : TermId} {m m' : Emit α} {w v : Nat} {Q : α → Prop}
  {P : β → Prop}

theorem Traces.mono (h : Traces n m m' w Q) (hle : w ≤ v) : Traces n m m' v Q :=
  fun e e' he =>
    let ⟨hvalue, hcode, hmarks, hpost⟩ := h e e' he
    ⟨hvalue, hcode, hmarks.trans (Nat.add_le_add_left hle _), hpost⟩

theorem traces_pure {a : α} (h : Q a) : Traces n (pure a) (pure a) 0 Q :=
  fun _ _ he => ⟨rfl, he, le_rfl, fun _ hb => by cases hb; exact h⟩

theorem traces_throw {err : TranslateError} :
    Traces n (throw err : Emit α) (throw err) 0 Q :=
  fun _ _ he => ⟨rfl, he, le_rfl, fun _ hb => by cases hb⟩

theorem traces_modify {f : Emission → Emission}
    (hcode : ∀ e e', SameCode e e' → SameCode (f e) (f e'))
    (hmarks : ∀ e, (f e).marks n = e.marks n) :
    Traces n (modify f : Emit Unit) (modify f) 0 fun _ => True :=
  fun _ e' he => ⟨rfl, hcode _ _ he, le_of_eq (hmarks e'), fun _ _ => trivial⟩

theorem traces_handle (ident : Ident) :
    Traces n (modify (Emission.handle ident) : Emit Unit) (modify (Emission.handle ident)) 0
      fun _ => True :=
  traces_modify (fun _ _ he => he.handle ident) fun _ => rfl

/-- Declarations other than comments leave no marks. -/
theorem traces_push {d : Decl} (hd : d.comment? = none) :
    Traces n (modify (Emission.push d) : Emit Unit) (modify (Emission.push d)) 0
      fun _ => True :=
  traces_modify (fun _ _ he => he.push d) fun e => by simp [marks_push, hd]

theorem traces_bind {f f' : α → Emit β} (hm : Traces n m m' w Q)
    (hf : ∀ a, Q a → Traces n (f a) (f' a) v P) :
    Traces n (m >>= f) (m' >>= f') (w + v) P := by
  intro e e' he
  obtain ⟨hvalue, hcode, hmarks, hpost⟩ := hm e e' he
  rw [Emit.exec_bind, Emit.exec_bind]
  rcases hrun : m.exec e with ⟨r, e₁⟩
  rcases hrun' : m'.exec e' with ⟨r', e₁'⟩
  rw [hrun] at hvalue hcode hpost
  rw [hrun'] at hvalue hcode hmarks
  obtain rfl : r' = r := hvalue
  cases r' with
  | error err => exact ⟨rfl, hcode, hmarks.trans (by omega), fun b hb => by cases hb⟩
  | ok a =>
      obtain ⟨hvalue', hcode', hmarks', hpost'⟩ := hf a (hpost a rfl) e₁ e₁' hcode
      exact ⟨hvalue', hcode', hmarks'.trans (by dsimp only at hmarks ⊢; omega), hpost'⟩

/-- A first computation that leaves no marks. -/
theorem traces_bind_quiet {f f' : α → Emit β} (hm : Traces n m m' 0 Q)
    (hf : ∀ a, Q a → Traces n (f a) (f' a) v P) : Traces n (m >>= f) (m' >>= f') v P :=
  (traces_bind hm hf).mono (Nat.zero_add v).le

theorem traces_map {f : α → β} (hm : Traces n m m' w Q) (hf : ∀ a, Q a → P (f a)) :
    Traces n (do return f (← m)) (do return f (← m')) w P :=
  traces_bind hm fun a ha => traces_pure (hf a ha)

/-- What is emitted is only looked at for what has been dealt with and for names. -/
theorem traces_get {f f' : Emission → Emit β}
    (hf : ∀ e e', SameCode e e' → Traces n (f e) (f' e') w P) :
    Traces n (get >>= f) (get >>= f') w P := by
  intro e e' he
  rw [Emit.exec_bind, Emit.exec_bind]
  exact hf e e' he e e' he

theorem traces_mapM {f f' : α → Emit β} {v : α → Nat} {as : List α}
    (h : ∀ a ∈ as, Traces n (f a) (f' a) (v a) fun _ => True) :
    Traces n (as.mapM f) (as.mapM f') (as.map v).sum fun _ => True := by
  induction as with
  | nil => exact traces_pure trivial
  | cons a as ih =>
      obtain ⟨ha, has⟩ := List.forall_mem_cons.mp h
      rw [List.mapM_cons, List.mapM_cons, List.map_cons, List.sum_cons]
      exact traces_bind ha fun _ _ => traces_map (ih has) fun _ _ => trivial

end Traces

/-! ## The steps of a translation -/

namespace Store

/-- The sorts that a term reaches carry no marks. -/
def Unflagged (s : Store) (top : TermId) : Prop :=
  ∀ c level flags, s.Reaches top c → s.node c = .sort level flags → flags.isEmpty = true

end Store

theorem Scope.isShared_congr {scope scope' : Scope} (h : scope'.shared = scope.shared) :
    scope'.isShared = scope.isShared := by
  unfold isShared
  rw [h]

/-- What is added for a position: nothing where a name stands. -/
def weight (W : (TermId → Bool) → TermId → Nat) (named : TermId → Bool) (id : TermId) : Nat :=
  if named id then 0 else W named id

section Steps

variable {cfg : Config} {s : Store} {n : TermId} {render render' : Render}
  {W : (TermId → Bool) → TermId → Nat} {top limit : TermId}
  (hrender : ∀ scope, ∀ c < limit, s.Reaches top c →
    Traces n (render scope c) (render' scope c) (W scope.isShared c) fun _ => True)
  (hflags : s.Unflagged top) (scope : Scope)

include hrender

theorem traces_term {id : TermId} (hid : id < limit ∧ s.Reaches top id) :
    Traces n (translateTerm render scope id) (translateTerm render' scope id)
      (weight W scope.isShared id) fun _ => True := by
  unfold translateTerm weight
  split
  · rename_i x hname
    exact (traces_pure trivial).mono (Nat.zero_le _)
  · rename_i hname
    have hnot : ¬scope.isShared id = true := by
      rw [Scope.isShared, Std.HashMap.contains_eq_isSome_getElem?, hname]
      simp
    rw [if_neg hnot]
    exact hrender scope id hid.1 hid.2

theorem traces_terms {ids : List TermId} (hids : ∀ id ∈ ids, id < limit ∧ s.Reaches top id) :
    Traces n (translateTerms render scope ids) (translateTerms render' scope ids)
      (ids.map (weight W scope.isShared)).sum fun _ => True :=
  traces_mapM fun id hid => traces_term hrender scope (hids id hid)

/-! ### Binders -/

omit hrender in
include hflags in
/-- A parameter has no hypotheses. -/
theorem constraintClasses_of_unflagged {ty : TermId} (hty : s.Reaches top ty) :
    constraintClasses (sortFlags s ty) = [] := by
  have hempty : (sortFlags s ty).isEmpty = true := by
    unfold sortFlags
    split
    · rename_i level flags hnode
      exact hflags _ level flags (hty.trans (s.within_piChain ty).2.reaches) hnode
    · rfl
  simp only [SortFlags.isEmpty, Bool.and_eq_true, Bool.not_eq_true'] at hempty
  simp [constraintClasses, hempty]

omit hrender in
include hflags in
theorem traces_bindNamed (x : String) {ty : TermId} (hty : s.Reaches top ty) :
    Traces n (bindNamed s render scope x ty) (bindNamed s render' scope x ty) 0 fun r =>
      r.2.2.shared = scope.shared := by
  unfold bindNamed
  rw [constraintClasses_of_unflagged hflags hty]
  exact traces_pure rfl

include hflags in
theorem traces_bindParams {params : List (String × TermId)}
    (hparams : ∀ p ∈ params, p.2 < limit ∧ s.Reaches top p.2) :
    Traces n (bindParams s render scope params) (bindParams s render' scope params)
      (params.map fun p => weight W scope.isShared p.2).sum fun r =>
        r.2.shared = scope.shared := by
  induction params generalizing scope with
  | nil => exact traces_pure rfl
  | cons p rest ih =>
      obtain ⟨hp, hrest⟩ := List.forall_mem_cons.mp hparams
      rw [List.map_cons, List.sum_cons]
      refine traces_bind (traces_term hrender scope hp) fun _ _ => ?_
      refine traces_bind_quiet (traces_bindNamed hflags scope p.1 hp.2) fun named hshared => ?_
      rw [← Scope.isShared_congr hshared]
      exact traces_map (ih named.2.2 hrest) fun _ h => h.trans hshared

include hflags in
theorem traces_bindPis {layers : List Layer}
    (hlayers : ∀ l ∈ layers, l.type < limit ∧ s.Reaches top l.type) :
    Traces n (bindPis s render scope layers) (bindPis s render' scope layers)
      (layers.map fun l => weight W scope.isShared l.type).sum fun r =>
        r.2.shared = scope.shared := by
  induction layers generalizing scope with
  | nil => exact traces_pure rfl
  | cons l rest ih =>
      obtain ⟨hl, hrest⟩ := List.forall_mem_cons.mp hlayers
      rw [List.map_cons, List.sum_cons]
      refine traces_bind (traces_term hrender scope hl) fun _ _ => ?_
      split
      · refine traces_bind_quiet (traces_bindNamed hflags scope l.name hl.2) fun named hshared => ?_
        rw [← Scope.isShared_congr hshared]
        exact traces_map (ih named.2.2 hrest) fun _ h => h.trans hshared
      · exact traces_map (ih (scope.bind "_") hrest) fun _ h => h

include hflags in
theorem traces_lam {x : String} {ty b : TermId} {id : TermId}
    (hnode : s.node id = .lam x ty b) (hid : id ≤ limit ∧ s.Reaches top id) :
    Traces n (translateLam s render scope id) (translateLam s render' scope id)
      (((s.lamLayers scope.isShared id).1.map fun l => weight W scope.isShared l.type).sum +
        weight W scope.isShared (s.lamLayers scope.isShared id).2) fun _ => True := by
  obtain ⟨htypes, hlast⟩ := strictlyWithin_lamLayers hnode scope.isShared
  unfold translateLam
  generalize s.lamLayers scope.isShared id = chain at htypes hlast ⊢
  obtain ⟨layers, body⟩ := chain
  have hparams : ∀ p ∈ layers.map fun l => (l.name, l.type),
      p.2 < limit ∧ s.Reaches top p.2 := by
    intro p hp
    obtain ⟨l, hl, rfl⟩ := List.mem_map.mp hp
    obtain ⟨j, hj⟩ := List.getElem?_of_mem hl
    exact (htypes j l hj).below hid
  have hbinders := traces_bindParams hrender hflags scope hparams
  rw [List.map_map] at hbinders
  refine traces_bind hbinders fun inner hshared => ?_
  rw [← Scope.isShared_congr hshared]
  exact traces_map (traces_term hrender inner.2 (hlast.below hid)) fun _ _ => trivial

include hflags in
theorem traces_pi {x : String} {ty b : TermId} {id : TermId}
    (hnode : s.node id = .pi x ty b) (hid : id ≤ limit ∧ s.Reaches top id) :
    Traces n (translatePi s render scope id) (translatePi s render' scope id)
      (((s.piLayers scope.isShared id).1.map fun l => weight W scope.isShared l.type).sum +
        weight W scope.isShared (s.piLayers scope.isShared id).2) fun _ => True := by
  obtain ⟨htypes, hlast⟩ := strictlyWithin_piLayers hnode scope.isShared
  unfold translatePi
  generalize s.piLayers scope.isShared id = chain at htypes hlast ⊢
  obtain ⟨layers, body⟩ := chain
  refine traces_bind (traces_bindPis hrender hflags scope fun l hl => ?_) fun inner hshared => ?_
  · obtain ⟨j, hj⟩ := List.getElem?_of_mem hl
    exact (htypes j l hj).below hid
  · rw [← Scope.isShared_congr hshared]
    exact traces_map (traces_term hrender inner.2 (hlast.below hid)) fun _ _ => trivial

theorem traces_let (x : String) {ty value b : TermId}
    (hty : ty < limit ∧ s.Reaches top ty) (hvalue : value < limit ∧ s.Reaches top value)
    (hb : b < limit ∧ s.Reaches top b) :
    Traces n (translateLet render scope x ty value b) (translateLet render' scope x ty value b)
      ([ty, value, b].map (weight W scope.isShared)).sum fun _ => True := by
  simp only [List.map_cons, List.map_nil, List.sum_cons, List.sum_nil]
  refine traces_bind (traces_term hrender scope hty) fun _ _ => ?_
  refine traces_bind (traces_term hrender scope hvalue) fun _ _ => ?_
  refine traces_bind (traces_term hrender ((scope.fresh x).2.bind (scope.fresh x).1) hb)
    fun _ _ => ?_
  split <;> exact traces_pure trivial

/-! ### Units -/

/-- The values of named subterms, each of them entered once. -/
theorem traces_shareBindings {named : List (TermId × String)}
    (hnamed : ∀ p ∈ named, p.1 < limit ∧ s.Reaches top p.1) :
    Traces n (shareBindings render scope named) (shareBindings render' scope named)
      (named.map fun p => W scope.isShared p.1).sum fun _ => True := by
  induction named with
  | nil => exact traces_pure trivial
  | cons p rest ih =>
      obtain ⟨hp, hrest⟩ := List.forall_mem_cons.mp hnamed
      rw [List.map_cons, List.sum_cons]
      refine traces_bind (hrender scope p.1 hp.1 hp.2) fun _ _ => ?_
      exact traces_map (ih hrest) fun _ _ => trivial

/-- A term inside bindings of its shared subterms. -/
theorem traces_lifted (hscope : ∀ k, k ∉ scope.shared) {root : TermId}
    (hroot : root < limit ∧ s.Reaches top root) {w : Nat}
    (hw : ∀ named : TermId → Bool, (∀ k, named k = true ↔ k ∈ cfg.namedTerms s root) →
      ((cfg.namedTerms s root).map (W named)).sum + weight W named root ≤ w) :
    Traces n (translateLifted cfg s render scope root)
      (translateLifted cfg s render' scope root) w fun _ => True := by
  have hnamed : ∀ t ∈ cfg.namedTerms s root, t < limit ∧ s.Reaches top t := by
    intro t ht
    have hreach := (Config.of_mem_namedTerms ht).1
    exact ⟨hreach.le.trans_lt hroot.1, hroot.2.trans hreach⟩
  unfold translateLifted
  generalize cfg.namedTerms s root = ids at hnamed hw ⊢
  dsimp only
  split
  · rename_i hempty
    rw [List.isEmpty_iff] at hempty
    subst hempty
    refine (traces_term hrender scope hroot).mono ?_
    simpa using hw scope.isShared fun k => by
      simpa [Scope.isShared, Std.HashMap.contains_iff_mem] using hscope k
  · have hlength := scope.length_freshMany cfg.options.sharedNameBase ids.length
    have hshared := Scope.shared_freshMany scope cfg.options.sharedNameBase ids.length
    generalize scope.freshMany cfg.options.sharedNameBase ids.length = picked at hlength hshared
    obtain ⟨names, inner⟩ := picked
    dsimp only at hlength hshared ⊢
    have hzip : (ids.zip names).map (·.1) = ids := List.map_fst_zip (le_of_eq hlength.symm)
    have hkeys : ∀ k, (inner.share (ids.zip names)).isShared k = true ↔ k ∈ ids := by
      intro k
      rw [Scope.isShared, Scope.share, Std.HashMap.contains_iff_mem,
        Std.HashMap.mem_insertMany_list, hzip, hshared]
      simp [hscope k]
    refine (traces_bind (traces_shareBindings hrender _ fun p hp =>
      hnamed p.1 (List.of_mem_zip hp).1) fun _ _ =>
        traces_map (traces_term hrender _ hroot) fun _ _ => trivial).mono ?_
    have hsum := hw _ hkeys
    rwa [← hzip, List.map_map, hzip] at hsum

/-! ### Names and applications -/

theorem traces_ident (ident : Ident) {args : List TermId}
    (hargs : ∀ a ∈ args, a < limit ∧ s.Reaches top a) :
    Traces n (translateIdent cfg render scope ident args)
      (translateIdent cfg render' scope ident args)
      (args.map (weight W scope.isShared)).sum fun _ => True := by
  have hall := traces_terms hrender scope hargs
  unfold translateIdent
  cases cfg.table.useSite ident with
  | preserve => exact traces_map hall fun _ _ => trivial
  | rename module name explicit => exact traces_map hall fun _ _ => trivial
  | expand arity template =>
      dsimp only
      split
      · refine (traces_bind (Q := fun _ => False) (v := 0) traces_throw fun _ h => h.elim).mono ?_
        exact Nat.zero_le _
      · have hsplit : (args.map (weight W scope.isShared)).sum =
            ((args.take arity).map (weight W scope.isShared)).sum +
              ((args.drop arity).map (weight W scope.isShared)).sum := by
          rw [← List.sum_append, ← List.map_append, List.take_append_drop]
        rw [hsplit]
        refine traces_bind (traces_terms hrender scope fun a ha =>
          hargs a (List.mem_of_mem_take ha)) fun _ _ => ?_
        exact traces_map (traces_terms hrender scope fun a ha =>
          hargs a (List.mem_of_mem_drop ha)) fun _ _ => trivial

theorem traces_named (head : String) {args : List TermId}
    (hargs : ∀ a ∈ args, a < limit ∧ s.Reaches top a) :
    Traces n (translateNamed render scope head args) (translateNamed render' scope head args)
      (args.map (weight W scope.isShared)).sum fun _ => True :=
  traces_map (traces_terms hrender scope hargs) fun _ _ => trivial

theorem traces_conditional {c t e : TermId} {rest : List TermId}
    (hargs : ∀ a ∈ c :: t :: e :: rest, a < limit ∧ s.Reaches top a) :
    Traces n (translateConditional render scope c t e rest)
      (translateConditional render' scope c t e rest)
      ((c :: t :: e :: rest).map (weight W scope.isShared)).sum fun _ => True := by
  simp only [List.forall_mem_cons] at hargs
  obtain ⟨hc, ht, he, hrest⟩ := hargs
  simp only [List.map_cons, List.sum_cons]
  refine traces_bind (traces_term hrender scope hc) fun _ _ => ?_
  refine traces_bind (traces_term hrender scope ht) fun _ _ => ?_
  refine traces_bind (traces_term hrender scope he) fun _ _ => ?_
  exact traces_map (traces_terms hrender scope hrest) fun _ _ => trivial

/-- The positions that an application hands on. -/
def Store.handedByApp (s : Store) (named : TermId → Bool) (id : TermId) : List TermId :=
  let (head, args) := s.spineUntil named id
  match s.node head with
  | .global ident =>
      if ident = .prelude "ite" ∧ 4 ≤ args.length then args.drop 1 else args
  | .constant _ _ _ => args
  | _ => head :: args

/-- An application whose head is not a constant. -/
theorem traces_app {f a : TermId} {id : TermId} (hnode : s.node id = .app f a)
    (hid : id ≤ limit ∧ s.Reaches top id)
    (hnot : ∀ ident ty body, s.node (s.spineUntil scope.isShared id).1 ≠ .constant ident ty body) :
    Traces n (translateApp cfg s render scope id) (translateApp cfg s render' scope id)
      ((s.handedByApp scope.isShared id).map (weight W scope.isShared)).sum fun _ => True := by
  obtain ⟨hhead, hargs⟩ := strictlyWithin_spineUntil hnode scope.isShared
  unfold translateApp handedByApp
  generalize s.spineUntil scope.isShared id = cut at hhead hargs hnot ⊢
  obtain ⟨head, args⟩ := cut
  dsimp only at hhead hargs hnot ⊢
  have hargs' : ∀ b ∈ args, b < limit ∧ s.Reaches top b :=
    fun b hb => (hargs b hb).below hid
  cases hkind : s.node head with
  | global ident =>
      dsimp only
      by_cases hite : ident = .prelude "ite"
      · simp only [hite, if_true, true_and]
        rcases args with _ | ⟨ty, _ | ⟨c, _ | ⟨t, _ | ⟨e, rest⟩⟩⟩⟩
        case cons.cons.cons.cons =>
          simpa using traces_conditional hrender scope fun b hb =>
            hargs' b (List.mem_cons_of_mem ty hb)
        all_goals simpa using traces_ident hrender scope (.prelude "ite") hargs'
      · simpa [hite] using traces_ident hrender scope ident hargs'
  | constant ident ty body => exact absurd hkind (hnot ident ty body)
  | _ =>
      simp only [List.map_cons, List.sum_cons]
      refine traces_bind (traces_term hrender scope
        (hhead.below hid)) fun _ _ => ?_
      exact traces_map (traces_terms hrender scope hargs') fun _ _ => trivial

/-! ### Data -/

theorem traces_fields (cons nil : String) {fields : List (String × TermId)}
    (hfields : ∀ p ∈ fields, p.2 < limit ∧ s.Reaches top p.2) :
    Traces n (translateFields render scope cons nil fields)
      (translateFields render' scope cons nil fields)
      (fields.map fun p => weight W scope.isShared p.2).sum fun _ => True := by
  induction fields with
  | nil => exact traces_pure trivial
  | cons p rest ih =>
      rw [List.forall_mem_cons] at hfields
      rw [List.map_cons, List.sum_cons]
      refine traces_bind (traces_term hrender scope hfields.1) fun _ _ => ?_
      exact traces_map (ih hfields.2) fun _ _ => trivial

theorem traces_record (cons nil : String) {fields : List (String × TermId)}
    (hfields : ∀ p ∈ fields, p.2 < limit ∧ s.Reaches top p.2) :
    Traces n (translateRecord render scope cons nil fields)
      (translateRecord render' scope cons nil fields)
      (fields.map fun p => weight W scope.isShared p.2).sum fun _ => True := by
  rw [← ((List.mergeSort_perm fields fun a b => a.1 ≤ b.1).map _).sum_eq]
  exact traces_fields hrender scope cons nil fun p hp => hfields p (List.mem_mergeSort.mp hp)

/-- A word shows none of its elements. -/
theorem traces_array (elemType : TermId) {elems : List TermId}
    (helems : ∀ a ∈ elems, a < limit ∧ s.Reaches top a) :
    Traces n (translateArray cfg s render scope elemType elems)
      (translateArray cfg s render' scope elemType elems)
      (elems.map (weight W scope.isShared)).sum fun _ => True := by
  unfold translateArray
  split
  · exact (traces_pure trivial).mono (Nat.zero_le _)
  · exact traces_map (traces_terms hrender scope helems) fun _ _ => trivial

theorem traces_case {cases : List (Ident × TermId)}
    (hcases : ∀ p ∈ cases, p.2 < limit ∧ s.Reaches top p.2) (ctor : Ident) :
    Traces n (translateCase cfg render scope cases ctor)
      (translateCase cfg render' scope cases ctor)
      (((cases.find? fun p => p.1 = ctor).map (·.2)).elim 0 (weight W scope.isShared))
      fun _ => True := by
  unfold translateCase
  cases hfind : cases.find? fun p => p.1 = ctor with
  | some p => exact traces_term hrender scope (hcases p (List.mem_of_find?_eq_some hfind))
  | none =>
      dsimp only
      split
      · exact traces_throw
      · exact traces_pure trivial

theorem traces_recursor (datatype : Ident) {params : List TermId} {motive : TermId}
    {cases : List (Ident × TermId)} (hparams : ∀ a ∈ params, a < limit ∧ s.Reaches top a)
    (hmotive : motive < limit ∧ s.Reaches top motive)
    (hcases : ∀ p ∈ cases, p.2 < limit ∧ s.Reaches top p.2) (order : List Ident) :
    Traces n (translateRecursor cfg render scope datatype params motive order cases)
      (translateRecursor cfg render' scope datatype params motive order cases)
      ((s.shownParts (.recursor datatype params motive order cases)).map
        (weight W scope.isShared)).sum fun _ => True := by
  have hshown : ∀ order : List Ident, (order.map fun ctor =>
      ((cases.find? fun p => p.1 = ctor).map (·.2)).elim 0 (weight W scope.isShared)).sum =
        ((order.filterMap fun ctor => (cases.find? fun p => p.1 = ctor).map (·.2)).map
          (weight W scope.isShared)).sum := by
    intro order
    induction order with
    | nil => rfl
    | cons ctor order ih =>
        rw [List.map_cons, List.sum_cons, ih, List.filterMap_cons]
        cases (cases.find? fun p => p.1 = ctor) <;> simp
  unfold translateRecursor
  cases counterpart? cfg datatype with
  | none => exact traces_throw.mono (Nat.zero_le _)
  | some target =>
      rw [shownParts, List.map_append, List.sum_append, List.map_cons, List.sum_cons, ← hshown]
      refine traces_bind (traces_terms hrender scope hparams) fun _ _ => ?_
      refine traces_bind (traces_term hrender scope hmotive) fun _ _ => ?_
      exact traces_map (traces_mapM fun ctor _ => traces_case hrender scope hcases ctor)
        fun _ _ => trivial

/-! ### Nodes -/

/-- The positions that a node hands on when it is translated, where some subterms have
names. -/
def Store.handed (s : Store) (named : TermId → Bool) (id : TermId) : List TermId :=
  match s.node id with
  | .app _ _ => s.handedByApp named id
  | .lam _ _ _ =>
      let (layers, body) := s.lamLayers named id
      layers.map (·.type) ++ [body]
  | .pi _ _ _ =>
      let (layers, body) := s.piLayers named id
      layers.map (·.type) ++ [body]
  | n => s.shownParts n

include hflags in
/-- A node that does not start with a constant. -/
theorem traces_step {id : TermId} (hid : id = limit) (hreach : s.Reaches top id)
    (hnot : ∀ ident ty body, s.node (s.spineUntil scope.isShared id).1 ≠ .constant ident ty body) :
    Traces n (translateStep cfg s render scope id) (translateStep cfg s render' scope id)
      ((s.handed scope.isShared id).map (weight W scope.isShared)).sum fun _ => True := by
  subst hid
  have hparts : ∀ c ∈ (s.node id).children, c < id ∧ s.Reaches top c := fun c hc =>
    ⟨s.lt_of_mem_children hc, hreach.trans (reaches_of_mem_children hc)⟩
  unfold translateStep handed
  cases hnode : s.node id with
  | constant ident ty body =>
      refine absurd ?_ (hnot ident ty body)
      rw [spineUntil, spineOnto]
      split
      · rename_i f a happ
        rw [happ] at hnode
        cases hnode
      · exact hnode
  | global ident =>
      exact (traces_ident hrender scope ident (List.forall_mem_nil _)).mono (Nat.zero_le _)
  | app f a => exact traces_app hrender scope hnode ⟨le_rfl, hreach⟩ hnot
  | lam x ty b =>
      simpa [Function.comp_def] using traces_lam hrender hflags scope hnode ⟨le_rfl, hreach⟩
  | pi x ty b =>
      simpa [Function.comp_def] using traces_pi hrender hflags scope hnode ⟨le_rfl, hreach⟩
  | fix x ty b => exact traces_throw.mono (Nat.zero_le _)
  | bound i =>
      dsimp only
      split
      · exact (traces_pure trivial).mono (Nat.zero_le _)
      · exact traces_throw.mono (Nat.zero_le _)
  | free | sort | nat | string | bool | unit | unitType =>
      exact (traces_pure trivial).mono (Nat.zero_le _)
  | pair a b | pairType a b | pairLeft a | pairRight a =>
      rw [hnode] at hparts
      exact traces_named hrender scope _ hparts
  | recordType fields | record fields =>
      rw [hnode] at hparts
      have hfields : ∀ p ∈ fields, p.2 < id ∧ s.Reaches top p.2 := fun p hp =>
        hparts p.2 (by simpa [Node.children, Node.childrenWithDepth] using ⟨p.1, hp⟩)
      simpa [shownParts, renderedChildren, Node.children, Node.childrenWithDepth,
        Function.comp_def] using traces_record hrender scope _ _ hfields
  | proj r field =>
      rw [hnode] at hparts
      simpa [shownParts, renderedChildren, Node.children, Node.childrenWithDepth] using
        traces_map (traces_term hrender scope (hparts r (by
          simp [Node.children, Node.childrenWithDepth]))) fun _ _ => trivial
  | array elemType elems =>
      rw [hnode] at hparts
      exact traces_array hrender scope elemType fun a ha => hparts a (by
        simp [Node.children, Node.childrenWithDepth, ha])
  | data ident params rest | ctor ident params rest =>
      rw [hnode] at hparts
      have hargs : ∀ a ∈ params ++ rest, a < id ∧ s.Reaches top a := fun a ha =>
        hparts a (by simpa [Node.children, Node.childrenWithDepth] using ha)
      simpa [shownParts, renderedChildren, Node.children, Node.childrenWithDepth,
        Function.comp_def] using traces_ident hrender scope ident hargs
  | recursor datatype params motive order cases =>
      rw [hnode] at hparts
      have hmem : ∀ c, c ∈ params ∨ c = motive ∨ (∃ p ∈ cases, p.2 = c) →
          c < id ∧ s.Reaches top c := fun c hc => hparts c <| by
        simpa [Node.children, Node.childrenWithDepth] using hc
      exact traces_recursor hrender scope datatype (fun a ha => hmem a (Or.inl ha))
        (hmem motive (Or.inr (Or.inl rfl)))
        (fun p hp => hmem p.2 (Or.inr (Or.inr ⟨p, hp, rfl⟩))) order
  | letIn x ty value b =>
      rw [hnode] at hparts
      simp only [Node.children, Node.childrenWithDepth, List.map_cons, List.map_nil,
        List.forall_mem_cons] at hparts
      obtain ⟨hty, hvalue, hb, -⟩ := hparts
      exact traces_let hrender scope x hty hvalue hb

end Steps

/-! ## Declarations without marks -/

theorem weight_zero (named : TermId → Bool) (id : TermId) :
    weight (fun _ _ => 0) named id = 0 :=
  ite_self 0

theorem sum_map_weight_zero (named : TermId → Bool) (ids : List TermId) :
    (ids.map (weight (fun _ _ => 0) named)).sum = 0 :=
  List.sum_eq_zero fun w hw => by
    obtain ⟨id, -, rfl⟩ := List.mem_map.mp hw
    exact weight_zero named id

section Declarations

variable {cfg : Config} {s : Store} {n : TermId} {render render' : Render}
  {top limit : TermId}
  (hrender : ∀ scope, ∀ c < limit, s.Reaches top c →
    Traces n (render scope c) (render' scope c) 0 fun _ => True)
  (hflags : s.Unflagged top)

include hrender hflags

theorem traces_definition {scope : Scope} (hscope : ∀ k, k ∉ scope.shared) (name : String)
    {ty body : TermId} (hty : ty < limit ∧ s.Reaches top ty)
    (hbody : body < limit ∧ s.Reaches top body) :
    Traces n (translateDefinition cfg s render scope name ty body)
      (translateDefinition cfg s render' scope name ty body) 0 fun d => d.comment? = none := by
  have hterm : ∀ scope {id : TermId}, id < limit ∧ s.Reaches top id →
      Traces n (translateTerm render scope id) (translateTerm render' scope id) 0
        fun _ => True := fun scope id hid =>
    (traces_term (W := fun _ _ => 0) hrender scope hid).mono (weight_zero _ id).le
  have hlifted : ∀ {scope}, (∀ k, k ∉ scope.shared) → ∀ {id : TermId},
      id < limit ∧ s.Reaches top id → Traces n (translateLifted cfg s render scope id)
        (translateLifted cfg s render' scope id) 0 fun _ => True := fun hscope id hid =>
    traces_lifted (W := fun _ _ => 0) hrender _ hscope hid (by simp [weight_zero])
  have hcodomain := (s.within_piChain ty).2
  have hinner := (s.within_lamChain body).2
  simp only [translateDefinition]
  split
  · exact traces_bind_quiet (hterm scope hty) fun _ _ =>
      traces_map (hlifted hscope hbody) fun _ _ => rfl
  · rename_i hcond
    have hlength := length_eq_of_params hcond
    have hmap := map_snd_zipWith_params hlength
    generalize List.zipWith _ (s.piChain ty).1 (s.lamChain body).1 = params at hmap ⊢
    have hbinders := (traces_bindParams (W := fun _ _ => 0) hrender hflags scope
      (within_params hty hmap)).mono (by simp [weight_zero] : _ ≤ 0)
    refine traces_bind_quiet hbinders fun bound hshared => ?_
    refine traces_bind_quiet (hterm bound.2
      ⟨hcodomain.reaches.le.trans_lt hty.1, hty.2.trans hcodomain.reaches⟩) fun _ _ => ?_
    exact traces_map (hlifted (hshared ▸ hscope)
      ⟨hinner.reaches.le.trans_lt hbody.1, hbody.2.trans hinner.reaches⟩) fun _ _ => rfl

/-- Declaring a constant leaves no marks if the structural form of its parts leaves none. -/
theorem traces_declareConstant {ident : Ident} {ty : TermId} {body : Option TermId}
    (hlt : ∀ c ∈ ty :: body.toList, c < limit ∧ s.Reaches top c) :
    Traces n (declareConstant cfg s render ident ty body)
      (declareConstant cfg s render' ident ty body) 0 fun _ => True := by
  have hdeclaration : ∀ name, Traces n (declaration cfg s render name ty body)
      (declaration cfg s render' name ty body) 0 fun d => d.comment? = none := by
    intro name
    refine traces_get fun e e' he => ?_
    have hscope : Scope.ofUnit cfg e' s (ty :: body.toList) =
        Scope.ofUnit cfg e s (ty :: body.toList) := by
      rw [Scope.ofUnit, Scope.ofUnit, he.names]
    rw [hscope]
    have hempty : ∀ k, k ∉ (Scope.ofUnit cfg e s (ty :: body.toList)).shared :=
      fun k => Std.HashMap.not_mem_empty
    cases body with
    | some body =>
        exact traces_definition hrender hflags hempty name (hlt ty (by simp))
          (hlt body (by simp))
    | none =>
        exact traces_map ((traces_term (W := fun _ _ => 0) hrender _ (hlt ty (by simp))).mono
          (weight_zero _ ty).le) fun _ _ => rfl
  have hpush : ∀ name, Traces n
      (do
        let d ← declaration cfg s render name ty body
        modify (Emission.push d))
      (do
        let d ← declaration cfg s render' name ty body
        modify (Emission.push d)) 0 fun _ => True :=
    fun name => traces_bind_quiet (hdeclaration name) fun d hd => traces_push hd
  rw [declareConstant_eq, declareConstant_eq]
  refine traces_get fun e e' he => ?_
  have hhandled : e'.isHandled ident = e.isHandled ident := by
    rw [Emission.isHandled, Emission.isHandled, he.handled]
  rw [hhandled]
  split
  · exact traces_pure trivial
  · cases cfg.defSite? ident with
    | none => exact traces_throw
    | some site =>
        refine traces_bind_quiet (traces_handle ident) fun _ _ => ?_
        cases site with
        | skip => exact traces_pure trivial
        | replace text => exact traces_push rfl
        | preserve => exact hpush _
        | rename name => exact hpush _

end Declarations

end TermGraph
