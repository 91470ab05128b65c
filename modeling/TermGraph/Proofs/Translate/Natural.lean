import Mathlib
import TermGraph.Proofs.Translate.Moves

/-!
# Outlines in other contexts

If one outer context takes the place of another, the outline of a node changes by a
replacement of the references past the inner binders.  A subterm may lose its name on
the way; it then appears as its structural form, and an application that it is the
head of takes in its arguments.
-/

namespace TermGraph

open Target Store Target.Resolved

/-! ## Heads that take in more arguments -/

section Append

variable {cfg : Config} {s : Store} {known : Ident → Bool} {look : Outliner} {ctx : Context}
  {args more : List TermId} {rs : List Resolved}

theorem outlineTerms_append {front : List Resolved}
    (hfront : outlineTerms look ctx args = some front)
    (hrs : outlineTerms look ctx more = some rs) :
    outlineTerms look ctx (args ++ more) = some (front ++ rs) := by
  rw [outlineTerms] at hfront hrs ⊢
  rw [List.mapM_append, hfront, hrs]
  rfl

theorem outlineIdent_append {ident : Ident}
    (harity : ∀ arity template, cfg.table.useSite ident = .expand arity template →
      arity ≤ args.length) {r : Resolved}
    (hr : outlineIdent cfg look ctx ident args = some r)
    (hrs : outlineTerms look ctx more = some rs) :
    outlineIdent cfg look ctx ident (args ++ more) = some (r.applyAll rs) := by
  unfold outlineIdent at hr ⊢
  split at hr
  · obtain ⟨front, hfront, hpure⟩ := Option.bind_eq_some_iff.mp hr
    cases hpure
    rw [outlineTerms_append hfront hrs, ← applyAll_append]
    rfl
  · obtain ⟨front, hfront, hpure⟩ := Option.bind_eq_some_iff.mp hr
    cases hpure
    rw [outlineTerms_append hfront hrs, ← applyAll_append]
    rfl
  · rename_i arity template hsite
    have hle := harity arity template hsite
    have hlength : ¬ (args ++ more).length < arity := by
      rw [List.length_append]
      omega
    split at hr
    · cases hr
    · obtain ⟨front, hfront, hrest⟩ := Option.bind_eq_some_iff.mp hr
      obtain ⟨back, hback, hpure⟩ := Option.bind_eq_some_iff.mp hrest
      cases hpure
      rw [if_neg hlength, List.take_append_of_le_length hle,
        List.drop_append_of_le_length hle, hfront, outlineTerms_append hback hrs,
        ← applyAll_append]
      rfl

theorem outlineGlobal_append {ident : Ident}
    (harity : ∀ arity template, cfg.table.useSite ident = .expand arity template →
      arity ≤ args.length)
    (hconditional : ident = .prelude "ite" → 4 ≤ args.length) {r : Resolved}
    (hr : outlineGlobal cfg look ctx ident args = some r)
    (hrs : outlineTerms look ctx more = some rs) :
    outlineGlobal cfg look ctx ident (args ++ more) = some (r.applyAll rs) := by
  unfold outlineGlobal at hr ⊢
  split
  · rename_i hite
    rw [if_pos hite] at hr
    obtain ⟨ty, c, t, e, rest, rfl⟩ : ∃ ty c t e rest, args = ty :: c :: t :: e :: rest := by
      have hlength := hconditional hite
      match args with
      | ty :: c :: t :: e :: rest => exact ⟨ty, c, t, e, rest, rfl⟩
    obtain ⟨rc, hrc, hr⟩ := Option.bind_eq_some_iff.mp hr
    obtain ⟨rt, hrt, hr⟩ := Option.bind_eq_some_iff.mp hr
    obtain ⟨re, hre, hr⟩ := Option.bind_eq_some_iff.mp hr
    obtain ⟨front, hfront, hpure⟩ := Option.bind_eq_some_iff.mp hr
    cases hpure
    show outlineConditional look ctx c t e (rest ++ more) = _
    rw [outlineConditional, hrc, hrt, hre, outlineTerms_append hfront hrs, ← applyAll_append]
    rfl
  · rename_i hite
    rw [if_neg hite] at hr
    exact outlineIdent_append harity hr hrs

/-- A head that has all the arguments it needs takes in more of them. -/
theorem outlineSpine_append {head : TermId}
    (hneeded : (∃ f a, s.node head = .app f a) ∨ cfg.neededArgs s head ≤ args.length)
    {r : Resolved} (hr : outlineSpine cfg s known look ctx head args = some r)
    (hrs : outlineTerms look ctx more = some rs) :
    outlineSpine cfg s known look ctx head (args ++ more) = some (r.applyAll rs) := by
  unfold outlineSpine at hr ⊢
  unfold Config.neededArgs at hneeded
  cases hnode : s.node head with
  | global ident =>
      simp only [hnode] at hr hneeded ⊢
      have hneeded := hneeded.resolve_left (by simp)
      refine outlineGlobal_append (fun arity template hsite => ?_) (fun hite => ?_) hr hrs
      · simp only [hsite] at hneeded
        split at hneeded <;> omega
      · rw [if_pos hite] at hneeded
        omega
  | constant ident ty body =>
      simp only [hnode] at hr hneeded ⊢
      have hneeded := hneeded.resolve_left (by simp)
      unfold outlineConstant at hr ⊢
      split at hr
      · rename_i hdeclare
        rw [if_pos hdeclare]
        refine outlineIdent_append (fun arity template hsite => ?_) hr hrs
        rwa [hsite] at hneeded
      · cases hr
  | _ =>
      simp only [hnode] at hr ⊢
      obtain ⟨fn, hfn, hrest⟩ := Option.bind_eq_some_iff.mp hr
      obtain ⟨front, hfront, hpure⟩ := Option.bind_eq_some_iff.mp hrest
      cases hpure
      rw [hfn, outlineTerms_append hfront hrs, ← applyAll_append]
      rfl

end Append

/-! ## Nodes -/

section Nodes

variable {cfg : Config} {s : Store} {known : Ident → Bool} {f : Nat → Nat → Resolved}
  {A B : Context} {limit : TermId} {closed : Prop} {ok : Context → Prop}
  (htable : cfg.table.BindsNothing)
  (hm : Moves cfg s (cfg.outline s known) f A B limit closed ok)

include hm in
theorem isLifted_of_isLifted (q : Context) {c : TermId} (hlt : c < limit)
    (hc : Context.isLifted (q ++ B) c = true) : Context.isLifted (q ++ A) c = true := by
  unfold Context.isLifted at hc ⊢
  cases hq : q.lifted? c with
  | some k =>
      rw [Context.lifted?_append_of_some q A hq]
      rfl
  | none =>
      rw [Context.lifted?_append_of_none q B hq] at hc
      rw [Context.lifted?_append_of_none q A hq]
      cases hA : A.lifted? c with
      | some j => rfl
      | none =>
          rw [hm.unlifted hlt hA] at hc
          exact hc

include hm in
theorem shouldName_of_isLifted {q : Context} {c : TermId} (hlt : c < limit)
    (hA : Context.isLifted (q ++ A) c = true) (hB : Context.isLifted (q ++ B) c = false) :
    cfg.shouldName s c = true := by
  unfold Context.isLifted at hA hB
  cases hq : q.lifted? c with
  | some k =>
      rw [Context.lifted?_append_of_some q B hq] at hB
      cases hB
  | none =>
      rw [Context.lifted?_append_of_none q A hq, Option.isSome_map] at hA
      rw [Context.lifted?_append_of_none q B hq, Option.isSome_map] at hB
      exact hm.named hlt hA hB

/-- A named head takes its own arguments in when it loses its name. -/
theorem outlineSpine_of_head {ctx : Context} {head : TermId} {args : List TermId}
    (hhead : cfg.shouldName s head = true) (hlifted : ctx.isLifted head = false)
    {r : Resolved}
    (hr : outlineSpine cfg s known (cfg.outline s known) ctx head args = some r) :
    outlineSpine cfg s known (cfg.outline s known) ctx (s.spineOnto ctx.isLifted head args).1
      (s.spineOnto ctx.isLifted head args).2 = some r := by
  unfold Config.shouldName Store.isMemoizable at hhead
  simp only [Bool.and_eq_true] at hhead
  obtain ⟨⟨hmany, -⟩, hneeded⟩ := hhead
  by_cases happ : ∃ f a, s.node head = .app f a
  · obtain ⟨g, a, hnode⟩ := happ
    rw [outlineSpine, hnode] at hr
    obtain ⟨fn, hfn, hrest⟩ := Option.bind_eq_some_iff.mp hr
    obtain ⟨rs, hrs, hpure⟩ := Option.bind_eq_some_iff.mp hrest
    cases hpure
    have hnone : ctx.lifted? head = none := by
      simpa [Context.isLifted] using hlifted
    rw [outlineTerm, hnone] at hfn
    dsimp only at hfn
    rw [outline_eq, outlineStep, hnode] at hfn
    rw [spineOnto_eq_append]
    refine outlineSpine_append ?_ hfn hrs
    rcases spineUntil_app_or_eq (s := s) ctx.isLifted head with happ | heq
    · exact Or.inl happ
    · right
      rw [heq]
      simp only [Bool.or_eq_true, List.isEmpty_iff, decide_eq_true_eq] at hneeded
      rcases hneeded with hempty | hneeded
      · exact absurd hempty (spineUntil_ne_nil hnode _)
      · exact hneeded
  · rw [spineOnto]
    split
    · rename_i g a hnode
      exact absurd ⟨g, a, hnode⟩ happ
    · exact hr

include hm in
theorem moved_bound {q : Context} {i : Nat} (hi : closed → i < q.depth) :
    Moved f q.width ((Context.local? (q ++ A) i).map .bound)
      ((Context.local? (q ++ B) i).map .bound) := by
  intro r hr
  obtain ⟨k, hk, rfl⟩ := Option.map_eq_some_iff.mp hr
  by_cases hlt : i < q.depth
  · rw [Context.local?_append_of_lt q A hlt] at hk
    rw [Context.local?_append_of_lt q B hlt, hk]
    exact congrArg some (hm.below (Context.local?_lt hk)).symm
  · obtain ⟨j, rfl⟩ : ∃ j, i = j + q.depth := ⟨i - q.depth, by omega⟩
    rw [Context.local?_append_add] at hk
    obtain ⟨m, hA, rfl⟩ := Option.map_eq_some_iff.mp hk
    obtain ⟨m', hB, hf⟩ := hm.locals (fun hclosed => hlt (hi hclosed)) hA
    rw [Context.local?_append_add, hB]
    exact congrArg some (hf q.width).symm

include htable hm

theorem moved_app {q : Context} {id g a : TermId} (hnode : s.node id = .app g a)
    (hid : id ≤ limit) (hok : ok q) (hbound : closed → ∀ i ∈ s.looseVars id, i < q.depth)
    (hlook : ∀ q c, Inner s id closed ok q 0 c →
      Moved f q.width (cfg.outline s known (q ++ A) c) (cfg.outline s known (q ++ B) c)) :
    Moved f q.width (outlineApp cfg s known (cfg.outline s known) (q ++ A) id)
      (outlineApp cfg s known (cfg.outline s known) (q ++ B) id) := by
  intro r hr
  obtain ⟨hhead, hargs⟩ := s.strictlyWithin_spineUntil hnode (Context.isLifted (q ++ A))
  have hspine := moved_spine hm hid hlook htable (inner_of_strictlyWithin hok hbound hhead)
    (fun b hb => inner_of_strictlyWithin hok hbound (hargs b hb)) r hr
  have hlt : (s.spineUntil (Context.isLifted (q ++ A)) id).1 < limit :=
    lt_of_lt_of_le hhead.2 hid
  rw [outlineApp]
  rcases spineUntil_eq_or_extends (s := s)
      (fun c hc => isLifted_of_isLifted hm q (lt_of_lt_of_le hc hid)) with
    hsame | ⟨hstop, hstop', hextends⟩
  · rw [hsame]
    exact hspine
  · rw [hextends]
    exact outlineSpine_of_head (shouldName_of_isLifted hm hlt hstop hstop') hstop' hspine

theorem moved_step {q : Context} {id : TermId} (hid : id ≤ limit) (hok : ok q)
    (hbound : closed → ∀ i ∈ s.looseVars id, i < q.depth)
    (hlook : ∀ q c, Inner s id closed ok q 0 c →
      Moved f q.width (cfg.outline s known (q ++ A) c) (cfg.outline s known (q ++ B) c)) :
    Moved f q.width (outlineStep cfg s known (cfg.outline s known) (q ++ A) id)
      (outlineStep cfg s known (cfg.outline s known) (q ++ B) id) := by
  have hpart : ∀ {c d}, (c, d) ∈ (s.node id).childrenWithDepth → Inner s id closed ok q d c :=
    fun hc => inner_of_strictlyWithin hok hbound (strictlyWithin_part hc)
  have hnil : ∀ a ∈ ([] : List TermId), Inner s id closed ok q 0 a :=
    fun a ha => absurd ha List.not_mem_nil
  unfold outlineStep
  cases hnode : s.node id with
  | global ident => exact moved_ident hm hid hlook htable ident hnil
  | constant ident ty body => exact moved_constant hm hid hlook htable ident ty body hnil
  | bound i =>
      have hi : i ∈ s.looseVars id := by simp [looseVars_of_node_bound hnode]
      exact moved_bound hm fun hclosed => hbound hclosed i hi
  | free | sort | nat | string | bool | unit | unitType =>
      intro r hr
      cases hr
      rfl
  | fix x ty body => exact fun r hr => nomatch hr
  | app g a => exact moved_app htable hm hnode hid hok hbound hlook
  | pair a b | pairType a b =>
      rw [hnode] at hpart
      refine moved_named hm hid hlook _ fun c hc => ?_
      rcases List.mem_pair.mp hc with rfl | rfl <;>
        exact hpart (by simp [Node.childrenWithDepth])
  | pairLeft a | pairRight a =>
      rw [hnode] at hpart
      refine moved_named hm hid hlook _ fun c hc => ?_
      rw [List.mem_singleton.mp hc]
      exact hpart (by simp [Node.childrenWithDepth])
  | recordType fields | record fields =>
      rw [hnode] at hpart
      refine moved_record hm hid hlook _ _ fun p hp => hpart ?_
      simp only [Node.childrenWithDepth, List.mem_map]
      exact ⟨p, hp, rfl⟩
  | proj c field =>
      rw [hnode] at hpart
      exact moved_proj hm hid hlook (hpart (by simp [Node.childrenWithDepth])) field
  | array elemType elems =>
      rw [hnode] at hpart
      refine moved_array hm hid hlook elemType fun c hc => hpart ?_
      simp [Node.childrenWithDepth, hc]
  | data ident params rest | ctor ident params rest =>
      rw [hnode] at hpart
      refine moved_ident hm hid hlook htable ident fun c hc => hpart ?_
      simpa [Node.childrenWithDepth] using List.mem_append.mp hc
  | recursor datatype params motive order cases =>
      rw [hnode] at hpart
      refine moved_recursor hm hid hlook datatype order (fun c hc => hpart ?_) (hpart ?_)
        fun p hp => hpart ?_
      · simp [Node.childrenWithDepth, hc]
      · simp [Node.childrenWithDepth]
      · simp only [Node.childrenWithDepth, List.mem_append, List.mem_cons, List.mem_map]
        exact Or.inr (Or.inr ⟨p, hp, rfl⟩)
  | lam x ty body =>
      rw [hnode] at hpart
      exact moved_lam hm hid hlook (hpart (by simp [Node.childrenWithDepth]))
        (hpart (by simp [Node.childrenWithDepth]))
  | pi x ty body =>
      rw [hnode] at hpart
      exact moved_pi hm hid hlook (hpart (by simp [Node.childrenWithDepth]))
        (hpart (by simp [Node.childrenWithDepth]))
  | letIn x ty value body =>
      rw [hnode] at hpart
      exact moved_let hm hid hlook (hpart (by simp [Node.childrenWithDepth]))
        (hpart (by simp [Node.childrenWithDepth])) (hpart (by simp [Node.childrenWithDepth]))

/-- The outline of a node in one context is the outline in the other one with the
references past the inner binders replaced. -/
theorem moved_outline {id : TermId} (hid : id ≤ limit) :
    ∀ {q : Context}, ok q → (closed → ∀ i ∈ s.looseVars id, i < q.depth) →
      Moved f q.width (cfg.outline s known (q ++ A) id) (cfg.outline s known (q ++ B) id) := by
  induction id using Nat.strong_induction_on with
  | _ id ih =>
      intro q hok hbound
      rw [outline_eq, outline_eq]
      exact moved_step htable hm hid hok hbound fun q' c hc =>
        ih c hc.lt ((le_of_lt hc.lt).trans hid) hc.ok hc.bound

end Nodes

end TermGraph
