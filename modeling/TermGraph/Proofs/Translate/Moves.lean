import Mathlib
import TermGraph.Proofs.Translate.Names
import TermGraph.Proofs.Translate.Outline

/-!
# Outlines that change with their context

What a term is outlined as changes with the context around it in a uniform way: if
one outer context takes the place of another, the outline changes by a replacement of
the references past the inner binders.  Here this is shown of each way to put the
outlines of parts together, given that it holds of the parts.
-/

namespace TermGraph

open Target Store Target.Resolved

/-- How references change when the outer context `A` is replaced by `B`: inner
references stay, variables keep their binders, and a named subterm becomes what it is
outlined as in the new context.  Where terms are closed, their variables do not reach
the outer context at all. -/
structure Moves (cfg : Config) (s : Store) (look : Outliner) (f : Nat → Nat → Resolved)
    (A B : Context) (limit : TermId) (closed : Prop) (ok : Context → Prop) : Prop where
  below : ∀ {d i}, i < d → f d i = .bound i
  locals : ¬ closed → ∀ {i j}, A.local? i = some j →
    ∃ j', B.local? i = some j' ∧ ∀ d, f d (j + d) = .bound (j' + d)
  lifted : ∀ {q c j}, ok q → c < limit → q.lifted? c = none → A.lifted? c = some j →
    outlineTerm look (q ++ B) c = some (f q.width (j + q.width))
  unlifted : ∀ {c}, c < limit → A.lifted? c = none → B.lifted? c = none
  named : ∀ {c}, c < limit → A.isLifted c = true → B.isLifted c = false →
    cfg.shouldName s c = true
  push : ∀ {q}, ok q → ok (.named :: q) ∧ ok (.extra :: q) ∧ ok (.unnamed :: q)

/-- A term inside `depth` more binders of an inner context. -/
structure Inner (s : Store) (id : TermId) (closed : Prop) (ok : Context → Prop)
    (q : Context) (depth : Nat) (c : TermId) : Prop where
  lt : c < id
  ok : ok q
  bound : closed → ∀ i, i + depth ∈ s.looseVars c → i < q.depth

/-- An outline that changes by a replacement of references. -/
def Moved (f : Nat → Nat → Resolved) (d : Nat) (r? r'? : Option Resolved) : Prop :=
  ∀ r, r? = some r → r'? = some (r.mapBound f d)

section Inner

variable {cfg : Config} {s : Store} {look : Outliner} {f : Nat → Nat → Resolved}
  {A B : Context} {limit id c : TermId} {closed : Prop} {ok : Context → Prop} {q : Context}
  {depth : Nat} (hm : Moves cfg s look f A B limit closed ok)

theorem Inner.within {d : Nat} {b : TermId} (h : Inner s id closed ok q 0 c)
    (hb : s.Within c d b) : Inner s id closed ok q d b where
  lt := lt_of_le_of_lt hb.reaches.le h.lt
  ok := h.ok
  bound := fun hclosed i hi => h.bound hclosed i (hb.mem_looseVars hi)

include hm

theorem Inner.named (h : Inner s id closed ok q (depth + 1) c) :
    Inner s id closed ok (.named :: q) depth c where
  lt := h.lt
  ok := (hm.push h.ok).1
  bound := fun hclosed i hi => by
    cases i with
    | zero => exact Nat.succ_pos _
    | succ i =>
        refine Nat.succ_lt_succ (h.bound hclosed i ?_)
        rwa [Nat.add_comm depth 1, ← Nat.add_assoc]

theorem Inner.unnamed (h : Inner s id closed ok q 1 c) :
    Inner s id closed ok (.unnamed :: q) 0 c where
  lt := h.lt
  ok := (hm.push h.ok).2.2
  bound := fun hclosed i hi => by
    cases i with
    | zero => exact Nat.succ_pos _
    | succ i => exact Nat.succ_lt_succ (h.bound hclosed i hi)

theorem Inner.extras (h : Inner s id closed ok q depth c) (m : Nat) :
    Inner s id closed ok (List.replicate m .extra ++ q) depth c where
  lt := h.lt
  ok := by
    induction m with
    | zero => exact h.ok
    | succ m ih => exact (hm.push ih).2.1
  bound := fun hclosed i hi => by
    rw [Context.depth_replicate_extra]
    exact h.bound hclosed i hi

theorem Inner.insideBinder (h : Inner s id closed ok q (depth + 1) c) (ty : TermId) :
    Inner s id closed ok (insideBinder s q ty) depth c :=
  (h.named hm).extras hm _

omit hm

theorem inner_of_strictlyWithin {d : Nat} (hok : ok q)
    (hbound : closed → ∀ i ∈ s.looseVars id, i < q.depth) (hc : s.StrictlyWithin id d c) :
    Inner s id closed ok q d c where
  lt := hc.2
  ok := hok
  bound := fun hclosed i hi => hbound hclosed i (hc.1.mem_looseVars hi)

end Inner

theorem moved_mapM {α : Type} {f : Nat → Nat → Resolved} {d : Nat}
    {m m' : α → Option Resolved} {xs : List α} (h : ∀ x ∈ xs, Moved f d (m x) (m' x))
    {rs : List Resolved} (hrs : xs.mapM m = some rs) :
    xs.mapM m' = some (rs.map (mapBound f d)) := by
  induction xs generalizing rs with
  | nil =>
      cases hrs
      rfl
  | cons x xs ih =>
      rw [List.mapM_cons] at hrs ⊢
      obtain ⟨r, hr, htail⟩ := Option.bind_eq_some_iff.mp hrs
      obtain ⟨rest, hrest, hpure⟩ := Option.bind_eq_some_iff.mp htail
      cases hpure
      rw [h x (by simp) r hr, ih (fun y hy => h y (by simp [hy])) hrest]
      rfl

theorem insideBinder_append (s : Store) (q outer : Context) (ty : TermId) :
    insideBinder s (q ++ outer) ty = insideBinder s q ty ++ outer := by
  rw [insideBinder, insideBinder, List.append_assoc, List.cons_append]

section Moved

variable {cfg : Config} {s : Store} {known : Ident → Bool} {look : Outliner}
  {f : Nat → Nat → Resolved} {A B : Context} {limit id : TermId} {closed : Prop}
  {ok : Context → Prop}
  (hm : Moves cfg s look f A B limit closed ok) (hid : id ≤ limit)
  (hlook : ∀ q c, Inner s id closed ok q 0 c →
    Moved f q.width (look (q ++ A) c) (look (q ++ B) c))

include hm hid hlook

theorem moved_term {q : Context} {c : TermId} (hc : Inner s id closed ok q 0 c) :
    Moved f q.width (outlineTerm look (q ++ A) c) (outlineTerm look (q ++ B) c) := by
  intro r hr
  have hlt : c < limit := lt_of_lt_of_le hc.lt hid
  cases hq : q.lifted? c with
  | some k =>
      rw [outlineTerm, Context.lifted?_append_of_some q A hq] at hr
      rw [outlineTerm, Context.lifted?_append_of_some q B hq]
      cases hr
      exact congrArg some (hm.below (Context.lifted?_lt hq)).symm
  | none =>
      cases hA : A.lifted? c with
      | some j =>
          rw [outlineTerm, Context.lifted?_append_of_none q A hq, hA] at hr
          cases hr
          exact hm.lifted hc.ok hlt hq hA
      | none =>
          have hnone : Context.lifted? (q ++ A) c = none := by
            rw [Context.lifted?_append_of_none q A hq, hA]
            rfl
          have hnone' : Context.lifted? (q ++ B) c = none := by
            rw [Context.lifted?_append_of_none q B hq, hm.unlifted hlt hA]
            rfl
          rw [outlineTerm, hnone] at hr
          rw [outlineTerm, hnone']
          exact hlook q c hc r hr

theorem moved_terms {q : Context} {args : List TermId}
    (hargs : ∀ a ∈ args, Inner s id closed ok q 0 a) {rs : List Resolved}
    (hrs : outlineTerms look (q ++ A) args = some rs) :
    outlineTerms look (q ++ B) args = some (rs.map (mapBound f q.width)) :=
  moved_mapM (fun a ha => moved_term hm hid hlook (hargs a ha)) hrs

/-! ## Binders -/

theorem moved_domains {domains : List TermId} :
    ∀ {q : Context}, (∀ j d, domains[j]? = some d → Inner s id closed ok q j d) →
      ∀ {bs}, outlineDomains look (q ++ A) domains = some bs →
        outlineDomains look (q ++ B) domains = some (mapBinders f q.width bs) ∧
          bs.length = domains.length := by
  induction domains with
  | nil =>
      intro q _ bs hbs
      cases hbs
      exact ⟨rfl, rfl⟩
  | cons d rest ih =>
      intro q hinner bs hbs
      rw [outlineDomains] at hbs ⊢
      obtain ⟨r, hr, hrest⟩ := Option.bind_eq_some_iff.mp hbs
      obtain ⟨bs', hbs', hpure⟩ := Option.bind_eq_some_iff.mp hrest
      cases hpure
      have hd := moved_term hm hid hlook (hinner 0 d rfl) r hr
      obtain ⟨hmoved, hlength⟩ := ih (q := .named :: q)
        (fun j d' hd' => (hinner (j + 1) d' hd').named hm) hbs'
      rw [List.cons_append] at hmoved
      rw [hd, hmoved]
      exact ⟨rfl, congrArg (· + 1) hlength⟩

theorem moved_hypothesis {q : Context} {ty : TermId} (hty : Inner s id closed ok q 0 ty)
    {param : Nat} (hparam : param < q.width) (cls : String) :
    Moved f q.width (outlineHypothesis s look (q ++ A) param ty cls)
      (outlineHypothesis s look (q ++ B) param ty cls) := by
  intro r hr
  rw [outlineHypothesis] at hr ⊢
  obtain ⟨bs, hbs, hpure⟩ := Option.bind_eq_some_iff.mp hr
  cases hpure
  have hdomains : ∀ (j : Nat) (d : TermId), ((s.piChain ty).1.map (·.2))[j]? = some d →
      Inner s id closed ok q j d := by
    intro j d hd
    rw [List.getElem?_map, Option.map_eq_some_iff] at hd
    obtain ⟨p, hp, rfl⟩ := hd
    exact hty.within ((s.within_piChain ty).1 j p hp).1
  obtain ⟨hmoved, hlength⟩ := moved_domains hm hid hlook hdomains hbs
  have hargs : ((List.range ((s.piChain ty).1.map (·.2)).length).reverse.map
      Resolved.bound).map (mapBound f (q.width + bs.length)) =
      (List.range ((s.piChain ty).1.map (·.2)).length).reverse.map Resolved.bound := by
    rw [List.map_map]
    refine List.map_congr_left fun i hi => ?_
    rw [List.mem_reverse, List.mem_range, ← hlength] at hi
    exact hm.below (by omega)
  have hhead : f (q.width + bs.length) (param + ((s.piChain ty).1.map (·.2)).length) =
      .bound (param + ((s.piChain ty).1.map (·.2)).length) :=
    hm.below (by rw [← hlength]; omega)
  rw [hmoved, mapBound_pis, mapBound, mapBound, mapBound_applyAll, hargs, mapBound, hhead]
  rfl

theorem moved_hypotheses {q : Context} {ty : TermId} (hty : Inner s id closed ok q 0 ty)
    {classes : List String} :
    ∀ {count bs}, outlineHypotheses s look (q ++ A) ty count classes = some bs →
      outlineHypotheses s look (q ++ B) ty count classes =
          some (mapBinders f (q.width + (count + 1)) bs) ∧
        bs.length = classes.length := by
  induction classes with
  | nil =>
      intro count bs hbs
      cases hbs
      exact ⟨rfl, rfl⟩
  | cons cls rest ih =>
      intro count bs hbs
      rw [outlineHypotheses] at hbs ⊢
      obtain ⟨r, hr, hrest⟩ := Option.bind_eq_some_iff.mp hbs
      obtain ⟨bs', hbs', hpure⟩ := Option.bind_eq_some_iff.mp hrest
      cases hpure
      have hwidth : Context.width (List.replicate (count + 1) .extra ++ q) =
          q.width + (count + 1) := Context.width_replicate_extra (count + 1)
      have hparam : count < Context.width (List.replicate (count + 1) .extra ++ q) := by
        rw [hwidth]
        omega
      have hmoved := moved_hypothesis hm hid hlook (hty.extras hm (count + 1)) hparam cls r
        (by rw [List.append_assoc]; exact hr)
      obtain ⟨hmoved', hlength⟩ := ih hbs'
      rw [List.append_assoc, hwidth] at hmoved
      rw [hmoved, hmoved']
      exact ⟨rfl, congrArg (· + 1) hlength⟩

theorem moved_binder {q : Context} {ty : TermId} (hty : Inner s id closed ok q 0 ty)
    {bs : List (Bool × Resolved)} (hbs : outlineBinder s look (q ++ A) ty = some bs) :
    outlineBinder s look (q ++ B) ty = some (mapBinders f q.width bs) ∧
      (insideBinder s q ty).width = q.width + bs.length := by
  rw [outlineBinder] at hbs ⊢
  obtain ⟨r, hr, hrest⟩ := Option.bind_eq_some_iff.mp hbs
  obtain ⟨bs', hbs', hpure⟩ := Option.bind_eq_some_iff.mp hrest
  cases hpure
  have hmoved := moved_term hm hid hlook hty r hr
  obtain ⟨hmoved', hlength⟩ := moved_hypotheses hm hid hlook hty hbs'
  rw [hmoved, hmoved']
  refine ⟨rfl, ?_⟩
  rw [insideBinder, Context.width_replicate_extra, List.length_cons, hlength]
  show q.width + 1 + _ = _
  omega

theorem moved_lam {q : Context} {ty b : TermId} (hty : Inner s id closed ok q 0 ty)
    (hb : Inner s id closed ok q 1 b) :
    Moved f q.width (outlineLam s look (q ++ A) ty b) (outlineLam s look (q ++ B) ty b) := by
  intro r hr
  rw [outlineLam] at hr ⊢
  obtain ⟨bs, hbs, hrest⟩ := Option.bind_eq_some_iff.mp hr
  obtain ⟨rb, hrb, hpure⟩ := Option.bind_eq_some_iff.mp hrest
  cases hpure
  obtain ⟨hmoved, hwidth⟩ := moved_binder hm hid hlook hty hbs
  rw [insideBinder_append] at hrb ⊢
  have hbody := moved_term hm hid hlook (hb.insideBinder hm ty) rb hrb
  rw [hmoved, hbody, hwidth, mapBound_lams]
  rfl

theorem moved_pi {q : Context} {ty b : TermId} (hty : Inner s id closed ok q 0 ty)
    (hb : Inner s id closed ok q 1 b) :
    Moved f q.width (outlinePi s look (q ++ A) ty b) (outlinePi s look (q ++ B) ty b) := by
  intro r hr
  unfold outlinePi at hr ⊢
  split at hr
  · rename_i huse
    rw [if_pos huse]
    obtain ⟨bs, hbs, hrest⟩ := Option.bind_eq_some_iff.mp hr
    obtain ⟨rb, hrb, hpure⟩ := Option.bind_eq_some_iff.mp hrest
    cases hpure
    obtain ⟨hmoved, hwidth⟩ := moved_binder hm hid hlook hty hbs
    rw [insideBinder_append] at hrb ⊢
    have hbody := moved_term hm hid hlook (hb.insideBinder hm ty) rb hrb
    rw [hmoved, hbody, hwidth, mapBound_pis]
    rfl
  · rename_i huse
    rw [if_neg huse]
    obtain ⟨rty, hrty, hrest⟩ := Option.bind_eq_some_iff.mp hr
    obtain ⟨rb, hrb, hpure⟩ := Option.bind_eq_some_iff.mp hrest
    cases hpure
    have htype := moved_term hm hid hlook hty rty hrty
    have hbody := moved_term hm hid hlook (hb.unnamed hm) rb hrb
    rw [List.cons_append] at hbody
    rw [htype, hbody]
    rfl

theorem moved_let {q : Context} {ty value b : TermId} (hty : Inner s id closed ok q 0 ty)
    (hvalue : Inner s id closed ok q 0 value) (hb : Inner s id closed ok q 1 b) :
    Moved f q.width (outlineLet look (q ++ A) ty value b)
      (outlineLet look (q ++ B) ty value b) := by
  intro r hr
  rw [outlineLet] at hr ⊢
  obtain ⟨rty, hrty, hrest⟩ := Option.bind_eq_some_iff.mp hr
  obtain ⟨rv, hrv, hrest⟩ := Option.bind_eq_some_iff.mp hrest
  obtain ⟨rb, hrb, hpure⟩ := Option.bind_eq_some_iff.mp hrest
  cases hpure
  have htype := moved_term hm hid hlook hty rty hrty
  have hvalue := moved_term hm hid hlook hvalue rv hrv
  have hbody := moved_term hm hid hlook (hb.named hm) rb hrb
  rw [List.cons_append] at hbody
  rw [htype, hvalue, hbody]
  rfl

/-! ## Names and applications -/

theorem moved_ident (htable : cfg.table.BindsNothing) {q : Context} (ident : Ident)
    {args : List TermId} (hargs : ∀ a ∈ args, Inner s id closed ok q 0 a) :
    Moved f q.width (outlineIdent cfg look (q ++ A) ident args)
      (outlineIdent cfg look (q ++ B) ident args) := by
  intro r hr
  unfold outlineIdent at hr ⊢
  split at hr
  · obtain ⟨rs, hrs, hpure⟩ := Option.bind_eq_some_iff.mp hr
    cases hpure
    rw [moved_terms hm hid hlook hargs hrs, mapBound_applyAll]
    rfl
  · obtain ⟨rs, hrs, hpure⟩ := Option.bind_eq_some_iff.mp hr
    cases hpure
    rw [moved_terms hm hid hlook hargs hrs, mapBound_applyAll]
    split <;> rfl
  · rename_i arity template hsite
    split at hr
    · cases hr
    · rename_i hlength
      rw [if_neg hlength]
      obtain ⟨front, hfront, hrest⟩ := Option.bind_eq_some_iff.mp hr
      obtain ⟨back, hback, hpure⟩ := Option.bind_eq_some_iff.mp hrest
      cases hpure
      have hfront' := moved_terms hm hid hlook
        (fun a ha => hargs a (List.mem_of_mem_take ha)) hfront
      have hback' := moved_terms hm hid hlook
        (fun a ha => hargs a (List.mem_of_mem_drop ha)) hback
      rw [hfront', hback', mapBound_applyAll,
        Template.mapBound_outline _ (htable ident arity template hsite)]
      rfl

theorem moved_constant (htable : cfg.table.BindsNothing) {q : Context} (ident : Ident)
    (ty : TermId) (body : Option TermId) {args : List TermId}
    (hargs : ∀ a ∈ args, Inner s id closed ok q 0 a) :
    Moved f q.width (outlineConstant cfg s known look (q ++ A) ident ty body args)
      (outlineConstant cfg s known look (q ++ B) ident ty body args) := by
  intro r hr
  unfold outlineConstant at hr ⊢
  split at hr
  · rename_i hdeclare
    rw [if_pos hdeclare]
    exact moved_ident hm hid hlook htable ident hargs r hr
  · cases hr

theorem moved_named {q : Context} (head : String) {args : List TermId}
    (hargs : ∀ a ∈ args, Inner s id closed ok q 0 a) :
    Moved f q.width (outlineNamed look (q ++ A) head args)
      (outlineNamed look (q ++ B) head args) := by
  intro r hr
  rw [outlineNamed] at hr ⊢
  obtain ⟨rs, hrs, hpure⟩ := Option.bind_eq_some_iff.mp hr
  cases hpure
  rw [moved_terms hm hid hlook hargs hrs, mapBound_applyAll]
  rfl

theorem moved_conditional {q : Context} {c t e : TermId} {rest : List TermId}
    (hc : Inner s id closed ok q 0 c) (ht : Inner s id closed ok q 0 t)
    (he : Inner s id closed ok q 0 e) (hrest : ∀ a ∈ rest, Inner s id closed ok q 0 a) :
    Moved f q.width (outlineConditional look (q ++ A) c t e rest)
      (outlineConditional look (q ++ B) c t e rest) := by
  intro r hr
  rw [outlineConditional] at hr ⊢
  obtain ⟨rc, hrc, hr⟩ := Option.bind_eq_some_iff.mp hr
  obtain ⟨rt, hrt, hr⟩ := Option.bind_eq_some_iff.mp hr
  obtain ⟨re, hre, hr⟩ := Option.bind_eq_some_iff.mp hr
  obtain ⟨rs, hrs, hpure⟩ := Option.bind_eq_some_iff.mp hr
  cases hpure
  rw [moved_term hm hid hlook hc rc hrc, moved_term hm hid hlook ht rt hrt,
    moved_term hm hid hlook he re hre, moved_terms hm hid hlook hrest hrs, mapBound_applyAll]
  rfl

theorem moved_global (htable : cfg.table.BindsNothing) {q : Context} (ident : Ident)
    {args : List TermId} (hargs : ∀ a ∈ args, Inner s id closed ok q 0 a) :
    Moved f q.width (outlineGlobal cfg look (q ++ A) ident args)
      (outlineGlobal cfg look (q ++ B) ident args) := by
  unfold outlineGlobal
  split
  · split
    · rename_i ty c t e rest
      simp only [List.mem_cons, forall_eq_or_imp] at hargs
      obtain ⟨_, hc, ht, he, hrest⟩ := hargs
      exact moved_conditional hm hid hlook hc ht he hrest
    · exact moved_ident hm hid hlook htable ident hargs
  · exact moved_ident hm hid hlook htable ident hargs

theorem moved_spine (htable : cfg.table.BindsNothing) {q : Context} {head : TermId}
    {args : List TermId} (hhead : Inner s id closed ok q 0 head)
    (hargs : ∀ a ∈ args, Inner s id closed ok q 0 a) :
    Moved f q.width (outlineSpine cfg s known look (q ++ A) head args)
      (outlineSpine cfg s known look (q ++ B) head args) := by
  unfold outlineSpine
  split
  · exact moved_global hm hid hlook htable _ hargs
  · exact moved_constant hm hid hlook htable _ _ _ hargs
  · intro r hr
    obtain ⟨fn, hfn, hrest⟩ := Option.bind_eq_some_iff.mp hr
    obtain ⟨rs, hrs, hpure⟩ := Option.bind_eq_some_iff.mp hrest
    cases hpure
    rw [moved_term hm hid hlook hhead fn hfn, moved_terms hm hid hlook hargs hrs,
      mapBound_applyAll]
    rfl

/-! ## Data -/

theorem moved_fields {q : Context} (cons nil : String) {fields : List (String × TermId)}
    (hfields : ∀ p ∈ fields, Inner s id closed ok q 0 p.2) :
    Moved f q.width (outlineFields look (q ++ A) cons nil fields)
      (outlineFields look (q ++ B) cons nil fields) := by
  induction fields with
  | nil =>
      intro r hr
      cases hr
      rfl
  | cons p rest ih =>
      intro r hr
      rw [outlineFields] at hr ⊢
      obtain ⟨value, hvalue, hrest⟩ := Option.bind_eq_some_iff.mp hr
      obtain ⟨tail, htail, hpure⟩ := Option.bind_eq_some_iff.mp hrest
      cases hpure
      rw [moved_term hm hid hlook (hfields p (by simp)) value hvalue,
        ih (fun p' hp' => hfields p' (by simp [hp'])) tail htail, mapBound_applyAll]
      rfl

theorem moved_record {q : Context} (cons nil : String) {fields : List (String × TermId)}
    (hfields : ∀ p ∈ fields, Inner s id closed ok q 0 p.2) :
    Moved f q.width (outlineRecord look (q ++ A) cons nil fields)
      (outlineRecord look (q ++ B) cons nil fields) :=
  moved_fields hm hid hlook cons nil fun p hp => hfields p (List.mem_mergeSort.mp hp)

theorem moved_proj {q : Context} {c : TermId} (hc : Inner s id closed ok q 0 c)
    (field : String) :
    Moved f q.width (outlineProj look (q ++ A) c field)
      (outlineProj look (q ++ B) c field) := by
  intro r hr
  rw [outlineProj] at hr ⊢
  obtain ⟨rc, hrc, hpure⟩ := Option.bind_eq_some_iff.mp hr
  cases hpure
  rw [moved_term hm hid hlook hc rc hrc, mapBound_applyAll]
  rfl

theorem moved_array {q : Context} (elemType : TermId) {elems : List TermId}
    (helems : ∀ c ∈ elems, Inner s id closed ok q 0 c) :
    Moved f q.width (outlineArray cfg s look (q ++ A) elemType elems)
      (outlineArray cfg s look (q ++ B) elemType elems) := by
  intro r hr
  unfold outlineArray at hr ⊢
  split at hr
  · cases hr
    rw [mapBound_applyAll]
    rfl
  · obtain ⟨rs, hrs, hpure⟩ := Option.bind_eq_some_iff.mp hr
    cases hpure
    rw [moved_terms hm hid hlook helems hrs, mapBound_applyAll, List.map_singleton,
      mapBound_ofList]
    rfl

theorem moved_case {q : Context} {cases : List (Ident × TermId)}
    (hcases : ∀ p ∈ cases, Inner s id closed ok q 0 p.2) (ctor : Ident) :
    Moved f q.width (outlineCase cfg look (q ++ A) cases ctor)
      (outlineCase cfg look (q ++ B) cases ctor) := by
  unfold outlineCase
  split
  · rename_i p hp
    exact moved_term hm hid hlook (hcases p (List.mem_of_find?_eq_some hp))
  · intro r hr
    split at hr
    · cases hr
    · rename_i hlenient
      cases hr
      rw [if_neg hlenient, mapBound_applyAll]
      rfl

theorem moved_recursor {q : Context} (datatype : Ident) {params : List TermId}
    {motive : TermId} (order : List Ident) {cases : List (Ident × TermId)}
    (hparams : ∀ p ∈ params, Inner s id closed ok q 0 p)
    (hmotive : Inner s id closed ok q 0 motive)
    (hcases : ∀ p ∈ cases, Inner s id closed ok q 0 p.2) :
    Moved f q.width (outlineRecursor cfg look (q ++ A) datatype params motive order cases)
      (outlineRecursor cfg look (q ++ B) datatype params motive order cases) := by
  intro r hr
  rw [outlineRecursor] at hr ⊢
  obtain ⟨target, htarget, hr⟩ := Option.bind_eq_some_iff.mp hr
  obtain ⟨rps, hrps, hr⟩ := Option.bind_eq_some_iff.mp hr
  obtain ⟨rm, hrm, hr⟩ := Option.bind_eq_some_iff.mp hr
  obtain ⟨rcs, hrcs, hpure⟩ := Option.bind_eq_some_iff.mp hr
  cases hpure
  have hmoved := moved_mapM
    (fun ctor _ => moved_case hm hid hlook hcases ctor) hrcs
  rw [htarget, moved_terms hm hid hlook hparams hrps, moved_term hm hid hlook hmotive rm hrm,
    hmoved, mapBound_applyAll, List.map_append, List.map_cons]
  rfl

end Moved

end TermGraph
