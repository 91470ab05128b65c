import Mathlib
import TermGraph.Proofs.Translate.Step

/-!
# Nodes that have an outline are translated

If the parts of a node are translated wherever they have an outline, so is the node.
What a first computation leaves behind for the next one, a scope that fits the context
inside, is known from what it ensures; `known'` are the constants that the outlines
here take as known.
-/

namespace TermGraph

open Target Store

/-- What is asked of a term that has an outline: it is translated in every scope that
fits a context. -/
def SucceedsAt (cfg : Config) (s : Store) (look : Outliner) (I : Emission → Prop)
    (render : Render) (id : TermId) : Prop :=
  ∀ avoid P scope ctx names r, Safe cfg s avoid P id → Spells avoid id scope ctx names →
    ctx.Covers (s.looseVars id) → look ctx id = some r → Succeeds I (render scope id)

theorem exists_of_mapM_eq_some {α β : Type} {f : α → Option β} {xs : List α} {ys : List β}
    (h : xs.mapM f = some ys) : ∀ x ∈ xs, ∃ y, f x = some y := by
  induction xs generalizing ys with
  | nil => exact fun x hx => absurd hx List.not_mem_nil
  | cons x xs ih =>
      rw [List.mapM_cons] at h
      obtain ⟨y, hy, htail⟩ := Option.bind_eq_some_iff.mp h
      obtain ⟨rest, hrest, _⟩ := Option.bind_eq_some_iff.mp htail
      intro x' hx'
      rcases List.mem_cons.mp hx' with rfl | hx'
      · exact ⟨y, hy⟩
      · exact ih hrest x' hx'

section Binders

variable {cfg : Config} {s : Store} {look look' : Outliner} {render : Render}
  {I : Emission → Prop} {R : Emission → Emission → Prop}
  {avoid : String → Prop} {P : List String → String → Prop} {top limit : TermId}
  (hR : Composes I R) (hsafe : Safe cfg s avoid P top)
  (hrender : ∀ c < limit, s.Reaches top c → RendersAt cfg s look I R render c)
  (hsucceed : ∀ c < limit, s.Reaches top c → SucceedsAt cfg s look' I render c)
  {scope : Scope} {ctx : Context} {names : List String}

include hsafe hsucceed in
theorem succeeds_term (hsp : Spells avoid limit scope ctx names) {c : TermId}
    (hc : Usable s top limit ctx 0 c) {r : Resolved}
    (hr : outlineTerm look' ctx c = some r) : Succeeds I (translateTerm render scope c) := by
  unfold translateTerm
  rw [hsp.shared c hc.lt]
  cases hx : ctx.liftedName? names c with
  | some x => exact succeeds_pure _
  | none =>
      rw [outlineTerm, Context.liftedName?_eq_none hsp.spelled hx] at hr
      exact hsucceed c hc.lt hc.reaches avoid P scope ctx names r
        (hsafe.of_reaches hc.reaches) (hsp.mono (le_of_lt hc.lt)) hc.covered hr

include hR hsafe hrender hsucceed

theorem succeeds_terms (hsp : Spells avoid limit scope ctx names) {args : List TermId}
    (hargs : ∀ a ∈ args, Usable s top limit ctx 0 a) {rs : List Resolved}
    (hrs : outlineTerms look' ctx args = some rs) :
    Succeeds I (translateTerms render scope args) := by
  refine succeeds_mapM hR (fun a ha => ?_)
    fun a ha => ensures_term hR hsafe hrender hsp (hargs a ha)
  obtain ⟨r, hr⟩ := exists_of_mapM_eq_some hrs a ha
  exact succeeds_term hsafe hsucceed hsp (hargs a ha) hr

theorem succeeds_bindDomains (domains : List (String × TermId)) :
    ∀ {scope ctx names bs}, Spells avoid limit scope ctx names →
      (∀ j p, domains[j]? = some p → Usable s top limit ctx j p.2) →
      outlineDomains look' ctx (domains.map (·.2)) = some bs →
      Succeeds I (bindDomains render scope domains) := by
  induction domains with
  | nil => exact fun _ _ _ => succeeds_pure _
  | cons p rest ih =>
      obtain ⟨x, d⟩ := p
      intro scope ctx names bs hsp husable hbs
      obtain ⟨r, hr, htail⟩ := Option.bind_eq_some_iff.mp hbs
      obtain ⟨bs', hbs', _⟩ := Option.bind_eq_some_iff.mp htail
      have hd := husable 0 (x, d) rfl
      obtain ⟨hsp', hfresh⟩ := hsp.fresh x
      have hrest : ∀ j p, rest[j]? = some p → Usable s top limit (.named :: ctx) j p.2 :=
        fun j p hp => (husable (j + 1) p hp).named
      rw [bindDomains]
      refine succeeds_bind hR (succeeds_term hsafe hsucceed hsp hd hr)
        (ensures_term hR hsafe hrender hsp hd) fun type _ => ?_
      exact succeeds_bind hR (ih (hsp'.named hfresh) hrest hbs')
        (ensures_bindDomains hR hsafe hrender rest (hsp'.named hfresh) hrest)
        fun b _ => succeeds_pure _

theorem succeeds_hypothesisType (hsp : Spells avoid limit scope ctx names) (param : String)
    {k : Nat} {ty : TermId} (hty : Usable s top limit ctx 0 ty) {cls : String}
    {r : Resolved} (hr : outlineHypothesis s look' ctx k ty cls = some r) :
    Succeeds I (hypothesisType s render scope param ty cls) := by
  obtain ⟨bs, hbs, _⟩ := Option.bind_eq_some_iff.mp hr
  have hdomains : ∀ j p, (s.piChain ty).1[j]? = some p → Usable s top limit ctx j p.2 :=
    fun j p hp => hty.within_zero ((s.within_piChain ty).1 j p hp).1
  unfold hypothesisType
  refine succeeds_bind hR
    (succeeds_bindDomains hR hsafe hrender hsucceed _ hsp hdomains hbs)
    (ensures_bindDomains hR hsafe hrender _ hsp hdomains) fun b _ => ?_
  dsimp only
  split
  · exact succeeds_pure _
  · exact succeeds_pure _

theorem succeeds_hypotheses {param : String} {ty : TermId}
    (hty : Usable s top limit ctx 0 ty) (classes : List (String × String)) :
    ∀ {scope names rs} (count : Nat), (∀ c ∈ classes, c.2 ∈ cfg.fixedNames) →
      Spells avoid limit scope (List.replicate (count + 1) .extra ++ ctx) names →
      names[count]? = some param →
      outlineHypotheses s look' ctx ty count (classes.map (·.2)) = some rs →
      Succeeds I (hypotheses s render scope param ty classes) := by
  induction classes with
  | nil => exact fun _ _ _ _ _ => succeeds_pure _
  | cons c rest ih =>
      obtain ⟨start, cls⟩ := c
      intro scope names rs count hcls hsp hparam hrs
      obtain ⟨r, hr, htail⟩ := Option.bind_eq_some_iff.mp hrs
      obtain ⟨rs', hrs', _⟩ := Option.bind_eq_some_iff.mp htail
      have hinside := hty.extras (count + 1)
      have hrest : ∀ c ∈ rest, c.2 ∈ cfg.fixedNames := fun c hc => hcls c (by simp [hc])
      obtain ⟨hsp', hfresh⟩ := hsp.fresh (start ++ "_" ++ param)
      have hnext : Spells avoid limit (scope.fresh (start ++ "_" ++ param)).2
          (List.replicate (count + 1 + 1) .extra ++ ctx)
          ((scope.fresh (start ++ "_" ++ param)).1 :: names) := hsp'.extra hfresh
      rw [hypotheses]
      refine succeeds_bind hR (succeeds_hypothesisType hR hsafe hrender hsucceed hsp param
          hinside hr)
        (ensures_hypothesisType hR hsafe hrender hsp hparam hinside
          (hcls (start, cls) (by simp))) fun type _ => ?_
      exact succeeds_bind hR (ih (count + 1) hrest hnext hparam hrs')
        (ensures_hypotheses hR hsafe hrender hty rest (count + 1) hrest hnext hparam)
        fun b _ => succeeds_pure _

theorem succeeds_bindNamed (hsp : Spells avoid limit scope ctx names) (x : String)
    {ty : TermId} (hty : Usable s top limit ctx 0 ty) {rs : List (Bool × Resolved)}
    (hrs : outlineHypotheses s look' ctx ty 0 (classesOf s ty) = some rs) :
    Succeeds I (bindNamed s render scope x ty) := by
  obtain ⟨hsp', hfresh⟩ := hsp.fresh x
  unfold bindNamed
  exact succeeds_bind hR
    (succeeds_hypotheses hR hsafe hrender hsucceed hty _ 0 (classes_subset_fixedNames _)
      (hsp'.extra hfresh) rfl hrs)
    (ensures_hypotheses hR hsafe hrender hty _ 0 (classes_subset_fixedNames _)
      (hsp'.extra hfresh) rfl)
    fun b _ => succeeds_pure _

theorem succeeds_bindParams (params : List (String × TermId)) :
    ∀ {scope ctx names rs}, Spells avoid limit scope ctx names →
      (∀ j p, params[j]? = some p → Usable s top limit ctx j p.2) →
      outlineParams s look' ctx (params.map (·.2)) = some rs →
      Succeeds I (bindParams s render scope params) := by
  induction params with
  | nil => exact fun _ _ _ => succeeds_pure _
  | cons p rest ih =>
      obtain ⟨x, ty⟩ := p
      intro scope ctx names rs hsp husable hrs
      obtain ⟨front, hfront, htail⟩ := Option.bind_eq_some_iff.mp hrs
      obtain ⟨back, hback, _⟩ := Option.bind_eq_some_iff.mp htail
      obtain ⟨r, hr, hhyps⟩ := Option.bind_eq_some_iff.mp hfront
      obtain ⟨hyps, hhyps, _⟩ := Option.bind_eq_some_iff.mp hhyps
      have hty := husable 0 (x, ty) rfl
      have hrest : ∀ j p, rest[j]? = some p →
          Usable s top limit (insideBinder s ctx ty) j p.2 :=
        fun j p hp => (husable (j + 1) p hp).insideBinder ty
      rw [bindParams]
      refine succeeds_bind hR (succeeds_term hsafe hsucceed hsp hty hr)
        (ensures_term hR hsafe hrender hsp hty) fun type _ => ?_
      refine succeeds_bind hR (succeeds_bindNamed hR hsafe hrender hsucceed hsp x hty hhyps)
        (ensures_bindNamed hR hsafe hrender hsp x hty) ?_
      rintro ⟨x', hyps', inside⟩ ⟨-, names', -, -, -, hsp'⟩
      exact succeeds_bind hR (ih hsp' hrest hback)
        (ensures_bindParams hR hsafe hrender rest hsp' hrest) fun b _ => succeeds_pure _

end Binders

section Step

variable {cfg : Config} {s : Store} {known known' : Ident → Bool} {render : Render}
  {I : Emission → Prop} {R : Emission → Emission → Prop}
  {avoid : String → Prop} {P : List String → String → Prop} {id : TermId}
  (hR : Composes I R) (hsafe : Safe cfg s avoid P id)
  (hrender : ∀ c < id, s.Reaches id c → RendersAt cfg s (cfg.outline s known) I R render c)
  (hsucceed : ∀ c < id, s.Reaches id c →
    SucceedsAt cfg s (cfg.outline s known') I render c)
  {scope : Scope} {ctx : Context} {names : List String}

include hR hsafe hrender hsucceed

/-! ## Chains -/

theorem succeeds_lam {x : String} {ty b : TermId} (hnode : s.node id = .lam x ty b)
    (hsp : Spells avoid id scope ctx names) (hcovers : ctx.Covers (s.looseVars id))
    {r : Resolved} (hr : outlineLam s (cfg.outline s known') ctx ty b = some r) :
    Succeeds I (translateLam s render scope id) := by
  obtain ⟨hparams, hbody⟩ := usable_lamLayers hnode scope.isShared hcovers
  rw [← outline_lamLayers hnode hsp] at hr
  obtain ⟨bs, hbs, htail⟩ := Option.bind_eq_some_iff.mp hr
  obtain ⟨rb, hrb, _⟩ := Option.bind_eq_some_iff.mp htail
  have htypes : (s.lamLayers scope.isShared id).1.map (·.type) =
      ((s.lamLayers scope.isShared id).1.map fun l => (l.name, l.type)).map (·.2) := by
    rw [List.map_map]
    rfl
  rw [htypes] at hbs hrb hbody
  unfold translateLam
  refine succeeds_bind hR (succeeds_bindParams hR hsafe hrender hsucceed _ hsp hparams hbs)
    (ensures_bindParams hR hsafe hrender _ hsp hparams) ?_
  rintro ⟨binders, inside⟩ ⟨names', -, -, -, hsp'⟩
  exact succeeds_bind hR (succeeds_term hsafe hsucceed hsp' hbody hrb)
    (ensures_term hR hsafe hrender hsp' hbody) fun e _ => succeeds_pure _

theorem succeeds_piLayer {x : String} {ty b last : TermId} {rest : List Layer}
    (hrest : ∀ {scope ctx' names r}, Spells avoid id scope ctx' names →
      Usable s id id ctx' 0 b → (∀ c, ctx'.isLifted c = ctx.isLifted c) →
      outlineTerm (cfg.outline s known') ctx' b = some r →
      Succeeds I (bindPis s render scope rest))
    (hens : ∀ {scope ctx' names}, Spells avoid id scope ctx' names →
      Usable s id id ctx' 0 b → (∀ c, ctx'.isLifted c = ctx.isLifted c) →
      Ensures I R (bindPis s render scope rest)
        (PisRead cfg s known avoid P id names last fun known' =>
          outlineTerm (cfg.outline s known') ctx' b))
    (hsp : Spells avoid id scope ctx names) (hty : Usable s id id ctx 0 ty)
    (hb : Usable s id id ctx 1 b) {r : Resolved}
    (hr : outlinePi s (cfg.outline s known') ctx ty b = some r) :
    Succeeds I (bindPis s render scope (⟨x, ty, b⟩ :: rest)) := by
  rw [bindPis]
  unfold outlinePi at hr
  dsimp only
  split at hr
  · rename_i huse
    obtain ⟨bs, hbs, htail⟩ := Option.bind_eq_some_iff.mp hr
    obtain ⟨rb, hrb, _⟩ := Option.bind_eq_some_iff.mp htail
    obtain ⟨rty, hrty, hhyps⟩ := Option.bind_eq_some_iff.mp hbs
    obtain ⟨hyps, hhyps, _⟩ := Option.bind_eq_some_iff.mp hhyps
    have hb' := hb.insideBinder ty
    have hsame := isLifted_insideBinder (s := s) ctx ty
    refine succeeds_bind hR (succeeds_term hsafe hsucceed hsp hty hrty)
      (ensures_term hR hsafe hrender hsp hty) fun type _ => ?_
    rw [if_pos huse]
    refine succeeds_bind hR (succeeds_bindNamed hR hsafe hrender hsucceed hsp x hty hhyps)
      (ensures_bindNamed hR hsafe hrender hsp x hty) ?_
    rintro ⟨x', hyps', inside⟩ ⟨-, names', -, -, -, hsp'⟩
    exact succeeds_bind hR (hrest hsp' hb' hsame hrb) (hens hsp' hb' hsame)
      fun p _ => succeeds_pure _
  · rename_i hunused
    obtain ⟨rty, hrty, htail⟩ := Option.bind_eq_some_iff.mp hr
    obtain ⟨rb, hrb, _⟩ := Option.bind_eq_some_iff.mp htail
    have hb' : Usable s id id (.unnamed :: ctx) 0 b := by
      rw [Bool.or_eq_true, not_or] at hunused
      exact hb.unnamed fun hmem => hunused.1 (hasLoose_iff_mem.mpr hmem)
    refine succeeds_bind hR (succeeds_term hsafe hsucceed hsp hty hrty)
      (ensures_term hR hsafe hrender hsp hty) fun type _ => ?_
    rw [if_neg hunused]
    exact succeeds_bind hR (hrest hsp.unnamed hb' (fun _ => rfl) hrb)
      (hens hsp.unnamed hb' fun _ => rfl) fun p _ => succeeds_pure _

theorem succeeds_bindPis {stop : TermId → Bool} {b last : TermId} {layers : List Layer}
    (h : s.Chain .pi stop b layers last) :
    ∀ {scope ctx names r}, Spells avoid id scope ctx names → Usable s id id ctx 0 b →
      (∀ c ≤ b, stop c = ctx.isLifted c) →
      outlineTerm (cfg.outline s known') ctx b = some r →
      Succeeds I (bindPis s render scope layers) := by
  induction h with
  | nil => exact fun _ _ _ _ => succeeds_pure _
  | @cons b last l layers hgo hl hrest ih =>
      intro scope ctx names r hsp hb hstop hr
      have hbody := hl.strictlyWithin_body
      have htype := hl.strictlyWithin_type.1
      have hstop' : ∀ {ctx' : Context}, (∀ c, ctx'.isLifted c = ctx.isLifted c) →
          ∀ c ≤ l.body, stop c = ctx'.isLifted c := by
        intro ctx' hsame c hc
        rw [hsame]
        exact hstop c (hc.trans hbody.2.le)
      cases hl with
      | pi hnode =>
          rw [outlineTerm_of_not_isLifted ((hstop b le_rfl).symm.trans hgo), outlineStep,
            hnode] at hr
          exact succeeds_piLayer hR hsafe hrender hsucceed
            (fun hsp' husable hsame => ih hsp' husable (hstop' hsame))
            (fun hsp' husable hsame =>
              ensures_bindPis hR hsafe hrender hrest hsp' husable (hstop' hsame))
            hsp (hb.within_zero htype) (hb.within_zero hbody.1) hr

theorem succeeds_pi {x : String} {ty b : TermId} (hnode : s.node id = .pi x ty b)
    (hsp : Spells avoid id scope ctx names) (hcovers : ctx.Covers (s.looseVars id))
    {r : Resolved} (hr : outlinePi s (cfg.outline s known') ctx ty b = some r) :
    Succeeds I (translatePi s render scope id) := by
  obtain ⟨-, hb⟩ := strictlyWithin_pi hnode
  have hstop : ∀ {ctx' : Context}, (∀ c, ctx'.isLifted c = ctx.isLifted c) →
      ∀ c ≤ b, scope.isShared c = ctx'.isLifted c := by
    intro ctx' hsame c hc
    rw [hsame]
    exact hsp.isShared_eq (lt_of_le_of_lt hc hb.2)
  have hty := usable_of_strictlyWithin hcovers (strictlyWithin_pi hnode).1
  have hbody := usable_of_strictlyWithin hcovers hb
  have hchain := s.chain_piTail scope.isShared b
  unfold translatePi
  rw [piLayers_of_node hnode]
  refine succeeds_bind hR
    (succeeds_piLayer hR hsafe hrender hsucceed
      (fun hsp' husable hsame =>
        succeeds_bindPis hR hsafe hrender hsucceed hchain hsp' husable (hstop hsame))
      (fun hsp' husable hsame =>
        ensures_bindPis hR hsafe hrender hchain hsp' husable (hstop hsame)) hsp hty hbody hr)
    (ensures_piLayer hR hsafe hrender
      (fun hsp' husable hsame =>
        ensures_bindPis hR hsafe hrender hchain hsp' husable (hstop hsame)) hsp hty hbody) ?_
  rintro ⟨binders, inside⟩ ⟨ctx', names', hsp', hlast, hsome, -⟩
  obtain ⟨rb, hrb⟩ := hsome known' r hr
  exact succeeds_bind hR (succeeds_term hsafe hsucceed hsp' hlast hrb)
    (ensures_term hR hsafe hrender hsp' hlast) fun e _ => succeeds_pure _

theorem succeeds_let {x : String} {ty value b : TermId}
    (hnode : s.node id = .letIn x ty value b) (hsp : Spells avoid id scope ctx names)
    (hcovers : ctx.Covers (s.looseVars id)) {r : Resolved}
    (hr : outlineLet (cfg.outline s known') ctx ty value b = some r) :
    Succeeds I (translateLet render scope x ty value b) := by
  have hpart : ∀ {c d}, (c, d) ∈ (s.node id).childrenWithDepth → Usable s id id ctx d c :=
    fun hc => usable_of_strictlyWithin hcovers (strictlyWithin_part hc)
  simp only [hnode, Node.childrenWithDepth, List.mem_cons, List.not_mem_nil, or_false] at hpart
  have hty := hpart (Or.inl rfl)
  have hvalue := hpart (Or.inr (Or.inl rfl))
  have hbody := (hpart (Or.inr (Or.inr rfl))).named
  obtain ⟨hsp', hfresh⟩ := hsp.fresh x
  obtain ⟨rty, hrty, hr⟩ := Option.bind_eq_some_iff.mp hr
  obtain ⟨rv, hrv, hr⟩ := Option.bind_eq_some_iff.mp hr
  obtain ⟨rb, hrb, _⟩ := Option.bind_eq_some_iff.mp hr
  unfold translateLet
  refine succeeds_bind hR (succeeds_term hsafe hsucceed hsp hty hrty)
    (ensures_term hR hsafe hrender hsp hty) fun type _ => ?_
  refine succeeds_bind hR (succeeds_term hsafe hsucceed hsp hvalue hrv)
    (ensures_term hR hsafe hrender hsp hvalue) fun v _ => ?_
  refine succeeds_bind hR (succeeds_term hsafe hsucceed (hsp'.named hfresh) hbody hrb)
    (ensures_term hR hsafe hrender (hsp'.named hfresh) hbody) fun e _ => ?_
  split
  · exact succeeds_pure _
  · exact succeeds_pure _

/-! ## Names and applications -/

theorem succeeds_ident (hsp : Spells avoid id scope ctx names) {ident : Ident}
    {args : List TermId} (hargs : ∀ a ∈ args, Usable s id id ctx 0 a) {r : Resolved}
    (hr : outlineIdent cfg (cfg.outline s known') ctx ident args = some r) :
    Succeeds I (translateIdent cfg render scope ident args) := by
  unfold outlineIdent at hr
  unfold translateIdent
  cases hsite : cfg.table.useSite ident with
  | preserve | rename module name explicit =>
      rw [hsite] at hr
      obtain ⟨rs, hrs, _⟩ := Option.bind_eq_some_iff.mp hr
      exact succeeds_bind hR (succeeds_terms hR hsafe hrender hsucceed hsp hargs hrs)
        (ensures_terms hR hsafe hrender hsp hargs) fun es _ => succeeds_pure _
  | expand arity template =>
      rw [hsite] at hr
      dsimp only at hr ⊢
      split at hr
      · cases hr
      · rename_i hlength
        rw [if_neg hlength]
        obtain ⟨front, hfront, htail⟩ := Option.bind_eq_some_iff.mp hr
        obtain ⟨back, hback, _⟩ := Option.bind_eq_some_iff.mp htail
        have htake : ∀ a ∈ args.take arity, Usable s id id ctx 0 a :=
          fun a ha => hargs a (List.mem_of_mem_take ha)
        have hdrop : ∀ a ∈ args.drop arity, Usable s id id ctx 0 a :=
          fun a ha => hargs a (List.mem_of_mem_drop ha)
        refine succeeds_bind hR (succeeds_terms hR hsafe hrender hsucceed hsp htake hfront)
          (ensures_terms hR hsafe hrender hsp htake) fun es _ => ?_
        exact succeeds_bind hR (succeeds_terms hR hsafe hrender hsucceed hsp hdrop hback)
          (ensures_terms hR hsafe hrender hsp hdrop) fun es' _ => succeeds_pure _

theorem succeeds_constant (hsp : Spells avoid id scope ctx names) {ident : Ident}
    {ty : TermId} {body : Option TermId}
    (hdeclare : known' ident || canDeclare cfg s (cfg.outline s known') ident ty body →
      Succeeds I (declareConstant cfg s render ident ty body))
    (hens : Ensures I R (declareConstant cfg s render ident ty body) fun _ => True)
    {args : List TermId} (hargs : ∀ a ∈ args, Usable s id id ctx 0 a) {r : Resolved}
    (hr : outlineConstant cfg s known' (cfg.outline s known') ctx ident ty body args =
      some r) :
    Succeeds I (translateConstant cfg s render scope ident ty body args) := by
  unfold outlineConstant at hr
  split at hr
  · rename_i hdealt
    unfold translateConstant
    exact succeeds_bind hR (hdeclare hdealt) hens fun _ _ =>
      succeeds_ident hR hsafe hrender hsucceed hsp hargs hr
  · cases hr

theorem succeeds_named (hsp : Spells avoid id scope ctx names) (head : String)
    {args : List TermId} (hargs : ∀ a ∈ args, Usable s id id ctx 0 a) {r : Resolved}
    (hr : outlineNamed (cfg.outline s known') ctx head args = some r) :
    Succeeds I (translateNamed render scope head args) := by
  obtain ⟨rs, hrs, _⟩ := Option.bind_eq_some_iff.mp hr
  unfold translateNamed
  exact succeeds_bind hR (succeeds_terms hR hsafe hrender hsucceed hsp hargs hrs)
    (ensures_terms hR hsafe hrender hsp hargs) fun es _ => succeeds_pure _

theorem succeeds_conditional (hsp : Spells avoid id scope ctx names) {c t e : TermId}
    {rest : List TermId} (hc : Usable s id id ctx 0 c) (ht : Usable s id id ctx 0 t)
    (he : Usable s id id ctx 0 e) (hrest : ∀ a ∈ rest, Usable s id id ctx 0 a)
    {r : Resolved}
    (hr : outlineConditional (cfg.outline s known') ctx c t e rest = some r) :
    Succeeds I (translateConditional render scope c t e rest) := by
  obtain ⟨rc, hrc, hr⟩ := Option.bind_eq_some_iff.mp hr
  obtain ⟨rt, hrt, hr⟩ := Option.bind_eq_some_iff.mp hr
  obtain ⟨re, hre, hr⟩ := Option.bind_eq_some_iff.mp hr
  obtain ⟨rs, hrs, _⟩ := Option.bind_eq_some_iff.mp hr
  unfold translateConditional
  refine succeeds_bind hR (succeeds_term hsafe hsucceed hsp hc hrc)
    (ensures_term hR hsafe hrender hsp hc) fun _ _ => ?_
  refine succeeds_bind hR (succeeds_term hsafe hsucceed hsp ht hrt)
    (ensures_term hR hsafe hrender hsp ht) fun _ _ => ?_
  refine succeeds_bind hR (succeeds_term hsafe hsucceed hsp he hre)
    (ensures_term hR hsafe hrender hsp he) fun _ _ => ?_
  exact succeeds_bind hR (succeeds_terms hR hsafe hrender hsucceed hsp hrest hrs)
    (ensures_terms hR hsafe hrender hsp hrest) fun es _ => succeeds_pure _

/-- A constant of the term is dealt with if it can be. -/
def Declares (cfg : Config) (s : Store) (known' : Ident → Bool) (I : Emission → Prop)
    (R : Emission → Emission → Prop) (render : Render) (id : TermId) : Prop :=
  ∀ c ident ty body, s.node c = .constant ident ty body → c ≤ id → s.Reaches id c →
    (known' ident || canDeclare cfg s (cfg.outline s known') ident ty body →
      Succeeds I (declareConstant cfg s render ident ty body)) ∧
    Ensures I R (declareConstant cfg s render ident ty body) fun _ => True

theorem succeeds_app {f a : TermId} (hnode : s.node id = .app f a)
    (hdeclare : Declares cfg s known' I R render id)
    (hsp : Spells avoid id scope ctx names) (hcovers : ctx.Covers (s.looseVars id))
    {r : Resolved} (hr : outlineApp cfg s known' (cfg.outline s known') ctx id = some r) :
    Succeeds I (translateApp cfg s render scope id) := by
  have hspine : s.spineUntil scope.isShared id = s.spineUntil ctx.isLifted id :=
    spineUntil_congr fun c hc => hsp.isShared_eq hc
  have hplaces := strictlyWithin_spineUntil hnode ctx.isLifted
  unfold outlineApp at hr
  unfold translateApp
  rw [hspine]
  generalize s.spineUntil ctx.isLifted id = spine at hplaces hr ⊢
  obtain ⟨head, args⟩ := spine
  obtain ⟨hhead, hargs⟩ := hplaces
  dsimp only at hhead hargs hr ⊢
  have husable : ∀ b ∈ args, Usable s id id ctx 0 b :=
    fun b hb => usable_of_strictlyWithin hcovers (hargs b hb)
  have hother : ∀ {r}, (do
        let fn ← outlineTerm (cfg.outline s known') ctx head
        return fn.applyAll (← outlineTerms (cfg.outline s known') ctx args)) = some r →
      Succeeds I (do
        let fn ← translateTerm render scope head
        return Expr.mkApp fn (← translateTerms render scope args)) := by
    intro r hr
    obtain ⟨rfn, hrfn, hr⟩ := Option.bind_eq_some_iff.mp hr
    obtain ⟨rs, hrs, _⟩ := Option.bind_eq_some_iff.mp hr
    have hfn := usable_of_strictlyWithin hcovers hhead
    refine succeeds_bind hR (succeeds_term hsafe hsucceed hsp hfn hrfn)
      (ensures_term hR hsafe hrender hsp hfn) fun fn _ => ?_
    exact succeeds_bind hR (succeeds_terms hR hsafe hrender hsucceed hsp husable hrs)
      (ensures_terms hR hsafe hrender hsp husable) fun es _ => succeeds_pure _
  unfold outlineSpine at hr
  cases hkind : s.node head with
  | global ident =>
      rw [hkind] at hr
      dsimp only at hr ⊢
      unfold outlineGlobal at hr
      split
      · rename_i hite
        rw [if_pos hite] at hr
        rcases args with _ | ⟨_, _ | ⟨c, _ | ⟨t, _ | ⟨e, rest⟩⟩⟩⟩
        case cons.cons.cons.cons =>
          simp only [List.mem_cons, forall_eq_or_imp] at husable
          obtain ⟨-, hc, ht, he, hrest⟩ := husable
          exact succeeds_conditional hR hsafe hrender hsucceed hsp hc ht he hrest hr
        all_goals exact succeeds_ident hR hsafe hrender hsucceed hsp husable hr
      · rename_i hite
        rw [if_neg hite] at hr
        exact succeeds_ident hR hsafe hrender hsucceed hsp husable hr
  | constant ident ty body =>
      rw [hkind] at hr
      obtain ⟨hsome, hens⟩ :=
        hdeclare head ident ty body hkind (le_of_lt hhead.2) hhead.1.reaches
      exact succeeds_constant hR hsafe hrender hsucceed hsp hsome hens husable hr
  | _ =>
      rw [hkind] at hr
      exact hother hr

/-! ## Data -/

theorem succeeds_fields (hsp : Spells avoid id scope ctx names) {cons nil : String}
    (hcons : cons ∈ cfg.fixedNames) (hnil : nil ∈ cfg.fixedNames)
    {fields : List (String × TermId)} (husable : ∀ p ∈ fields, Usable s id id ctx 0 p.2) :
    ∀ {r}, outlineFields (cfg.outline s known') ctx cons nil fields = some r →
      Succeeds I (translateFields render scope cons nil fields) := by
  induction fields with
  | nil => exact fun _ => succeeds_pure _
  | cons p rest ih =>
      obtain ⟨x, c⟩ := p
      intro r hr
      obtain ⟨rv, hrv, htail⟩ := Option.bind_eq_some_iff.mp hr
      obtain ⟨rt, hrt, _⟩ := Option.bind_eq_some_iff.mp htail
      have hc := husable (x, c) (by simp)
      have hrest : ∀ p ∈ rest, Usable s id id ctx 0 p.2 := fun p hp => husable p (by simp [hp])
      rw [translateFields]
      refine succeeds_bind hR (succeeds_term hsafe hsucceed hsp hc hrv)
        (ensures_term hR hsafe hrender hsp hc) fun v _ => ?_
      exact succeeds_bind hR (ih hrest hrt)
        (ensures_fields hR hsafe hrender hsp hcons hnil hrest) fun tail _ => succeeds_pure _

theorem succeeds_proj (hsp : Spells avoid id scope ctx names) {c : TermId}
    (hc : Usable s id id ctx 0 c) (field : String) {r : Resolved}
    (hr : outlineProj (cfg.outline s known') ctx c field = some r) :
    Succeeds I (do
      return Expr.mkApp (.var "RecordProj")
        [← translateTerm render scope c, .string field]) := by
  obtain ⟨rc, hrc, _⟩ := Option.bind_eq_some_iff.mp hr
  exact succeeds_bind hR (succeeds_term hsafe hsucceed hsp hc hrc)
    (ensures_term hR hsafe hrender hsp hc) fun e _ => succeeds_pure _

theorem succeeds_array (hsp : Spells avoid id scope ctx names) (elemType : TermId)
    {elems : List TermId} (husable : ∀ c ∈ elems, Usable s id id ctx 0 c) {r : Resolved}
    (hr : outlineArray cfg s (cfg.outline s known') ctx elemType elems = some r) :
    Succeeds I (translateArray cfg s render scope elemType elems) := by
  unfold outlineArray at hr
  unfold translateArray
  cases hbits : literalBits? s elemType elems with
  | some bits => exact succeeds_pure _
  | none =>
      rw [hbits] at hr
      obtain ⟨rs, hrs, _⟩ := Option.bind_eq_some_iff.mp hr
      exact succeeds_bind hR (succeeds_terms hR hsafe hrender hsucceed hsp husable hrs)
        (ensures_terms hR hsafe hrender hsp husable) fun es _ => succeeds_pure _

omit hR hrender in
theorem succeeds_case (hsp : Spells avoid id scope ctx names)
    {cases : List (Ident × TermId)} (husable : ∀ p ∈ cases, Usable s id id ctx 0 p.2)
    (ctor : Ident) {r : Resolved}
    (hr : outlineCase cfg (cfg.outline s known') ctx cases ctor = some r) :
    Succeeds I (translateCase cfg render scope cases ctor) := by
  unfold outlineCase at hr
  unfold translateCase
  cases hfind : cases.find? fun p => p.1 = ctor with
  | some p =>
      rw [hfind] at hr
      exact succeeds_term hsafe hsucceed hsp (husable p (List.mem_of_find?_eq_some hfind)) hr
  | none =>
      rw [hfind] at hr
      dsimp only at hr ⊢
      split at hr
      · cases hr
      · rename_i hlenient
        rw [if_neg hlenient]
        exact succeeds_pure _

theorem succeeds_recursor (hsp : Spells avoid id scope ctx names) {datatype : Ident}
    {params : List TermId} (hparams : ∀ p ∈ params, Usable s id id ctx 0 p)
    {motive : TermId} (hmotive : Usable s id id ctx 0 motive) (order : List Ident)
    {cases : List (Ident × TermId)} (hcases : ∀ p ∈ cases, Usable s id id ctx 0 p.2)
    {r : Resolved}
    (hr : outlineRecursor cfg (cfg.outline s known') ctx datatype params motive order cases =
      some r) :
    Succeeds I (translateRecursor cfg render scope datatype params motive order cases) := by
  obtain ⟨target, htarget, hr⟩ := Option.bind_eq_some_iff.mp hr
  obtain ⟨rps, hrps, hr⟩ := Option.bind_eq_some_iff.mp hr
  obtain ⟨rmo, hrmo, hr⟩ := Option.bind_eq_some_iff.mp hr
  obtain ⟨rcs, hrcs, _⟩ := Option.bind_eq_some_iff.mp hr
  unfold translateRecursor
  rw [htarget]
  dsimp only
  refine succeeds_bind hR (succeeds_terms hR hsafe hrender hsucceed hsp hparams hrps)
    (ensures_terms hR hsafe hrender hsp hparams) fun ps _ => ?_
  refine succeeds_bind hR (succeeds_term hsafe hsucceed hsp hmotive hrmo)
    (ensures_term hR hsafe hrender hsp hmotive) fun mo _ => ?_
  have hens : ∀ ctor ∈ order, Ensures I R (translateCase cfg render scope cases ctor) fun e =>
      ReadsAs P names e (outlineCase cfg (cfg.outline s known) ctx cases ctor) :=
    fun ctor _ => ensures_case hR hsafe hrender hsp hcases ctor
  refine succeeds_bind hR (succeeds_mapM hR (fun ctor hctor => ?_) hens)
    (ensures_mapM hR hens) fun cs _ => succeeds_pure _
  obtain ⟨rc, hrc⟩ := exists_of_mapM_eq_some hrcs ctor hctor
  exact succeeds_case hsafe hsucceed hsp hcases ctor hrc

/-! ## Nodes -/

theorem succeeds_step (hdeclare : Declares cfg s known' I R render id)
    (hsp : Spells avoid id scope ctx names) (hcovers : ctx.Covers (s.looseVars id))
    {r : Resolved} (hr : cfg.outline s known' ctx id = some r) :
    Succeeds I (translateStep cfg s render scope id) := by
  have hpart : ∀ {c d}, (c, d) ∈ (s.node id).childrenWithDepth → Usable s id id ctx d c :=
    fun hc => usable_of_strictlyWithin hcovers (strictlyWithin_part hc)
  rw [outline_eq] at hr
  unfold outlineStep at hr
  unfold translateStep
  cases hnode : s.node id with
  | global ident =>
      rw [hnode] at hr
      exact succeeds_ident hR hsafe hrender hsucceed hsp (by simp) hr
  | constant ident ty body =>
      rw [hnode] at hr
      obtain ⟨hsome, hens⟩ := hdeclare id ident ty body hnode le_rfl (.refl id)
      exact succeeds_constant hR hsafe hrender hsucceed hsp hsome hens (by simp) hr
  | bound i =>
      rw [hnode] at hr
      obtain ⟨k, hk, _⟩ := Option.map_eq_some_iff.mp hr
      obtain ⟨x, hx⟩ := hsp.spelled.exists_of_local? hk
      dsimp only [Scope.local?]
      rw [hx]
      exact succeeds_pure _
  | free | sort | nat | string | bool | unit | unitType => exact succeeds_pure _
  | app f a =>
      rw [hnode] at hr
      exact succeeds_app hR hsafe hrender hsucceed hnode hdeclare hsp hcovers hr
  | pair a b | pairType a b | pairLeft a | pairRight a =>
      rw [hnode] at hr
      refine succeeds_named hR hsafe hrender hsucceed hsp _ (fun c hc => ?_) hr
      exact hpart (by simpa [hnode, Node.childrenWithDepth] using hc)
  | recordType fields | record fields =>
      rw [hnode] at hr
      refine succeeds_fields hR hsafe hrender hsucceed hsp (by simp [Config.fixedNames])
        (by simp [Config.fixedNames]) (fun p hp => hpart ?_) hr
      rw [hnode]
      exact List.mem_map_of_mem (f := fun p : String × TermId => (p.2, 0))
        (List.mem_mergeSort.mp hp)
  | proj c field =>
      rw [hnode] at hr
      exact succeeds_proj hR hsafe hrender hsucceed hsp
        (hpart (by simp [hnode, Node.childrenWithDepth])) field hr
  | array elemType elems =>
      rw [hnode] at hr
      refine succeeds_array hR hsafe hrender hsucceed hsp elemType (fun c hc => hpart ?_) hr
      simp [hnode, Node.childrenWithDepth, hc]
  | data ident params rest | ctor ident params rest =>
      rw [hnode] at hr
      refine succeeds_ident hR hsafe hrender hsucceed hsp (fun c hc => hpart ?_) hr
      simpa [hnode, Node.childrenWithDepth] using hc
  | recursor datatype params motive order cases =>
      rw [hnode] at hr
      refine succeeds_recursor hR hsafe hrender hsucceed hsp (fun c hc => hpart ?_) (hpart ?_)
        order (fun p hp => hpart ?_) hr
      · simp [hnode, Node.childrenWithDepth, hc]
      · simp [hnode, Node.childrenWithDepth]
      · rw [hnode, Node.childrenWithDepth, List.mem_append, List.mem_cons]
        exact Or.inr (Or.inr
          (List.mem_map_of_mem (f := fun p : Ident × TermId => (p.2, 0)) hp))
  | lam x ty b =>
      rw [hnode] at hr
      exact succeeds_lam hR hsafe hrender hsucceed hnode hsp hcovers hr
  | pi x ty b =>
      rw [hnode] at hr
      exact succeeds_pi hR hsafe hrender hsucceed hnode hsp hcovers hr
  | letIn x ty value b =>
      rw [hnode] at hr
      exact succeeds_let hR hsafe hrender hsucceed hnode hsp hcovers hr
  | fix x ty b =>
      rw [hnode] at hr
      cases hr

end Step

end TermGraph
