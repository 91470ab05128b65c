import Mathlib
import TermGraph.Proofs.Translate.Binders

/-!
# Nodes read as outlined

One step of the translator: if the parts of a node read as outlined in every scope
that fits a context, so does the node.  Chains of binders that the translator takes
at once are outlined one binder at a time, so their tails are unrolled first.
-/

namespace TermGraph

open Target Store

section Step

variable {cfg : Config} {s : Store} {known : Ident → Bool} {render : Render}
  {I : Emission → Prop} {R : Emission → Emission → Prop}
  {avoid : String → Prop} {P : List String → String → Prop} {id : TermId}
  (hR : Composes I R) (hsafe : Safe cfg s avoid P id)
  (hrender : ∀ c < id, s.Reaches id c →
    RendersAt cfg s (cfg.outline s known) I R render c)
  {scope : Scope} {ctx : Context} {names : List String}

/-! ## Chains -/

/-- A node without a name is outlined structurally. -/
theorem outlineTerm_of_not_isLifted {b : TermId} (h : ctx.isLifted b = false) :
    outlineTerm (cfg.outline s known) ctx b =
      outlineStep cfg s known (cfg.outline s known) ctx b := by
  have hnone : ctx.lifted? b = none := by simpa [Context.isLifted] using h
  rw [outlineTerm, hnone, outline_eq]

/-- Functions of several binders, by their types, taken at once. -/
def outlineLams (s : Store) (look : Outliner) (ctx : Context) (types : List TermId)
    (body : TermId) : Option Resolved := do
  let binders ← outlineParams s look ctx types
  return .lams binders (← outlineTerm look (insideParams s ctx types) body)

theorem outlineLams_nil (look : Outliner) (body : TermId) :
    outlineLams s look ctx [] body = outlineTerm look ctx body := by
  change (outlineTerm look ctx body >>= fun r => some (Resolved.lams [] r)) = _
  cases outlineTerm look ctx body <;> rfl

theorem outlineLams_cons (look : Outliner) (ty : TermId) (types : List TermId)
    (body : TermId) :
    outlineLams s look ctx (ty :: types) body = (do
      let binders ← outlineBinder s look ctx ty
      return .lams binders (← outlineLams s look (insideBinder s ctx ty) types body)) := by
  have hinside : insideParams s ctx (ty :: types) =
      insideParams s (insideBinder s ctx ty) types := rfl
  rw [outlineLams, outlineLams, outlineParams, hinside]
  cases outlineBinder s look ctx ty with
  | none => rfl
  | some front =>
      cases outlineParams s look (insideBinder s ctx ty) types with
      | none => rfl
      | some back =>
          cases outlineTerm look (insideParams s (insideBinder s ctx ty) types) body with
          | none => rfl
          | some r => exact congrArg some (Resolved.lams_append front back r)

/-- The outline of a chain of functions, taken at once. -/
theorem outlineLams_chain {stop : TermId → Bool} {b last : TermId} {layers : List Layer}
    (h : s.Chain .lam stop b layers last) :
    ∀ ctx : Context, (∀ c ≤ b, stop c = ctx.isLifted c) →
      outlineLams s (cfg.outline s known) ctx (layers.map (·.type)) last =
        outlineTerm (cfg.outline s known) ctx b := by
  induction h with
  | nil b => exact fun _ _ => outlineLams_nil _ b
  | @cons b last l layers hgo hl _ ih =>
      intro ctx hstop
      have hbody := hl.strictlyWithin_body.2
      have hrest := ih (insideBinder s ctx l.type) fun c hc => by
        rw [isLifted_insideBinder]
        exact hstop c (hc.trans hbody.le)
      cases hl with
      | lam hnode =>
          rw [List.map_cons, outlineLams_cons, hrest,
            outlineTerm_of_not_isLifted ((hstop b le_rfl).symm.trans hgo), outlineStep, hnode]
          rfl

/-- The layers of a function may be used inside the layers before them. -/
theorem usable_lamLayers {x : String} {ty b : TermId} (hnode : s.node id = .lam x ty b)
    (stop : TermId → Bool) (hcovers : ctx.Covers (s.looseVars id)) :
    (∀ (j : Nat) (p : String × TermId),
      ((s.lamLayers stop id).1.map fun l => (l.name, l.type))[j]? = some p →
      Usable s id id ctx j p.2) ∧
    Usable s id id (insideParams s ctx ((s.lamLayers stop id).1.map (·.type))) 0
      (s.lamLayers stop id).2 := by
  obtain ⟨htypes, hlast⟩ := strictlyWithin_lamLayers hnode stop
  refine ⟨fun j p hp => ?_, ?_⟩
  · rw [List.getElem?_map, Option.map_eq_some_iff] at hp
    obtain ⟨l, hl, rfl⟩ := hp
    exact usable_of_strictlyWithin hcovers (htypes j l hl)
  · refine Usable.insideParams _ (usable_of_strictlyWithin hcovers ?_)
    rwa [List.length_map, Nat.zero_add]

/-- The outline of a function, its layers taken at once. -/
theorem outline_lamLayers {x : String} {ty b : TermId} (hnode : s.node id = .lam x ty b)
    (hsp : Spells avoid id scope ctx names) :
    outlineLams s (cfg.outline s known) ctx
        ((s.lamLayers scope.isShared id).1.map (·.type)) (s.lamLayers scope.isShared id).2 =
      outlineLam s (cfg.outline s known) ctx ty b := by
  have hb := (strictlyWithin_lam hnode).2.2
  have hstop : ∀ c ≤ b, scope.isShared c = (insideBinder s ctx ty).isLifted c := by
    intro c hc
    rw [isLifted_insideBinder]
    exact hsp.isShared_eq (lt_of_le_of_lt hc hb)
  rw [lamLayers_of_node hnode, List.map_cons, outlineLams_cons,
    outlineLams_chain (s.chain_lamTail scope.isShared b) _ hstop]
  rfl

include hR hsafe hrender in
/-- A function reads as outlined. -/
theorem ensures_lam {x : String} {ty b : TermId} (hnode : s.node id = .lam x ty b)
    (hsp : Spells avoid id scope ctx names) (hcovers : ctx.Covers (s.looseVars id)) :
    Ensures I R (translateLam s render scope id) fun e =>
      ReadsAs P names e (outlineLam s (cfg.outline s known) ctx ty b) := by
  obtain ⟨hparams, hbody⟩ := usable_lamLayers hnode scope.isShared hcovers
  unfold translateLam
  refine ensures_bind hR (ensures_bindParams hR hsafe hrender _ hsp hparams) ?_
  rintro ⟨binders, inside⟩ ⟨names', rs, hrs, htel, hsp'⟩
  simp only [List.map_map, Function.comp_def] at hrs hsp'
  refine ensures_bind hR (ensures_term hR hsafe hrender hsp' hbody) ?_
  rintro e ⟨r, hr, he⟩
  have hread := htel.reads_lam (reads_lam_nil he)
  rw [List.append_nil] at hread
  refine ensures_pure hR ⟨.lams rs r, ?_, hread⟩
  rw [← outline_lamLayers hnode hsp, outlineLams, hrs, Option.bind_eq_bind, Option.bind_some,
    hr]
  rfl

/-- What binders of a function type, of which the last one stands in front of `last`,
are to do for a type that reads as `r?`, given the constants that are known: what follows
them has an outline if the type has one, and the type reads as outlined if it does. -/
def PisRead (cfg : Config) (s : Store) (known : Ident → Bool) (avoid : String → Prop)
    (P : List String → String → Prop) (id : TermId) (names : List String) (last : TermId)
    (r? : (Ident → Bool) → Option Resolved) (b : List (PiBinder Expr) × Scope) : Prop :=
  ∃ ctx' names', Spells avoid id b.2 ctx' names' ∧ Usable s id id ctx' 0 last ∧
    (∀ known' r, r? known' = some r →
      ∃ r', outlineTerm (cfg.outline s known') ctx' last = some r') ∧
    ∀ body, ReadsAs P names' body (outlineTerm (cfg.outline s known) ctx' last) →
      ReadsAs P names (.pi b.1 body) (r? known)

/-- What is read inside a binder is read in front of it, when the outline with the binder
goes through the outline of what follows it. -/
theorem PisRead.front {names' : List String} {last : TermId}
    {r? r?' : (Ident → Bool) → Option Resolved} {binders binders' : List (PiBinder Expr)}
    {inside : Scope} (h : PisRead cfg s known avoid P id names' last r?' (binders', inside))
    (hsome : ∀ known' r, r? known' = some r → ∃ r', r?' known' = some r')
    (hread : ∀ body, ReadsAs P names' (.pi binders' body) (r?' known) →
      ReadsAs P names (.pi binders body) (r? known)) :
    PisRead cfg s known avoid P id names last r? (binders, inside) := by
  obtain ⟨ctx', names'', hsp, hlast, hinner, hbody⟩ := h
  refine ⟨ctx', names'', hsp, hlast, fun known' r hr => ?_, fun body he => ?_⟩
  · obtain ⟨r', hr'⟩ := hsome known' r hr
    exact hinner known' r' hr'
  · exact hread body (hbody body he)

include hR hsafe hrender in
/-- One binder of a function type, if what follows it reads as outlined. -/
theorem ensures_piLayer {x : String} {ty b last : TermId} {rest : List Layer}
    (hrest : ∀ {scope ctx' names}, Spells avoid id scope ctx' names →
      Usable s id id ctx' 0 b → (∀ c, ctx'.isLifted c = ctx.isLifted c) →
      Ensures I R (bindPis s render scope rest)
        (PisRead cfg s known avoid P id names last fun known' =>
          outlineTerm (cfg.outline s known') ctx' b))
    (hsp : Spells avoid id scope ctx names) (hty : Usable s id id ctx 0 ty)
    (hb : Usable s id id ctx 1 b) :
    Ensures I R (bindPis s render scope (⟨x, ty, b⟩ :: rest))
      (PisRead cfg s known avoid P id names last fun known' =>
        outlinePi s (cfg.outline s known') ctx ty b) := by
  rw [bindPis]
  refine ensures_bind hR (ensures_term hR hsafe hrender hsp hty) ?_
  rintro type ⟨r, hr, htype⟩
  unfold outlinePi
  split
  · refine ensures_bind hR (ensures_bindNamed hR hsafe hrender hsp x hty) ?_
    rintro ⟨x', hyps, inside⟩ ⟨hx, names', rs, hrs, htel, hsp'⟩
    refine ensures_bind hR
      (hrest hsp' (hb.insideBinder ty) (isLifted_insideBinder ctx ty)) ?_
    rintro ⟨binders, inside'⟩ hinner
    refine ensures_pure hR (hinner.front (fun known' r' hr' => ?_) ?_)
    · obtain ⟨_, _, hrest'⟩ := Option.bind_eq_some_iff.mp hr'
      obtain ⟨rb, hrb, _⟩ := Option.bind_eq_some_iff.mp hrest'
      exact ⟨rb, hrb⟩
    · rintro body ⟨rb, hrb, hpi⟩
      refine ⟨.pis ((false, r) :: rs) rb, ?_, (Telescope.cons htype hx htel).reads_pi hpi⟩
      dsimp only at hrb ⊢
      rw [outlineBinder_eq_some hr hrs, hrb]
      rfl
  · rename_i hunused
    rw [Bool.or_eq_true, not_or] at hunused
    have hb' : Usable s id id (.unnamed :: ctx) 0 b :=
      hb.unnamed fun hmem => hunused.1 (hasLoose_iff_mem.mpr hmem)
    refine ensures_bind hR (hrest hsp.unnamed hb' fun c => rfl) ?_
    rintro ⟨binders, inside'⟩ hinner
    refine ensures_pure hR (hinner.front (fun known' r' hr' => ?_) ?_)
    · obtain ⟨_, _, hrest'⟩ := Option.bind_eq_some_iff.mp hr'
      obtain ⟨rb, hrb, _⟩ := Option.bind_eq_some_iff.mp hrest'
      exact ⟨rb, hrb⟩
    · rintro body ⟨rb, hrb, hpi⟩
      refine ⟨.arrow false r rb, ?_, reads_arrow htype hpi⟩
      dsimp only at hr hrb ⊢
      rw [hr, hrb]
      rfl

include hR hsafe hrender in
/-- A chain of function types reads as outlined. -/
theorem ensures_bindPis {stop : TermId → Bool} {b last : TermId} {layers : List Layer}
    (h : s.Chain .pi stop b layers last) :
    ∀ {scope ctx names}, Spells avoid id scope ctx names → Usable s id id ctx 0 b →
      (∀ c ≤ b, stop c = ctx.isLifted c) →
      Ensures I R (bindPis s render scope layers)
        (PisRead cfg s known avoid P id names last fun known' =>
          outlineTerm (cfg.outline s known') ctx b) := by
  induction h with
  | nil b =>
      intro scope ctx names hsp hb _
      exact ensures_pure hR ⟨ctx, names, hsp, hb, fun _ r hr => ⟨r, hr⟩,
        fun body ⟨r, hr, hbody⟩ => ⟨r, hr, reads_pi_nil hbody⟩⟩
  | @cons b last l layers hgo hl _ ih =>
      intro scope ctx names hsp hb hstop
      have hbody := hl.strictlyWithin_body
      have htype := hl.strictlyWithin_type.1
      cases hl with
      | @pi _ ty b' x hnode =>
          have houtline : ∀ known', outlineTerm (cfg.outline s known') ctx b =
              outlinePi s (cfg.outline s known') ctx ty b' := by
            intro known'
            rw [outlineTerm_of_not_isLifted ((hstop b le_rfl).symm.trans hgo), outlineStep, hnode]
          simp only [houtline]
          refine ensures_piLayer hR hsafe hrender ?_ hsp (hb.within_zero htype)
            (hb.within_zero hbody.1)
          intro scope ctx' names hsp' husable hsame
          refine ih hsp' husable fun c hc => ?_
          rw [hsame]
          exact hstop c (hc.trans hbody.2.le)

include hR hsafe hrender in
/-- A function type reads as outlined. -/
theorem ensures_pi {x : String} {ty b : TermId} (hnode : s.node id = .pi x ty b)
    (hsp : Spells avoid id scope ctx names) (hcovers : ctx.Covers (s.looseVars id)) :
    Ensures I R (translatePi s render scope id) fun e =>
      ReadsAs P names e (outlinePi s (cfg.outline s known) ctx ty b) := by
  obtain ⟨hty, hb⟩ := strictlyWithin_pi hnode
  have hlayers : Ensures I R
      (bindPis s render scope (⟨x, ty, b⟩ :: (s.piTail scope.isShared b).1))
      (PisRead cfg s known avoid P id names (s.piTail scope.isShared b).2 fun known' =>
        outlinePi s (cfg.outline s known') ctx ty b) := by
    refine ensures_piLayer hR hsafe hrender ?_ hsp (usable_of_strictlyWithin hcovers hty)
      (usable_of_strictlyWithin hcovers hb)
    intro inside ctx' names' hsp' hb' hsame
    refine ensures_bindPis hR hsafe hrender (s.chain_piTail _ b) hsp' hb' fun c hc => ?_
    rw [hsame]
    exact hsp.isShared_eq (lt_of_le_of_lt hc hb.2)
  unfold translatePi
  rw [piLayers_of_node hnode]
  refine ensures_bind hR hlayers ?_
  rintro ⟨binders, inside⟩ ⟨ctx', names', hsp', hlast, -, hread⟩
  exact ensures_bind hR (ensures_term hR hsafe hrender hsp' hlast) fun e he =>
    ensures_pure hR (hread e he)

include hR hsafe hrender in
/-- A binding reads as outlined. -/
theorem ensures_let {x : String} {ty value b : TermId} (hnode : s.node id = .letIn x ty value b)
    (hsp : Spells avoid id scope ctx names) (hcovers : ctx.Covers (s.looseVars id)) :
    Ensures I R (translateLet render scope x ty value b) fun e =>
      ReadsAs P names e (outlineLet (cfg.outline s known) ctx ty value b) := by
  have hpart : ∀ {c d}, (c, d) ∈ (s.node id).childrenWithDepth → Usable s id id ctx d c :=
    fun hc => usable_of_strictlyWithin hcovers (strictlyWithin_part hc)
  simp only [hnode, Node.childrenWithDepth, List.mem_cons, List.not_mem_nil, or_false] at hpart
  obtain ⟨hsp', hfresh⟩ := hsp.fresh x
  unfold translateLet
  refine ensures_bind hR (ensures_term hR hsafe hrender hsp (hpart (Or.inl rfl))) ?_
  rintro type ⟨rty, hrty, htype⟩
  refine ensures_bind hR
    (ensures_term hR hsafe hrender hsp (hpart (Or.inr (Or.inl rfl)))) ?_
  rintro v ⟨rv, hrv, hv⟩
  refine ensures_bind hR (ensures_term hR hsafe hrender (hsp'.named hfresh)
    (hpart (Or.inr (Or.inr rfl))).named) ?_
  rintro e ⟨r, hr, he⟩
  have houtline : outlineLet (cfg.outline s known) ctx ty value b =
      some (.typedLet rty rv r) := by
    rw [outlineLet, hrty, hrv, hr]
    rfl
  split
  · exact ensures_pure hR ⟨_, houtline, reads_typedLet_cons htype hv hfresh.not_mem he⟩
  · exact ensures_pure hR
      ⟨_, houtline, reads_typedLet_cons htype hv hfresh.not_mem (reads_letIn_nil he)⟩

/-! ## Names and applications -/

/-- Applications read as outlined if their heads and arguments do. -/
theorem readsAs_mkApp {fn : Expr} {es : List Expr} {args : List TermId} {r : Resolved}
    (hfn : Reads P names fn r)
    (hes : ∃ rs, outlineTerms (cfg.outline s known) ctx args = some rs ∧
      List.Forall₂ (Reads P names) es rs) :
    ReadsAs P names (.mkApp fn es)
      (do return r.applyAll (← outlineTerms (cfg.outline s known) ctx args)) := by
  obtain ⟨rs, hrs, hreads⟩ := hes
  exact ⟨r.applyAll rs, by rw [hrs]; rfl, reads_mkApp hfn hreads⟩

include hR hsafe hrender in
/-- An identifier applied to arguments reads as outlined. -/
theorem ensures_ident (hsp : Spells avoid id scope ctx names) {ident : Ident}
    (hident : cfg.IdentNames (Apart avoid P) ident) {args : List TermId}
    (hargs : ∀ a ∈ args, Usable s id id ctx 0 a) :
    Ensures I R (translateIdent cfg render scope ident args) fun e =>
      ReadsAs P names e (outlineIdent cfg (cfg.outline s known) ctx ident args) := by
  unfold Config.IdentNames at hident
  unfold translateIdent outlineIdent
  cases hsite : cfg.table.useSite ident with
  | preserve =>
      rw [hsite] at hident
      refine ensures_bind hR (ensures_terms hR hsafe hrender hsp hargs) fun es hes => ?_
      exact ensures_pure hR (readsAs_mkApp (reads_free (hident names hsp.clear)) hes)
  | rename module name explicit =>
      rw [hsite] at hident
      refine ensures_bind hR (ensures_terms hR hsafe hrender hsp hargs) fun es hes => ?_
      refine ensures_pure hR (readsAs_mkApp ?_ hes)
      cases explicit with
      | false => exact reads_free (hident names hsp.clear)
      | true => exact reads_explicit_free (hident names hsp.clear)
  | expand arity template =>
      rw [hsite] at hident
      dsimp only
      have hfront := ensures_terms hR hsafe hrender hsp
        fun a ha => hargs a (List.mem_of_mem_take (i := arity) ha)
      have hrest := ensures_terms hR hsafe hrender hsp
        fun a ha => hargs a (List.mem_of_mem_drop (i := arity) ha)
      split
      · exact ensures_bind hR (Q := fun _ => False) ensures_throw fun _ h => h.elim
      · refine ensures_bind hR hfront ?_
        rintro front ⟨rs, hrs, hfront'⟩
        refine ensures_bind hR hrest fun rest hrest' => ?_
        have hinstance := Template.reads_instantiate hfront' template
          (hident.imp fun x hx => hx names hsp.clear)
        have hread := readsAs_mkApp hinstance hrest'
        rw [hrs]
        exact ensures_pure hR hread

include hR hsafe hrender in
/-- A constant that has been dealt with reads as outlined. -/
theorem ensures_constant (hsp : Spells avoid id scope ctx names) {ident : Ident}
    {ty : TermId} {body : Option TermId}
    (hdeclare : Ensures I R (declareConstant cfg s render ident ty body) fun _ =>
      known ident || canDeclare cfg s (cfg.outline s known) ident ty body)
    (hident : cfg.IdentNames (Apart avoid P) ident) {args : List TermId}
    (hargs : ∀ a ∈ args, Usable s id id ctx 0 a) :
    Ensures I R (translateConstant cfg s render scope ident ty body args) fun e =>
      ReadsAs P names e
        (outlineConstant cfg s known (cfg.outline s known) ctx ident ty body args) := by
  unfold translateConstant outlineConstant
  refine ensures_bind hR hdeclare fun _ hdealt => ?_
  rw [if_pos hdealt]
  exact ensures_ident hR hsafe hrender hsp hident hargs

include hR hsafe hrender in
/-- A fixed head applied to arguments reads as outlined. -/
theorem ensures_named (hsp : Spells avoid id scope ctx names) {head : String}
    (hhead : head ∈ cfg.fixedNames) {args : List TermId}
    (hargs : ∀ a ∈ args, Usable s id id ctx 0 a) :
    Ensures I R (translateNamed render scope head args) fun e =>
      ReadsAs P names e (outlineNamed (cfg.outline s known) ctx head args) := by
  unfold translateNamed
  refine ensures_bind hR (ensures_terms hR hsafe hrender hsp hargs) fun es hes => ?_
  exact ensures_pure hR
    (readsAs_mkApp (reads_free (hsafe.fixed head hhead names hsp.clear)) hes)

include hR hsafe hrender in
/-- A conditional reads as outlined. -/
theorem ensures_conditional (hsp : Spells avoid id scope ctx names) {c t e : TermId}
    {rest : List TermId} (hc : Usable s id id ctx 0 c) (ht : Usable s id id ctx 0 t)
    (he : Usable s id id ctx 0 e) (hrest : ∀ a ∈ rest, Usable s id id ctx 0 a) :
    Ensures I R (translateConditional render scope c t e rest) fun r =>
      ReadsAs P names r (outlineConditional (cfg.outline s known) ctx c t e rest) := by
  unfold translateConditional outlineConditional
  refine ensures_bind hR (ensures_term hR hsafe hrender hsp hc) ?_
  rintro c' ⟨rc, hrc, hc'⟩
  refine ensures_bind hR (ensures_term hR hsafe hrender hsp ht) ?_
  rintro t' ⟨rt, hrt, ht'⟩
  refine ensures_bind hR (ensures_term hR hsafe hrender hsp he) ?_
  rintro e' ⟨re, hre, he'⟩
  refine ensures_bind hR (ensures_terms hR hsafe hrender hsp hrest) fun es hes => ?_
  rw [hrc, hrt, hre]
  exact ensures_pure hR (readsAs_mkApp (reads_ite hc' ht' he') hes)

include hR hsafe hrender in
/-- An application reads as outlined. -/
theorem ensures_app {f a : TermId} (hnode : s.node id = .app f a)
    (hdeclare : ∀ c ident ty body, s.node c = .constant ident ty body → c ≤ id →
      s.Reaches id c → Ensures I R (declareConstant cfg s render ident ty body) fun _ =>
        known ident || canDeclare cfg s (cfg.outline s known) ident ty body)
    (hsp : Spells avoid id scope ctx names) (hcovers : ctx.Covers (s.looseVars id)) :
    Ensures I R (translateApp cfg s render scope id) fun e =>
      ReadsAs P names e (outlineApp cfg s known (cfg.outline s known) ctx id) := by
  have hspine : s.spineUntil scope.isShared id = s.spineUntil ctx.isLifted id :=
    spineUntil_congr fun c hc => hsp.isShared_eq hc
  have hplaces := strictlyWithin_spineUntil hnode ctx.isLifted
  unfold translateApp outlineApp
  rw [hspine]
  generalize s.spineUntil ctx.isLifted id = spine at hplaces ⊢
  obtain ⟨head, args⟩ := spine
  obtain ⟨hhead, hargs⟩ := hplaces
  dsimp only at hhead hargs ⊢
  have husable : ∀ b ∈ args, Usable s id id ctx 0 b :=
    fun b hb => usable_of_strictlyWithin hcovers (hargs b hb)
  have hnames := hsafe.node _ hhead.1.reaches
  have hother : Ensures I R
      (do
        let fn ← translateTerm render scope head
        return .mkApp fn (← translateTerms render scope args))
      fun e => ReadsAs P names e (do
        let fn ← outlineTerm (cfg.outline s known) ctx head
        return fn.applyAll (← outlineTerms (cfg.outline s known) ctx args)) := by
    refine ensures_bind hR
      (ensures_term hR hsafe hrender hsp (usable_of_strictlyWithin hcovers hhead)) ?_
    rintro fn ⟨rfn, hrfn, hfn⟩
    refine ensures_bind hR (ensures_terms hR hsafe hrender hsp husable) fun es hes => ?_
    rw [hrfn]
    exact ensures_pure hR (readsAs_mkApp hfn hes)
  unfold outlineSpine
  cases hkind : s.node head with
  | global ident =>
      rw [hkind] at hnames
      dsimp only
      unfold outlineGlobal
      split
      · rcases args with _ | ⟨_, _ | ⟨c, _ | ⟨t, _ | ⟨e, rest⟩⟩⟩⟩
        case cons.cons.cons.cons =>
          simp only [List.mem_cons, forall_eq_or_imp] at husable
          obtain ⟨-, hc, ht, he, hrest⟩ := husable
          exact ensures_conditional hR hsafe hrender hsp hc ht he hrest
        all_goals exact ensures_ident hR hsafe hrender hsp hnames husable
      · exact ensures_ident hR hsafe hrender hsp hnames husable
  | constant ident ty body =>
      rw [hkind] at hnames
      exact ensures_constant hR hsafe hrender hsp
        (hdeclare head ident ty body hkind (le_of_lt hhead.2) hhead.1.reaches) hnames husable
  | _ => exact hother

/-! ## Data -/

include hR hsafe hrender in
/-- A chain of fields reads as outlined. -/
theorem ensures_fields (hsp : Spells avoid id scope ctx names) {cons nil : String}
    (hcons : cons ∈ cfg.fixedNames) (hnil : nil ∈ cfg.fixedNames) :
    {fields : List (String × TermId)} → (∀ p ∈ fields, Usable s id id ctx 0 p.2) →
      Ensures I R (translateFields render scope cons nil fields) fun e =>
        ReadsAs P names e (outlineFields (cfg.outline s known) ctx cons nil fields)
  | [], _ => ensures_pure hR ⟨_, rfl, reads_free (hsafe.fixed nil hnil names hsp.clear)⟩
  | (x, c) :: rest, husable => by
      rw [translateFields, outlineFields]
      refine ensures_bind hR (ensures_term hR hsafe hrender hsp (husable (x, c) (by simp))) ?_
      rintro v ⟨rv, hrv, hv⟩
      refine ensures_bind hR
        (ensures_fields hsp hcons hnil fun p hp => husable p (by simp [hp])) ?_
      rintro tail ⟨rt, hrt, htail⟩
      rw [hrv, hrt]
      exact ensures_pure hR ⟨_, rfl,
        reads_mkApp (reads_free (hsafe.fixed cons hcons names hsp.clear))
          (.cons (reads_string x) (.cons hv (.cons htail .nil)))⟩

include hR hsafe hrender in
/-- A record or a record type reads as outlined. -/
theorem ensures_record (hsp : Spells avoid id scope ctx names) {cons nil : String}
    (hcons : cons ∈ cfg.fixedNames) (hnil : nil ∈ cfg.fixedNames)
    {fields : List (String × TermId)} (husable : ∀ p ∈ fields, Usable s id id ctx 0 p.2) :
    Ensures I R (translateRecord render scope cons nil fields) fun e =>
      ReadsAs P names e (outlineRecord (cfg.outline s known) ctx cons nil fields) :=
  ensures_fields hR hsafe hrender hsp hcons hnil
    fun p hp => husable p (List.mem_mergeSort.mp hp)

include hR hsafe hrender in
/-- A field of a record reads as outlined. -/
theorem ensures_proj (hsp : Spells avoid id scope ctx names) {c : TermId}
    (hc : Usable s id id ctx 0 c) (field : String) :
    Ensures I R
      (do
        return .mkApp (.var "RecordProj") [← translateTerm render scope c, .string field])
      fun e => ReadsAs P names e (outlineProj (cfg.outline s known) ctx c field) := by
  refine ensures_bind hR (ensures_term hR hsafe hrender hsp hc) ?_
  rintro e ⟨r, hr, he⟩
  rw [outlineProj, hr]
  exact ensures_pure hR ⟨_, rfl,
    reads_mkApp (reads_free (hsafe.fixed _ (by simp [Config.fixedNames]) names hsp.clear))
      (.cons he (.cons (reads_string field) .nil))⟩

include hR hsafe hrender in
/-- A vector literal reads as outlined. -/
theorem ensures_array (hsp : Spells avoid id scope ctx names) (elemType : TermId)
    {elems : List TermId} (husable : ∀ c ∈ elems, Usable s id id ctx 0 c) :
    Ensures I R (translateArray cfg s render scope elemType elems) fun e =>
      ReadsAs P names e (outlineArray cfg s (cfg.outline s known) ctx elemType elems) := by
  have hhead : ∀ x ∈ [cfg.options.bvLiteralCtor, cfg.options.vectorCtor],
      Reads P names (.var x) (.free x) := by
    intro x hx
    refine reads_free (hsafe.fixed x ?_ names hsp.clear)
    simp only [Config.fixedNames, List.mem_cons, List.not_mem_nil, or_false] at hx ⊢
    tauto
  unfold translateArray outlineArray
  cases literalBits? s elemType elems with
  | some bits =>
      exact ensures_pure hR ⟨_, rfl, reads_mkApp (hhead cfg.options.bvLiteralCtor (by simp))
        (.cons (reads_nat _) (.cons (reads_nat _) .nil))⟩
  | none =>
      refine ensures_bind hR (ensures_terms hR hsafe hrender hsp husable) ?_
      rintro es ⟨rs, hrs, hes⟩
      dsimp only
      rw [hrs]
      exact ensures_pure hR ⟨_, rfl, reads_mkApp (hhead cfg.options.vectorCtor (by simp))
        (.cons (reads_list hes) .nil)⟩

include hR hsafe hrender in
/-- The case of a constructor, or the error in its place, reads as outlined. -/
theorem ensures_case (hsp : Spells avoid id scope ctx names)
    {cases : List (Ident × TermId)} (husable : ∀ p ∈ cases, Usable s id id ctx 0 p.2)
    (ctor : Ident) :
    Ensures I R (translateCase cfg render scope cases ctor) fun e =>
      ReadsAs P names e (outlineCase cfg (cfg.outline s known) ctx cases ctor) := by
  unfold translateCase outlineCase
  cases hfind : cases.find? fun p => p.1 = ctor with
  | some p =>
      exact ensures_term hR hsafe hrender hsp (husable p (List.mem_of_find?_eq_some hfind))
  | none =>
      dsimp only
      split
      · exact ensures_throw
      · refine ensures_pure hR ⟨_, rfl, reads_mkApp (reads_free ?_)
          (.cons (reads_string _) .nil)⟩
        exact hsafe.fixed "error" (by simp [Config.fixedNames]) names hsp.clear

include hR hsafe hrender in
/-- A recursor reads as outlined. -/
theorem ensures_recursor (hsp : Spells avoid id scope ctx names) {datatype : Ident}
    (hdatatype : ∀ target, counterpart? cfg datatype = some target →
      Apart avoid P (target ++ ".rec"))
    {params : List TermId} (hparams : ∀ p ∈ params, Usable s id id ctx 0 p)
    {motive : TermId} (hmotive : Usable s id id ctx 0 motive) (order : List Ident)
    {cases : List (Ident × TermId)} (hcases : ∀ p ∈ cases, Usable s id id ctx 0 p.2) :
    Ensures I R (translateRecursor cfg render scope datatype params motive order cases)
      fun e => ReadsAs P names e
        (outlineRecursor cfg (cfg.outline s known) ctx datatype params motive order cases) := by
  unfold translateRecursor outlineRecursor
  cases htarget : counterpart? cfg datatype with
  | none => exact ensures_throw
  | some target =>
      dsimp only
      refine ensures_bind hR (ensures_terms hR hsafe hrender hsp hparams) ?_
      rintro ps ⟨rps, hrps, hps⟩
      refine ensures_bind hR (ensures_term hR hsafe hrender hsp hmotive) ?_
      rintro mo ⟨rmo, hrmo, hmo⟩
      refine ensures_bind hR (ensures_mapM hR fun ctor _ =>
        ensures_case hR hsafe hrender hsp hcases ctor) fun cs hcs => ?_
      obtain ⟨rcs, hrcs, hcs'⟩ := exists_mapM_of_readsAs hcs
      refine ensures_pure hR ⟨(Resolved.free (target ++ ".rec")).applyAll (rps ++ rmo :: rcs),
        by rw [hrps, hrmo, hrcs]; rfl, ?_⟩
      exact reads_mkApp (reads_free (hdatatype target htarget names hsp.clear))
        (List.rel_append hps (.cons hmo hcs'))

/-! ## Nodes -/

include hR hsafe hrender in
/-- A node reads as outlined. -/
theorem ensures_step
    (hdeclare : ∀ c ident ty body, s.node c = .constant ident ty body → c ≤ id →
      s.Reaches id c → Ensures I R (declareConstant cfg s render ident ty body) fun _ =>
        known ident || canDeclare cfg s (cfg.outline s known) ident ty body)
    (hsp : Spells avoid id scope ctx names) (hcovers : ctx.Covers (s.looseVars id)) :
    Ensures I R (translateStep cfg s render scope id) fun e =>
      ReadsAs P names e (cfg.outline s known ctx id) := by
  have hpart : ∀ {c d}, (c, d) ∈ (s.node id).childrenWithDepth → Usable s id id ctx d c :=
    fun hc => usable_of_strictlyWithin hcovers (strictlyWithin_part hc)
  have hnames := hsafe.node id (.refl id)
  have hfixed : ∀ x ∈ cfg.fixedNames, ReadsAs P names (.var x) (some (.free x)) :=
    fun x hx => ⟨_, rfl, reads_free (hsafe.fixed x hx names hsp.clear)⟩
  rw [outline_eq]
  unfold translateStep outlineStep
  cases hnode : s.node id with
  | global ident =>
      rw [hnode] at hnames
      exact ensures_ident hR hsafe hrender hsp hnames (by simp)
  | constant ident ty body =>
      rw [hnode] at hnames
      exact ensures_constant hR hsafe hrender hsp
        (hdeclare id ident ty body hnode le_rfl (.refl id)) hnames (by simp)
  | free x ty =>
      rw [hnode] at hnames
      exact ensures_pure hR ⟨_, rfl, reads_free (hnames names hsp.clear)⟩
  | bound i =>
      have hcovered : ctx.isUnnamed i = false :=
        hcovers i (by rw [looseVars_of_node_bound hnode]; exact List.mem_singleton_self i)
      dsimp only
      split
      · rename_i x hx
        obtain ⟨k, hk, hname⟩ := hsp.spelled.local?_eq hx hcovered
        exact ensures_pure hR ⟨.bound k, by rw [hk]; rfl, reads_name hsafe hsp hname⟩
      · exact ensures_throw
  | sort level flags => exact ensures_pure hR ⟨_, rfl, reads_sort level⟩
  | nat n => exact ensures_pure hR ⟨_, rfl, reads_nat n⟩
  | string t => exact ensures_pure hR ⟨_, rfl, reads_string t⟩
  | bool b =>
      exact ensures_pure hR (hfixed _ (by cases b <;> simp [Config.fixedNames]))
  | unit | unitType => exact ensures_pure hR (hfixed _ (by simp [Config.fixedNames]))
  | app f a => exact ensures_app hR hsafe hrender hnode hdeclare hsp hcovers
  | pair a b | pairType a b | pairLeft a | pairRight a =>
      refine ensures_named hR hsafe hrender hsp (by simp [Config.fixedNames]) fun c hc => ?_
      exact hpart (by simpa [hnode, Node.childrenWithDepth] using hc)
  | recordType fields | record fields =>
      refine ensures_record hR hsafe hrender hsp (by simp [Config.fixedNames])
        (by simp [Config.fixedNames]) fun p hp => hpart ?_
      rw [hnode]
      exact List.mem_map_of_mem (f := fun p : String × TermId => (p.2, 0)) hp
  | proj r field =>
      exact ensures_proj hR hsafe hrender hsp
        (hpart (by simp [hnode, Node.childrenWithDepth])) field
  | array elemType elems =>
      refine ensures_array hR hsafe hrender hsp elemType fun c hc => hpart ?_
      simp [hnode, Node.childrenWithDepth, hc]
  | data ident params rest | ctor ident params rest =>
      rw [hnode] at hnames
      refine ensures_ident hR hsafe hrender hsp hnames fun c hc => hpart ?_
      simpa [hnode, Node.childrenWithDepth] using hc
  | recursor datatype params motive order cases =>
      rw [hnode] at hnames
      refine ensures_recursor hR hsafe hrender hsp hnames (fun c hc => hpart ?_) (hpart ?_)
        order (fun p hp => hpart ?_)
      · simp [hnode, Node.childrenWithDepth, hc]
      · simp [hnode, Node.childrenWithDepth]
      · rw [hnode, Node.childrenWithDepth, List.mem_append, List.mem_cons]
        exact Or.inr (Or.inr
          (List.mem_map_of_mem (f := fun p : Ident × TermId => (p.2, 0)) hp))
  | lam x ty b => exact ensures_lam hR hsafe hrender hnode hsp hcovers
  | pi x ty b => exact ensures_pi hR hsafe hrender hnode hsp hcovers
  | letIn x ty value b => exact ensures_let hR hsafe hrender hnode hsp hcovers
  | fix x ty b => exact ensures_throw

end Step

end TermGraph
