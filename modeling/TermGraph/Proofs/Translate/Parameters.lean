import Mathlib
import TermGraph.Proofs.Target.Arrows
import TermGraph.Proofs.Translate.Again
import TermGraph.Proofs.Translate.Lifting

/-!
# The parameters of a definition agree with its plain form

The binders of a definition's body become parameters when its type has as many binders of
its own.  The parameters have the names of the body's binders and the types of the type's,
and what follows both chains of binders is translated inside the parameters.

If the binders have the same types, nothing is lost by this.  The declared type, as a function
type of the parameters, is the translation of the type, up to the naming of unused binders.
The declared body, as a function of the parameters, is the translation of the body once the
names of shared subterms are replaced by their values.
-/

namespace TermGraph

open Target Store Target.Resolved

/-! ## Outlines of chains -/

section Outlines

variable {cfg : Config} {s : Store} {known : Ident → Bool} {ctx : Context}

/-- A binder gets a name. -/
theorem moves_name (limit : TermId) :
    Moves cfg s (cfg.outline s known) (liftVar 1) (.unnamed :: ctx) (.named :: ctx) limit False
      fun _ => True where
  below := fun h => if_pos h
  locals := by
    intro _ i j hj
    cases i with
    | zero => cases hj
    | succ i =>
        refine ⟨j + 1, by rw [Context.local?, show ctx.local? i = some j from hj]; rfl, ?_⟩
        intro d
        rw [liftVar, if_neg (by omega), Nat.add_right_comm]
  lifted := by
    intro q c j _ _ hq hc
    rw [outlineTerm, Context.lifted?_append_of_none _ _ hq, Context.lifted?,
      show ctx.lifted? c = some j from hc]
    simp [liftVar, Nat.add_right_comm]
  unlifted := by
    intro c _ hc
    rw [Context.lifted?, show ctx.lifted? c = none from hc]
    rfl
  named := by
    intro c _ hc hnot
    rw [Context.isLifted, Context.lifted?, Option.isSome_map] at hnot
    rw [Context.isLifted, Context.lifted?, hnot] at hc
    cases hc
  push := fun _ => ⟨trivial, trivial, trivial⟩

/-- A term means the same under a binder that nothing refers to, with a name or without. -/
theorem outlineTerm_named (htable : cfg.table.BindsNothing) {c : TermId} {r : Resolved}
    (hr : outlineTerm (cfg.outline s known) (.unnamed :: ctx) c = some r) :
    outlineTerm (cfg.outline s known) (.named :: ctx) c = some (r.lift 1) := by
  have hm : Moves cfg s (cfg.outline s known) (liftVar 1) (.unnamed :: ctx) (.named :: ctx)
      (c + 1) False fun _ => True := moves_name (c + 1)
  have hc : Inner s (c + 1) False (fun _ => True) [] 0 c :=
    ⟨Nat.lt_succ_self c, trivial, False.elim⟩
  exact moved_term hm le_rfl
    (fun q b hb => moved_outline htable hm (le_of_lt hb.lt) hb.ok hb.bound) hc r hr

theorem isLifted_named (c : TermId) :
    Context.isLifted (.named :: ctx) c = ctx.isLifted c := by
  simp [Context.isLifted, Context.lifted?]

/-- A function type, one binder at a time, is the function type of all binders of its chain,
except that a binder has no name where the codomain does not refer to it. -/
theorem nameArrows_outline_piChain (htable : cfg.table.BindsNothing) (ty : TermId) :
    ∀ {ctx : Context} {r rs codomain}, (∀ c, ctx.isLifted c = false) →
      outlineTerm (cfg.outline s known) ctx ty = some r →
      outlineParams s (cfg.outline s known) ctx ((s.piChain ty).1.map (·.2)) = some rs →
      outlineTerm (cfg.outline s known) (insideParams s ctx ((s.piChain ty).1.map (·.2)))
        (s.piChain ty).2 = some codomain →
      r.nameArrows = (pis rs codomain).nameArrows := by
  induction ty using Nat.strong_induction_on with
  | _ ty ih =>
      intro ctx r rs codomain hlifted hr hrs hcodomain
      by_cases hpi : ∃ x d b, s.node ty = .pi x d b
      case neg =>
        rw [piChain_of_not fun x d b h => hpi ⟨x, d, b, h⟩] at hrs hcodomain
        cases hrs
        cases hr.symm.trans hcodomain
        rfl
      obtain ⟨x, d, b, hnode⟩ := hpi
      have hb := (strictlyWithin_pi hnode).2.2
      rw [piChain_of_node hnode] at hrs hcodomain
      rw [outlineTerm_of_not_isLifted (hlifted ty), outlineStep, hnode] at hr
      obtain ⟨front, hfront, hrest⟩ := Option.bind_eq_some_iff.mp hrs
      obtain ⟨back, hback, hpure⟩ := Option.bind_eq_some_iff.mp hrest
      cases hpure
      have hcodomain : outlineTerm (cfg.outline s known)
          (insideParams s (insideBinder s ctx d) ((s.piChain b).1.map (·.2))) (s.piChain b).2 =
            some codomain := hcodomain
      dsimp only [outlinePi] at hr
      split at hr
      · -- A binder that is referred to, or that has hypotheses, is named in both forms.
        obtain ⟨front', hfront', hrest'⟩ := Option.bind_eq_some_iff.mp hr
        obtain ⟨rb, hrb, hpure⟩ := Option.bind_eq_some_iff.mp hrest'
        cases hpure
        rw [hfront] at hfront'
        cases hfront'
        have hinside : ∀ c, (insideBinder s ctx d).isLifted c = false := fun c => by
          rw [isLifted_insideBinder, hlifted]
        rw [pis_append, nameArrows_pis, nameArrows_pis, ih b hb hinside hrb hback hcodomain]
      · -- An unused binder has no hypotheses, so it is the only one of its layer.
        rename_i hunused
        obtain ⟨rd, hrd, hrest'⟩ := Option.bind_eq_some_iff.mp hr
        obtain ⟨rb, hrb, hpure⟩ := Option.bind_eq_some_iff.mp hrest'
        cases hpure
        rw [Bool.or_eq_true, not_or, Bool.not_eq_true', Bool.not_eq_false] at hunused
        have hclasses : classesOf s d = [] := by
          rw [classesOf, constraintClasses_of_isEmpty hunused.2, List.map_nil]
        have hone : front = [(false, rd)] := by
          rw [outlineBinder, hrd, hclasses] at hfront
          exact (Option.some.inj hfront).symm
        have hcontext : insideBinder s ctx d = .named :: ctx := by
          rw [insideBinder, hclasses]
          rfl
        rw [hcontext] at hback hcodomain
        have hinside : ∀ c, Context.isLifted (.named :: ctx) c = false := fun c => by
          rw [isLifted_named, hlifted]
        have hrb' := ih b hb hinside (outlineTerm_named htable hrb) hback hcodomain
        rw [hone, pis_append, nameArrows_pis, ← hrb', nameArrows_lift]
        rfl

/-- A function, one binder at a time, is the function of all binders of its chain. -/
theorem outlineLams_lamChain (hlifted : ∀ c, ctx.isLifted c = false) (body : TermId) :
    outlineLams s (cfg.outline s known) ctx ((s.lamChain body).1.map (·.2))
        (s.lamChain body).2 = outlineTerm (cfg.outline s known) ctx body := by
  have htail : outlineLams s (cfg.outline s known) ctx
      ((s.lamTail (fun _ => false) body).1.map (·.type)) (s.lamTail (fun _ => false) body).2 =
      outlineTerm (cfg.outline s known) ctx body :=
    outlineLams_chain (s.chain_lamTail _ body) ctx fun c _ => (hlifted c).symm
  rw [lamTail, if_neg Bool.false_ne_true] at htail
  simpa [lamChain, Function.comp_def] using htail

end Outlines

/-! ## Runs of a definition -/

theorem zipWith_params_eq {pis lams : List (String × TermId)}
    (h : lams.map (·.2) = pis.map (·.2)) :
    List.zipWith (fun pi lam => ((lam.1, pi.2) : String × TermId)) pis lams = lams := by
  induction pis generalizing lams with
  | nil =>
      rw [List.map_nil, List.map_eq_nil_iff] at h
      rw [h]
      rfl
  | cons p pis ih =>
      obtain ⟨l, lams, rfl⟩ : ∃ l rest, lams = l :: rest :=
        List.exists_cons_of_ne_nil fun hnil => by simp [hnil] at h
      rw [List.map_cons, List.map_cons, List.cons.injEq] at h
      rw [List.zipWith_cons_cons, ih h.2, ← h.1]

theorem Telescope.length_eq {P : List String → String → Prop}
    {names names' : List String} {bs : List (Binder Expr)} {rs : List (Bool × Resolved)}
    (h : Telescope P names bs rs names') : bs.length = rs.length := by
  induction h with
  | nil => rfl
  | cons _ _ _ ih => exact congrArg (· + 1) ih

section Runs

variable {cfg : Config} {s : Store} {render : Render} {scope : Scope} {e e' : Emission}

theorem length_shareBindings {named : List (TermId × String)} {bindings : List (Binding Expr)}
    (hrun : (shareBindings render scope named).run e = .ok (bindings, e')) :
    bindings.length = named.length := by
  induction named generalizing e bindings with
  | nil =>
      cases hrun
      rfl
  | cons p rest ih =>
      obtain ⟨value, e₁, -, hrest⟩ := run_bind_eq_ok.mp hrun
      obtain ⟨bindings', e₂, hbindings, hpure⟩ := run_bind_eq_ok.mp hrest
      cases hpure
      exact congrArg (· + 1) (ih hbindings)

/-- A term inside bindings of its shared subterms has one binding for each of them. -/
theorem translateLifted_eq_mkLet {root : TermId} {t : Expr}
    (hrun : (translateLifted cfg s render scope root).run e = .ok (t, e')) :
    ∃ bindings body, t = .mkLet bindings body ∧
      bindings.length = (cfg.namedTerms s root).length := by
  unfold translateLifted at hrun
  generalize cfg.namedTerms s root = ids at hrun ⊢
  dsimp only at hrun
  split at hrun
  · rename_i hempty
    rw [List.isEmpty_iff.mp hempty]
    exact ⟨[], t, rfl, rfl⟩
  · have hlength := scope.length_freshMany cfg.options.sharedNameBase ids.length
    generalize scope.freshMany cfg.options.sharedNameBase ids.length = picked at hlength hrun
    obtain ⟨names, inside⟩ := picked
    obtain ⟨bindings, e₁, hbindings, hrest⟩ := run_bind_eq_ok.mp hrun
    obtain ⟨body, e₂, -, hpure⟩ := run_bind_eq_ok.mp hrest
    cases hpure
    refine ⟨bindings, body, rfl, ?_⟩
    rw [length_shareBindings hbindings, List.length_zip, hlength, min_self]

/-- A definition with parameters: the binders of the body are entered, and then what follows
the binders of the type and of the body is translated inside. -/
theorem run_translateDefinition_params {name : String} {ty body : TermId} {d : Decl}
    (hpos : (s.piChain ty).1 ≠ [])
    (htypes : (s.lamChain body).1.map (·.2) = (s.piChain ty).1.map (·.2))
    (hrun : (translateDefinition cfg s render scope name ty body).run e = .ok (d, e')) :
    ∃ params inside e₁ type e₂ value,
      (bindParams s render scope (s.lamChain body).1).run e = .ok ((params, inside), e₁) ∧
      (translateTerm render inside (s.piChain ty).2).run e₁ = .ok (type, e₂) ∧
      (translateLifted cfg s render inside (s.lamChain body).2).run e₂ = .ok (value, e') ∧
      d = .definition name params (some type) value := by
  have hlength : (s.piChain ty).1.length = (s.lamChain body).1.length := by
    simpa using (congrArg List.length htypes).symm
  have hplain : ¬((s.piChain ty).1.isEmpty ||
      decide ((s.piChain ty).1.length ≠ (s.lamChain body).1.length)) = true := by
    simp [hpos, hlength]
  unfold translateDefinition at hrun
  dsimp only at hrun
  rw [if_neg hplain, zipWith_params_eq htypes] at hrun
  obtain ⟨⟨params, inside⟩, e₁, hparams, hrun⟩ := run_bind_eq_ok.mp hrun
  obtain ⟨type, e₂, htype, hrun⟩ := run_bind_eq_ok.mp hrun
  obtain ⟨value, e₃, hvalue, hpure⟩ := run_bind_eq_ok.mp hrun
  cases hpure
  exact ⟨params, inside, e₁, type, e₂, value, hparams, htype, hvalue, rfl⟩

end Runs

/-! ## What the runs give -/

section Reads

variable {cfg : Config} {s : Store} {e₀ : Emission} {roots : List TermId} {ty body : TermId}
  {params : List (Binder Expr)} {inside : Scope} {type value : Expr}

/-- The parameters of a definition, and what is translated inside them, read as outlined. -/
theorem outlines_of_definition (htable : cfg.table.BindsNothing) (hty : ty ∈ roots)
    (hbody : body ∈ roots)
    (htypes : (s.lamChain body).1.map (·.2) = (s.piChain ty).1.map (·.2))
    {e e₁ e₂ e₃ : Emission}
    (hparams : (bindParams s (cfg.translateNode s) (Scope.ofUnit cfg e₀ s roots)
      (s.lamChain body).1).run e = .ok ((params, inside), e₁))
    (htype : (translateTerm (cfg.translateNode s) inside (s.piChain ty).2).run e₁ =
      .ok (type, e₂))
    (hvalue : (translateLifted cfg s (cfg.translateNode s) inside (s.lamChain body).2).run e₂ =
      .ok (value, e₃)) :
    let ctx := insideParams s [] ((s.lamChain body).1.map (·.2))
    ∃ names rs codomain inner, Spells (cfg.Avoided e₀ s roots) (body + 1) inside ctx names ∧
      Usable s body (body + 1) ctx 0 (s.lamChain body).2 ∧
      outlineParams s (cfg.meaning s) [] ((s.lamChain body).1.map (·.2)) = some rs ∧
      outlineTerm (cfg.meaning s) ctx (s.piChain ty).2 = some codomain ∧
      outlineLifted cfg s (cfg.meaning s) ctx (s.lamChain body).2 = some inner ∧
      (Expr.pi (params.map namedPi) type).resolve [] = pis rs codomain ∧
      (Expr.lam params value).resolve [] = lams rs inner ∧ params.length = rs.length := by
  intro ctx
  have hunits : UnitsSafe cfg s fun _ _ => True := unitsSafe_scoped htable
  have hsafe := hunits e₀ roots
  have hrender : ∀ limit top, ∀ c < limit, s.Reaches top c → RendersAt cfg s (cfg.meaning s)
      (fun _ => True) (Emits cfg s fun _ _ => True) (cfg.translateNode s) c :=
    fun _ _ c _ _ => rendersAt_translateNode hunits c
  obtain ⟨hdomains, hinner⟩ := s.within_lamChain body
  have hcodomain := (s.within_piChain ty).2
  -- The type and the body stand in one context, as the binders of both have the same types.
  have husable : Usable s body (max ty body + 1) ctx 0 (s.lamChain body).2 := by
    refine Usable.insideParams _ ?_
    rw [List.length_map]
    exact (usable_top (Nat.lt_succ_of_le (le_max_right ty body))).within hinner
  have husable' : Usable s ty (max ty body + 1) ctx 0 (s.piChain ty).2 := by
    refine Usable.insideParams _ ?_
    rw [htypes, List.length_map]
    exact (usable_top (Nat.lt_succ_of_le (le_max_left ty body))).within hcodomain
  obtain ⟨-, names, rs, hrs, htel, hsp⟩ := ensures_bindParams composes_emits_true
    (hsafe body hbody) (hrender (max ty body + 1) body) _ (spells_ofUnit _)
    (fun j p hp => (usable_top (Nat.lt_succ_of_le (le_max_right ty body))).within_zero
      (hdomains j p hp).1) e _ e₁ trivial hparams
  obtain ⟨-, rt, hrt, hreadt⟩ := ensures_term composes_emits_true (hsafe ty hty)
    (hrender _ _) hsp husable' e₁ type e₂ trivial htype
  obtain ⟨-, rv, hrv, hreadv⟩ := ensures_lifted composes_emits_true (hsafe body hbody)
    (hrender _ _) hsp husable e₂ value e₃ trivial hvalue
  have hpi := htel.reads_pi (reads_pi_nil hreadt)
  have hlam := htel.reads_lam (reads_lam_nil hreadv)
  rw [List.append_nil] at hpi hlam
  refine ⟨names, rs, rt, rv, hsp.mono ?_, ⟨?_, husable.reaches, husable.covered⟩, hrs, hrt, hrv,
    hpi.resolve_eq, hlam.resolve_eq, htel.length_eq⟩
  · exact Nat.succ_le_succ (le_max_right ty body)
  · exact Nat.lt_succ_of_le hinner.reaches.le

/-- A term that is translated in a unit of its own reads as outlined. -/
theorem resolve_plain (htable : cfg.table.BindsNothing) {root : TermId} (hroot : root ∈ roots)
    {e e' : Emission} {plain : Expr}
    (hrun : (translateTerm (cfg.translateNode s) (Scope.ofUnit cfg e₀ s roots) root).run e =
      .ok (plain, e')) :
    outlineTerm (cfg.meaning s) [] root = some (plain.resolve []) := by
  have hunits : UnitsSafe cfg s fun _ _ => True := unitsSafe_scoped htable
  obtain ⟨-, r, hr, hread⟩ := ensures_term composes_emits_true (hunits e₀ roots root hroot)
    (fun c _ _ => rendersAt_translateNode hunits c) (spells_ofUnit (root + 1))
    (usable_top (Nat.lt_succ_self root)) e plain e' trivial hrun
  rw [hread.resolve_eq, hr]

end Reads

/-! ## The plain form can be translated as well -/

theorem isShared_ofUnit (cfg : Config) (e : Emission) (s : Store) (roots : List TermId) :
    (Scope.ofUnit cfg e s roots).isShared = fun _ => false := by
  funext c
  rw [Scope.isShared]
  exact Std.HashMap.contains_empty

theorem translateTerm_ofUnit (cfg : Config) (e : Emission) (s : Store) (roots : List TermId)
    (render : Render) (id : TermId) :
    translateTerm render (Scope.ofUnit cfg e s roots) id =
      render (Scope.ofUnit cfg e s roots) id := by
  rw [translateTerm, show (Scope.ofUnit cfg e s roots).shared[id]? = none from
    Std.HashMap.getElem?_empty]

theorem Alike.exists_run {closed : Prop} {α β : Type} {m : Emit α} {m' : Emit β}
    {Q : α → β → Prop} (h : Alike closed m m' Q) {e e' : Emission} {a : α}
    (hrun : m.run e = .ok (a, e')) : ∃ b, m'.run e = .ok (b, e') ∧ Q a b := by
  rw [Emit.run_eq_ok] at hrun
  rcases h e with ⟨a', b, e₁, ha, hb, hQ⟩ | ⟨err, e₁, ha, -, -⟩
  · rw [hrun] at ha
    cases ha
    exact ⟨b, Emit.run_eq_ok.mpr hb, hQ⟩
  · rw [hrun] at ha
    cases ha

section Plain

variable {cfg : Config} {s : Store} {e₀ : Emission} {roots : List TermId} {ty body : TermId}
  {params : List (Binder Expr)} {inside : Scope} {type : Expr} {e e₁ e₂ e₃ : Emission}

/-- Where parameters of the types of a chain are entered and what follows the chain is
translated inside, the function type itself is translated and emits the same. -/
theorem exists_plain_type (hpos : (s.piChain ty).1 ≠ [])
    (htypes : (s.lamChain body).1.map (·.2) = (s.piChain ty).1.map (·.2))
    (hparams : (bindParams s (cfg.translateNode s) (Scope.ofUnit cfg e₀ s roots)
      (s.lamChain body).1).run e = .ok ((params, inside), e₁))
    (htype : (translateTerm (cfg.translateNode s) inside (s.piChain ty).2).run e₁ =
      .ok (type, e₂)) :
    ∃ plain, (translateTerm (cfg.translateNode s) (Scope.ofUnit cfg e₀ s roots) ty).run e =
      .ok (plain, e₂) := by
  obtain ⟨x, d, b, hnode⟩ : ∃ x d b, s.node ty = .pi x d b := by
    by_contra hnot
    rw [piChain_of_not fun x d b h => hnot ⟨x, d, b, h⟩] at hpos
    exact hpos rfl
  have hlt := lt_of_piLayers hnode fun _ => false
  have hlayers : (s.lamChain body).1.map (·.2) =
      (s.piLayers (fun _ => false) ty).1.map (·.type) := by
    rw [htypes, piChain, List.map_map]
    rfl
  have hrender : ∀ {scope scope'}, Scope.Level False scope scope' →
      ∀ {c}, s.Enclosed False ty scope.depth c →
        Alike False (cfg.translateNode s scope c) (cfg.renderBelow s ty scope' c)
          (EqualIf False) := by
    intro scope scope' h c hc
    rw [renderBelow_eq hc.lt]
    exact alike_translateNode c h
  -- The names of parameters are those of the body's binders, so the two runs pick other names
  -- and agree in what they emit only.
  have halike : Alike False
      (do
        let r ← bindParams s (cfg.translateNode s) (Scope.ofUnit cfg e₀ s roots)
          (s.lamChain body).1
        translateTerm (cfg.translateNode s) r.2 (s.piChain ty).2)
      (translatePi s (cfg.renderBelow s ty) (Scope.ofUnit cfg e₀ s roots) ty)
      fun _ _ => True := by
    unfold translatePi
    rw [isShared_ofUnit]
    refine (alike False).rel_bind (rel_bindParams_bindPis (J := alike False) hrender
      (Scope.level_refl _) hlayers fun p hp => ?_) fun r r' hlevel => ?_
    · obtain ⟨l, hl, heq⟩ := List.mem_map.mp (hlayers ▸ List.mem_map_of_mem hp)
      exact heq ▸ hlt.1 l hl
    · rw [← bind_pure (translateTerm (cfg.translateNode s) r.2 (s.piChain ty).2)]
      exact Pairing.rel_map (J := alike False) (rel_term hrender hlevel ⟨hlt.2, False.elim⟩)
        fun _ _ _ => trivial
  obtain ⟨plain, hplain, -⟩ :=
    halike.exists_run (run_bind_eq_ok.mpr ⟨(params, inside), e₁, hparams, htype⟩)
  refine ⟨plain, ?_⟩
  rw [translateTerm_ofUnit, translateNode_eq, translateStep, hnode]
  exact hplain

/-- Once parameters have been entered, functions of the same binders can be entered again, so
the whole function is translated as soon as what follows its binders is. -/
theorem exists_plain_body (hpos : (s.lamChain body).1 ≠ [])
    (hparams : (bindParams s (cfg.translateNode s) (Scope.ofUnit cfg e₀ s roots)
      (s.lamChain body).1).run e = .ok ((params, inside), e₁)) (hkept : Remembers e₁ e₂)
    {inner : Expr}
    (hinner : (translateTerm (cfg.translateNode s) inside (s.lamChain body).2).run e₂ =
      .ok (inner, e₃)) :
    ∃ plain, (translateTerm (cfg.translateNode s) (Scope.ofUnit cfg e₀ s roots) body).run e₂ =
      .ok (plain, e₃) := by
  obtain ⟨x, d, b, hnode⟩ : ∃ x d b, s.node body = .lam x d b := by
    by_contra hnot
    refine hpos ?_
    rw [lamChain, lamLayers_of_not fun x d b h => hnot ⟨x, d, b, h⟩]
    rfl
  have hlt := lt_of_lamLayers hnode fun _ => false
  have hrender : ∀ {scope scope'}, Scope.Level True scope scope' →
      ∀ {c}, s.Enclosed False body scope.depth c →
        Repeats (cfg.translateNode s scope c) (cfg.renderBelow s body scope' c)
          (EqualIf True) := by
    intro scope scope' h c hc
    rw [renderBelow_eq hc.lt]
    exact repeats_translateNode c h
  -- The parameters of the definition and those of the function are entered from one scope, so
  -- the second run picks the same names.
  have hagain : Repeats
      (bindParams s (cfg.translateNode s) (Scope.ofUnit cfg e₀ s roots) (s.lamChain body).1)
      (bindParams s (cfg.renderBelow s body) (Scope.ofUnit cfg e₀ s roots) (s.lamChain body).1)
      (Opens True ((Scope.ofUnit cfg e₀ s roots).depth + (s.lamChain body).1.length)) := by
    refine rel_bindParams (J := repeats) hrender (Scope.level_refl _) fun j p hp =>
      ⟨((s.within_lamChain body).1 j p hp).2, False.elim⟩
  obtain ⟨⟨params', inside'⟩, hagain, hsame⟩ := (hagain e _ e₁ hparams).2 e₂ hkept
  have hterm : translateTerm (cfg.renderBelow s body) inside' (s.lamChain body).2 =
      translateTerm (cfg.translateNode s) inside (s.lamChain body).2 := by
    have hlast : (s.lamChain body).2 < body := hlt.2
    unfold translateTerm
    rw [hsame.level.shared, renderBelow_eq hlast, translateNode_congr hsame.level]
  refine ⟨.lam params' inner, ?_⟩
  rw [translateTerm_ofUnit, translateNode_eq, translateStep, hnode]
  dsimp only [translateLam]
  rw [isShared_ofUnit]
  refine run_bind_eq_ok.mpr ⟨(params', inside'), e₂, hagain,
    run_bind_eq_ok.mpr ⟨inner, e₃, ?_, rfl⟩⟩
  rw [← hinner, ← hterm]
  rfl

end Plain

section Inner

variable {cfg : Config} {s : Store} {avoid : String → Prop} {scope : Scope} {ctx : Context}
  {names : List String} {top root : TermId}

theorem Context.lifted?_eq_none_of_isLifted {id : TermId} (h : ctx.isLifted id = false) :
    ctx.lifted? id = none := by
  simpa [Context.isLifted] using h

theorem isLifted_insideParams (types : List TermId) (c : TermId) :
    ∀ ctx : Context, (insideParams s ctx types).isLifted c = ctx.isLifted c := by
  induction types with
  | nil => exact fun _ => rfl
  | cons ty rest ih =>
      exact fun ctx => (ih (insideBinder s ctx ty)).trans (isLifted_insideBinder ctx ty c)

/-- The outline of a term with names for its shared subterms, once the names are replaced by
their values. -/
theorem outlineTerm_of_outlineLifted (htable : cfg.table.BindsNothing)
    (hlifted : ∀ c, ctx.isLifted c = false) {known : Ident → Bool} {r : Resolved}
    (hr : outlineLifted cfg s (cfg.outline s known) ctx root = some r) :
    outlineTerm (cfg.outline s known) ctx root =
      some (r.zeta (cfg.namedTerms s root).length) :=
  zeta_outlineShared htable root (ascending_sharedTermsBy root _)
    (fun t ht => ⟨(Config.of_mem_namedTerms ht).2,
      Context.lifted?_eq_none_of_isLifted (hlifted t)⟩) hr

/-- A term that is translated inside bindings of its shared subterms is translated without
them as well, if no two constants that are still to be dealt with share an identifier. -/
theorem exists_plain_of_lifted (htable : cfg.table.BindsNothing)
    (hsafe : Safe cfg s avoid (fun _ _ => True) top)
    (hsp : Spells avoid (root + 1) scope ctx names)
    (hlifted : ∀ c, ctx.isLifted c = false) (hroot : Usable s top (root + 1) ctx 0 root)
    {e e' : Emission} {t : Expr}
    (hrun : (translateLifted cfg s (cfg.translateNode s) scope root).run e = .ok (t, e'))
    (hunique : s.Unambiguous e.isHandled root) :
    ∃ plain e₂, (translateTerm (cfg.translateNode s) scope root).run e = .ok (plain, e₂) := by
  have hdeals : Deals cfg s e.isHandled root (root + 1) e :=
    ⟨fun _ h => h, fun _ h => Or.inl h⟩
  obtain ⟨-, r, hr, -⟩ := ensures_lifted (composes_deals (root + 1))
    (hsafe.of_reaches hroot.reaches)
    (fun c hc hreach => (rendersBelow_translateNode htable hunique c hreach).assume
      fun e he => he.mono (Nat.succ_le_of_lt hc)) hsp
    ⟨hroot.lt, .refl root, hroot.covered⟩ e t e' hdeals hrun
  have hsucceed : ∀ c < root + 1, s.Reaches top c → SucceedsAt cfg s
      (cfg.outline s e.isHandled) (Knows e.isHandled) (cfg.translateNode s) c :=
    fun c _ _ => succeedsAt_translateNode (unitsSafe_scoped htable) c
  exact succeeds_term hsafe hsucceed hsp hroot (outlineTerm_of_outlineLifted htable hlifted hr)
    e fun _ h => h

end Inner

/-- The parameters of a definition agree with its plain form.  Let a definition succeed whose
type and body start with the same number of binders, at least one, of the same types.  Then
its type, as a function type of its parameters, is whatever the type is translated to in a
unit of its own, up to the naming of unused binders.  Its body, as a function of its
parameters, is whatever the body is translated to without bindings, once the names of shared
subterms are replaced by their values.  From the same emission the type is translated, and
after it the body, if no two constants below the binders that are still to be dealt with
share an identifier. -/
theorem definition_parameters_agree (cfg : Config) (s : Store)
    (htable : cfg.table.BindsNothing) {name : String} {ty body : TermId}
    (hpos : (s.piChain ty).1 ≠ [])
    (htypes : (s.lamChain body).1.map (·.2) = (s.piChain ty).1.map (·.2))
    {e e' : Emission} {d : Decl} (hrun : cfg.define s name ty body e = (.ok d, e')) :
    ∃ params type bindings value,
      d = .definition (escape name) params (some type) (.mkLet bindings value) ∧
      bindings.length = (cfg.namedTerms s (s.lamChain body).2).length ∧
      (∀ e₀ roots, ty ∈ roots → ∀ e₁ plain e₂,
        (translateTerm (cfg.translateNode s) (Scope.ofUnit cfg e₀ s roots) ty).run e₁ =
          .ok (plain, e₂) →
        ((Expr.pi (params.map namedPi) type).resolve []).nameArrows =
          (plain.resolve []).nameArrows) ∧
      (∀ e₀ roots, body ∈ roots → ∀ e₁ plain e₂,
        (translateTerm (cfg.translateNode s) (Scope.ofUnit cfg e₀ s roots) body).run e₁ =
          .ok (plain, e₂) →
        insideLams (zeta bindings.length) params.length
          ((Expr.lam params (.mkLet bindings value)).resolve []) = plain.resolve []) ∧
      ∃ plain e₂,
        (translateTerm (cfg.translateNode s) (Scope.ofUnit cfg e s [ty, body]) ty).run e =
          .ok (plain, e₂) ∧
        (s.Unambiguous e₂.isHandled (s.lamChain body).2 → ∃ plain' e₃,
          (translateTerm (cfg.translateNode s) (Scope.ofUnit cfg e s [ty, body]) body).run e₂ =
            .ok (plain', e₃)) := by
  obtain ⟨_, _, hget, hrun⟩ := run_bind_eq_ok.mp (Emission.attempt_eq_ok.mp hrun)
  cases hget
  obtain ⟨d', e₃, hd, hrun⟩ := run_bind_eq_ok.mp hrun
  obtain ⟨_, _, hpush, hrun⟩ := run_bind_eq_ok.mp hrun
  cases hpush
  cases hrun
  obtain ⟨params, inside, e₁, type, e₂, value, hparams, htype, hvalue, rfl⟩ :=
    run_translateDefinition_params hpos htypes hd
  obtain ⟨names, rs, codomain, inner, hsp, husable, hrs, hcodomain, hinner, hpi, hlam, hlength⟩ :=
    outlines_of_definition htable (List.mem_cons_self ..) (by simp) htypes hparams htype hvalue
  obtain ⟨bindings, inside', rfl, hbindings⟩ := translateLifted_eq_mkLet hvalue
  have hlifted : ∀ c, (insideParams s [] ((s.lamChain body).1.map (·.2))).isLifted c = false :=
    fun c => isLifted_insideParams _ c []
  refine ⟨params, type, bindings, inside', rfl, hbindings, ?_, ?_, ?_⟩
  -- Both types are outlined from the same domains and the same codomain.
  · intro e₀ roots hty e₁ plain e₂ hplain
    have hr := resolve_plain htable hty hplain
    rw [htypes] at hrs hcodomain
    rw [hpi, nameArrows_outline_piChain htable ty (fun _ => rfl) hr hrs hcodomain]
  -- The bindings stand inside the parameters, where they are replaced by their values.
  · intro e₀ roots hbody e₁ plain e₂ hplain
    have hr := resolve_plain htable hbody hplain
    have hplaininner := outlineTerm_of_outlineLifted htable hlifted hinner
    rw [← outlineLams_lamChain (fun _ => rfl), outlineLams, hrs] at hr
    dsimp only [Option.bind_eq_bind, Option.bind_some] at hr
    rw [hplaininner] at hr
    rw [hlam, hlength, insideLams_lams, hbindings]
    exact Option.some.inj hr
  -- After the type, all that the parameters refer to has been dealt with.
  · obtain ⟨plain, hplain⟩ := exists_plain_type hpos htypes hparams htype
    refine ⟨plain, e₂, hplain, fun hunique => ?_⟩
    have hle : (s.lamChain body).2 ≤ body := (s.within_lamChain body).2.reaches.le
    have hlams : (s.lamChain body).1 ≠ [] := by
      intro hnil
      rw [hnil, List.map_nil, eq_comm, List.map_eq_nil_iff] at htypes
      exact hpos htypes
    obtain ⟨plain', e₄, hinner'⟩ := exists_plain_of_lifted htable
      (unitsSafe_scoped htable e [ty, body] body (by simp)) (hsp.mono (Nat.succ_le_succ hle))
      hlifted ⟨Nat.lt_succ_self _, husable.reaches, husable.covered⟩ hvalue hunique
    have hkept : Remembers e₁ e₂ := (repeats_term inside (s.piChain ty).2 _ _ _ htype).1
    obtain ⟨plain'', hbody⟩ := exists_plain_body hlams hparams hkept hinner'
    exact ⟨plain'', e₄, hbody⟩

/-! ## A definition of each kind

The type is a function type whose binder is unused.  Both bodies are functions that hold a
shared subterm.  In the second one a constant of general recursion comes before the constant
of the shared subterm, which has the same identifier. -/

/-- A function type, a function, and a function whose constants share an identifier. -/
def sharingFunctions : Store :=
  ofNodes [.unitType, .pi "x" 0 0, .unit, .constant ambiguousIdent 0 (some 2), .pair 3 3,
    .pair 4 4, .lam "y" 0 5, .bound 0, .fix "f" 0 7, .constant ambiguousIdent 0 (some 8),
    .pair 9 5, .lam "y" 0 10]

theorem sharingFunctions_node : sharingFunctions.node 0 = .unitType ∧
    sharingFunctions.node 1 = .pi "x" 0 0 ∧ sharingFunctions.node 2 = .unit ∧
    sharingFunctions.node 3 = .constant ambiguousIdent 0 (some 2) ∧
    sharingFunctions.node 4 = .pair 3 3 ∧ sharingFunctions.node 5 = .pair 4 4 ∧
    sharingFunctions.node 6 = .lam "y" 0 5 ∧ sharingFunctions.node 7 = .bound 0 ∧
    sharingFunctions.node 8 = .fix "f" 0 7 ∧
    sharingFunctions.node 9 = .constant ambiguousIdent 0 (some 8) ∧
    sharingFunctions.node 10 = .pair 9 5 ∧ sharingFunctions.node 11 = .lam "y" 0 10 :=
  ⟨rfl, rfl, rfl, rfl, rfl, rfl, rfl, rfl, rfl, rfl, rfl, rfl⟩

theorem sharingFunctions_chains : sharingFunctions.piChain 0 = ([], 0) ∧
    sharingFunctions.piChain 1 = ([("x", 0)], 0) ∧
    sharingFunctions.lamChain 6 = ([("y", 0)], 5) ∧
    sharingFunctions.lamChain 11 = ([("y", 0)], 10) ∧
    constraintClasses (sortFlags sharingFunctions 0) = [] := by
  obtain ⟨h0, h1, -, -, -, h5, h6, -, -, -, h10, h11⟩ := sharingFunctions_node
  have hunit : sharingFunctions.piChain 0 = ([], 0) := piChain_of_not (by simp [h0])
  refine ⟨hunit, ?_, ?_, ?_, ?_⟩
  · rw [piChain_of_node h1, hunit]
  · rw [lamChain_of_node h6, lamChain_of_not (by simp [h5])]
  · rw [lamChain_of_node h11, lamChain_of_not (by simp [h10])]
  · rw [sortFlags, hunit, h0]
    rfl

theorem sharingFunctions_namedTerms : untreated.namedTerms sharingFunctions 2 = [] ∧
    untreated.namedTerms sharingFunctions 5 = [4] ∧
    untreated.namedTerms sharingFunctions 8 = [] ∧
    untreated.namedTerms sharingFunctions 10 = [4] := by
  obtain ⟨h0, h1, h2, h3, h4, h5, h6, h7, h8, h9, h10, h11⟩ := sharingFunctions_node
  have hsize : sharingFunctions.size = 12 := rfl
  have hshould : untreated.shouldName sharingFunctions 4 = true ∧
      untreated.shouldName sharingFunctions 3 = false := by decide +kernel
  refine ⟨sharedTermsBy_eq (by simp) fun t => ?_, sharedTermsBy_eq (by simp) fun t => ?_,
    sharedTermsBy_eq (by simp) fun t => ?_, sharedTermsBy_eq (by simp) fun t => ?_⟩
  · simp [hsize, tally, h2, renderedChildren, Node.children, Node.childrenWithDepth,
      Std.HashMap.getElem?_insert]
  · simp [hsize, tally, tallyOne, h5, h4, h3, renderedChildren, Node.children,
      Node.childrenWithDepth, Std.HashMap.getElem?_insert]
    grind
  · simp [hsize, tally, tallyOne, h8, h7, h0, renderedChildren, Node.children,
      Node.childrenWithDepth, Std.HashMap.getElem?_insert]
    grind
  · simp [hsize, tally, tallyOne, h10, h9, h5, h4, h3, renderedChildren, Node.children,
      Node.childrenWithDepth, Std.HashMap.getElem?_insert]
    grind

/-- The shared subterm declares its constant. -/
theorem sharingFunctions_shared {scope : Scope} (hscope : scope.shared[3]? = none) :
    ∃ v e, (untreated.translateNode sharingFunctions scope 4).run .empty = .ok (v, e) ∧
      e.isHandled ambiguousIdent = true := by
  obtain ⟨h0, -, h2, h3, h4, -⟩ := sharingFunctions_node
  have hnamed := sharingFunctions_namedTerms.1
  simp [translateNode_eq, renderBelow_eq, translateStep, h0, h2, h3, h4, translateNamed,
    translateTerms, translateTerm, hscope, translateConstant, declareConstant,
    not_isHandled_empty, untreated_find?, declaration, translateDefinition, translateLifted,
    hnamed, sharingFunctions_chains.1, Scope.ofUnit, translateIdent, untreated_useSite,
    isHandled_push_handle]
  exact ⟨_, _, rfl, isHandled_push_handle _ _ _⟩

/-- Inside a binding of the shared subterm either body is translated. -/
theorem sharingFunctions_lifted {scope : Scope} (hscope : scope.shared = ∅) {root : TermId}
    (hroot : root = 5 ∨ root = 10) :
    ∃ t e', (translateLifted untreated sharingFunctions
      (untreated.translateNode sharingFunctions) scope root).run .empty = .ok (t, e') := by
  obtain ⟨-, hnamed5, -, hnamed10⟩ := sharingFunctions_namedTerms
  have hnamed : untreated.namedTerms sharingFunctions root = [4] := by
    rcases hroot with rfl | rfl
    · exact hnamed5
    · exact hnamed10
  obtain ⟨x, inside, hfresh, hinside⟩ : ∃ x inside,
      scope.freshMany untreated.options.sharedNameBase 1 = ([x], inside) ∧
        inside.shared = scope.shared := ⟨_, _, rfl, rfl⟩
  have hshared : ∀ c : TermId, (inside.share [(4, x)]).shared[c]? =
      if 4 = c then some x else none := by
    intro c
    simp [Scope.share, hinside, hscope, Std.HashMap.getElem?_insert]
  obtain ⟨v, e₁, hv, he₁⟩ := sharingFunctions_shared (hshared 3)
  obtain ⟨body, hbody⟩ : ∃ body, (translateTerm (untreated.translateNode sharingFunctions)
      (inside.share [(4, x)]) root).run e₁ = .ok (body, e₁) := by
    obtain ⟨-, -, -, -, -, h5, -, -, -, h9, h10, -⟩ := sharingFunctions_node
    rcases hroot with rfl | rfl <;>
      simp [translateTerm, hshared, translateNode_eq, renderBelow_eq, translateStep, h5, h9,
        h10, translateNamed, translateTerms, translateConstant, declareConstant, he₁,
        translateIdent, untreated_useSite]
    · exact ⟨_, rfl⟩
    · exact ⟨_, rfl⟩
  refine ⟨.mkLet [⟨x, none, v⟩] body, e₁, ?_⟩
  unfold translateLifted
  rw [hnamed]
  dsimp only [List.isEmpty_cons, List.length_singleton, Bool.false_eq_true, if_false]
  rw [hfresh]
  exact run_bind_eq_ok.mpr ⟨[⟨x, none, v⟩], e₁, run_bind_eq_ok.mpr ⟨v, e₁, hv, rfl⟩,
    run_bind_eq_ok.mpr ⟨body, e₁, hbody, rfl⟩⟩

/-- Either function is defined with a parameter. -/
theorem sharingFunctions_defined {body inner : TermId} (hinner : inner = 5 ∨ inner = 10)
    (hchain : sharingFunctions.lamChain body = ([("y", 0)], inner)) :
    ∃ d e', untreated.define sharingFunctions "d" 1 body .empty = (.ok d, e') := by
  obtain ⟨h0, -⟩ := sharingFunctions_node
  obtain ⟨-, htype, -, -, hclasses⟩ := sharingFunctions_chains
  obtain ⟨y, inside, hfresh, hinside⟩ : ∃ y inside,
      (Scope.ofUnit untreated .empty sharingFunctions [1, body]).fresh "y" = (y, inside) ∧
        (inside.bind y).shared = ∅ := ⟨_, _, rfl, rfl⟩
  have hstart : (Scope.ofUnit untreated .empty sharingFunctions [1, body]).shared = ∅ := rfl
  obtain ⟨t, e', hvalue⟩ := sharingFunctions_lifted hinside hinner
  simp only [Config.define, Emission.attempt_eq_ok, Config.emitDefinition,
    translateDefinition, htype, hchain]
  simp [bindParams, bindNamed, hclasses, hypotheses, translateTerm, translateNode_eq,
    translateStep, h0, hstart, hfresh, hinside, hvalue]

/-- Inside bindings of shared subterms the constant that can be declared comes first, and
without them the other one does.  So a definition may succeed whose body, as a function,
cannot be translated. -/
theorem parameters_change_first_reference :
    untreated.table.BindsNothing ∧ (sharingFunctions.piChain 1).1 ≠ [] ∧
    (sharingFunctions.lamChain 11).1.map (·.2) = (sharingFunctions.piChain 1).1.map (·.2) ∧
    (∃ d e', untreated.define sharingFunctions "d" 1 11 .empty = (.ok d, e')) ∧
    (translateTerm (untreated.translateNode sharingFunctions)
      (Scope.ofUnit untreated .empty sharingFunctions [1, 11]) 11).run .empty =
      .error (.generalRecursion "f") := by
  obtain ⟨h0, h1, h2, h3, h4, h5, h6, h7, h8, h9, h10, h11⟩ := sharingFunctions_node
  obtain ⟨hunit, htype, -, hsecond, hclasses⟩ := sharingFunctions_chains
  obtain ⟨-, -, hnamed8, -⟩ := sharingFunctions_namedTerms
  have hlayers : ∀ stop, sharingFunctions.lamLayers stop 11 = ([⟨"y", 0, 10⟩], 10) := by
    intro stop
    rw [lamLayers_of_node h11, lamTail, lamLayers_of_not (by simp [h10]), ite_self]
  refine ⟨untreated_bindsNothing, by simp [htype], by simp [htype, hsecond],
    sharingFunctions_defined (.inr rfl) hsecond, ?_⟩
  simp [translateLifted, hnamed8, translateNode_eq, renderBelow_eq, translateStep, h0, h8, h9,
    h10, h11, translateLam, hlayers, bindParams, bindNamed, hclasses, hypotheses, Scope.fresh,
    Scope.bind, translateNamed, translateConstant, declareConstant, not_isHandled_empty,
    untreated_find?, declaration, translateDefinition, hunit, translateTerm, Scope.ofUnit,
    translateTerms]
  rfl

/-- The body of the first function reaches one of the constants only. -/
theorem sharingFunctions_unambiguous (known : Ident → Bool) :
    sharingFunctions.Unambiguous known 5 := by
  obtain ⟨h0, -, h2, h3, h4, h5, -⟩ := sharingFunctions_node
  have hparts : ∀ b ∈ [5, 4, 3, 2, 0], ∀ c ∈ (sharingFunctions.node b).children,
      c ∈ [5, 4, 3, 2, 0] := by decide
  exact unambiguous_of_parts 3 (by decide) hparts (by simp [h0, h2, h3, h4, h5])

/-- The first function agrees with its definition, which has one parameter and one binding. -/
theorem sharingFunctions_parameters_agree :
    ∃ params type bindings value e' plain e₂ plain' e₃,
      untreated.define sharingFunctions "d" 1 6 .empty =
        (.ok (.definition (escape "d") params (some type) (.mkLet bindings value)), e') ∧
      bindings.length = 1 ∧
      (translateTerm (untreated.translateNode sharingFunctions)
        (Scope.ofUnit untreated .empty sharingFunctions [1, 6]) 1).run .empty =
        .ok (plain, e₂) ∧
      (translateTerm (untreated.translateNode sharingFunctions)
        (Scope.ofUnit untreated .empty sharingFunctions [1, 6]) 6).run e₂ = .ok (plain', e₃) ∧
      ((Expr.pi (params.map namedPi) type).resolve []).nameArrows =
        (plain.resolve []).nameArrows ∧
      insideLams (zeta 1) params.length
        ((Expr.lam params (.mkLet bindings value)).resolve []) = plain'.resolve [] := by
  obtain ⟨-, htype, hfirst, -, -⟩ := sharingFunctions_chains
  obtain ⟨-, hnamed5, -, -⟩ := sharingFunctions_namedTerms
  obtain ⟨d, e', hrun⟩ := sharingFunctions_defined (.inl rfl) hfirst
  obtain ⟨params, type, bindings, value, rfl, hbindings, htypes, hbodies, plain, e₂, hplain,
    hbody⟩ := definition_parameters_agree untreated sharingFunctions untreated_bindsNothing
      (by simp [htype]) (by simp [htype, hfirst]) hrun
  rw [hfirst, hnamed5] at hbindings
  rw [hfirst] at hbody
  obtain ⟨plain', e₃, hplain'⟩ := hbody (sharingFunctions_unambiguous _)
  have hagree := hbodies .empty [1, 6] (by simp) e₂ plain' e₃ hplain'
  rw [hbindings] at hagree
  exact ⟨params, type, bindings, value, e', plain, e₂, plain', e₃, hrun, hbindings, hplain,
    hplain', htypes .empty [1, 6] (by simp) .empty plain e₂ hplain, hagree⟩

end TermGraph
