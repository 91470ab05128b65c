import Mathlib
import TermGraph.Proofs.Name.Fresh
import TermGraph.Proofs.Translate.Places

/-!
# Two translations side by side

Two runs of the translator that take the same steps may differ in the names that their
scopes hold, in the structural form that they give to parts, or in what has been emitted
before.  A `Pairing` is a relation of computations that is kept when computations are put
together in the same way.  If it relates the structural forms of the parts of a node, it
relates the translations of the node.

Two properties are carried along where they are asked for.  With `same`, the two scopes
hold the same names, and the two values are equal.  With `closed`, the variables of every
term that is rendered are bound around it, and then no run finds a variable without a binder.
-/

namespace TermGraph

open Target Store

/-! ## Relations of computations -/

/-- An error that may come up: where variables are bound, not one about a variable. -/
def TranslateError.Possible (closed : Prop) (err : TranslateError) : Prop :=
  closed → ∀ i d, err ≠ .unboundVariable i d

/-- A relation of two computations, with one of their values, that is kept when computations
are put together in the same way. -/
structure Pairing (closed : Prop) where
  Rel : ∀ {α β : Type}, Emit α → Emit β → (α → β → Prop) → Prop
  rel_pure : ∀ {α β : Type} {Q : α → β → Prop} {a : α} {b : β}, Q a b →
    Rel (pure a) (pure b) Q
  rel_throw : ∀ {α β : Type} {Q : α → β → Prop} {err : TranslateError},
    err.Possible closed → Rel (throw err : Emit α) (throw err : Emit β) Q
  rel_bind : ∀ {α β γ δ : Type} {m : Emit α} {m' : Emit β} {f : α → Emit γ} {f' : β → Emit δ}
    {Q : α → β → Prop} {P : γ → δ → Prop}, Rel m m' Q →
    (∀ a b, Q a b → Rel (f a) (f' b) P) → Rel (m >>= f) (m' >>= f') P

/-- Two values that are equal where this is asked for. -/
def EqualIf {α : Type} (same : Prop) (a b : α) : Prop :=
  same → a = b

section EqualIf

variable {same : Prop} {α β γ : Type} {a a' : α} {b b' : β}

theorem equalIf_refl (a : α) : EqualIf same a a :=
  fun _ => rfl

theorem EqualIf.map (h : EqualIf same a a') (f : α → β) : EqualIf same (f a) (f a') :=
  fun hs => congrArg f (h hs)

theorem EqualIf.map₂ (h : EqualIf same a a') (h' : EqualIf same b b') (f : α → β → γ) :
    EqualIf same (f a b) (f a' b') :=
  fun hs => congrArg₂ f (h hs) (h' hs)

end EqualIf

namespace Pairing

variable {closed : Prop} {J : Pairing closed} {α β γ δ : Type} {m : Emit α} {m' : Emit β}
  {Q : α → β → Prop}

theorem rel_map {f : α → γ} {f' : β → δ} {P : γ → δ → Prop} (hm : J.Rel m m' Q)
    (hf : ∀ a b, Q a b → P (f a) (f' b)) :
    J.Rel (do return f (← m)) (do return f' (← m')) P :=
  J.rel_bind hm fun a b h => J.rel_pure (hf a b h)

theorem Rel.imp {Q' : α → β → Prop} (hm : J.Rel m m' Q) (hQ : ∀ a b, Q a b → Q' a b) :
    J.Rel m m' Q' := by
  have h := J.rel_bind hm fun a b hab => J.rel_pure (hQ a b hab)
  rwa [bind_pure, bind_pure] at h

theorem rel_mapM {same : Prop} {f f' : α → Emit β} {as : List α}
    (h : ∀ a ∈ as, J.Rel (f a) (f' a) (EqualIf same)) :
    J.Rel (as.mapM f) (as.mapM f') (EqualIf same) := by
  induction as with
  | nil => exact J.rel_pure (equalIf_refl [])
  | cons a as ih =>
      obtain ⟨ha, has⟩ := List.forall_mem_cons.mp h
      rw [List.mapM_cons, List.mapM_cons]
      refine J.rel_bind ha fun _ _ hfirst => ?_
      exact rel_map (ih has) fun _ _ hrest => hfirst.map₂ hrest (· :: ·)

end Pairing

/-! ## Places of two scopes -/

/-- Two scopes with the same names.  The sets of unavailable names have the same members, but
they may have been built in different ways. -/
structure Scope.Agrees (scope scope' : Scope) : Prop where
  env : scope'.env = scope.env
  unavailable : ∀ x, x ∈ scope'.unavailable ↔ x ∈ scope.unavailable

/-- Two scopes at the same place, of which the second one may hold other names. -/
structure Scope.Level (same : Prop) (scope scope' : Scope) : Prop where
  shared : scope'.shared = scope.shared
  depth : scope'.depth = scope.depth
  agrees : same → scope.Agrees scope'

/-- What two runs give when they enter binders: values and the scopes inside, so many binders
deep. -/
structure Opens {α : Type} (same : Prop) (depth : Nat) (r r' : α × Scope) : Prop where
  value : EqualIf same r.1 r'.1
  level : Scope.Level same r.2 r'.2
  depth : r.2.depth = depth

/-- A term that may be rendered under so many binders: it is older than a node, and the
binders bind its variables where this is asked for. -/
structure Store.Enclosed (s : Store) (closed : Prop) (limit : TermId) (depth : Nat)
    (c : TermId) : Prop where
  lt : c < limit
  bound : closed → ∀ i ∈ s.looseVars c, i < depth

section Scopes

variable {same closed : Prop} {scope scope' : Scope} {α : Type} {s : Store}
  {limit id c : TermId} {d k : Nat}

/-- Scopes with the same names give the same fresh name. -/
theorem Scope.Agrees.fresh (h : scope.Agrees scope') (x : String) :
    (scope'.fresh x).1 = (scope.fresh x).1 ∧ (scope.fresh x).2.Agrees (scope'.fresh x).2 := by
  have hname : (scope'.fresh x).1 = (scope.fresh x).1 := freshVariant_congr h.unavailable _
  refine ⟨hname, h.env, fun y => ?_⟩
  change y ∈ scope'.unavailable.insert (scope'.fresh x).1 ↔
    y ∈ scope.unavailable.insert (scope.fresh x).1
  rw [hname, Std.HashSet.mem_insert, Std.HashSet.mem_insert, h.unavailable y]

theorem Scope.level_refl (scope : Scope) : Scope.Level same scope scope :=
  ⟨rfl, rfl, fun _ => ⟨rfl, fun _ => Iff.rfl⟩⟩

theorem Scope.Level.isShared (h : Scope.Level same scope scope') :
    scope'.isShared = scope.isShared := by
  unfold Scope.isShared
  rw [h.shared]

theorem Scope.Level.fresh (h : Scope.Level same scope scope') {x x' : String}
    (hx : EqualIf same x x') : Opens same scope.depth (scope.fresh x) (scope'.fresh x') where
  value := fun hs => by rw [← hx hs, ((h.agrees hs).fresh x).1]
  level := ⟨h.shared, h.depth, fun hs => hx hs ▸ ((h.agrees hs).fresh x).2⟩
  depth := rfl

theorem Scope.Level.bind (h : Scope.Level same scope scope') {x x' : String}
    (hx : EqualIf same x x') : Scope.Level same (scope.bind x) (scope'.bind x') where
  shared := h.shared
  depth := congrArg (· + 1) h.depth
  agrees := fun hs => {
    env := congrArg₂ List.cons (hx hs).symm (h.agrees hs).env
    unavailable := (h.agrees hs).unavailable }

/-- The scope inside a binder of a fresh name. -/
theorem Scope.Level.enter (h : Scope.Level same scope scope') {x x' : String}
    (hx : EqualIf same x x') :
    Scope.Level same ((scope.fresh x).2.bind (scope.fresh x).1)
      ((scope'.fresh x').2.bind (scope'.fresh x').1) :=
  (h.fresh hx).level.bind (h.fresh hx).value

theorem Scope.Level.freshMany (h : Scope.Level same scope scope') (base : String) (n : Nat) :
    Opens same scope.depth (scope.freshMany base n) (scope'.freshMany base n) := by
  induction n generalizing scope scope' with
  | zero => exact ⟨equalIf_refl _, h, rfl⟩
  | succ n ih =>
      have hfirst := h.fresh (equalIf_refl base)
      have hrest := ih hfirst.level
      exact ⟨hfirst.value.map₂ hrest.value (· :: ·), hrest.level, hrest.depth⟩

theorem Scope.Level.share (h : Scope.Level same scope scope') (named : List (TermId × String)) :
    Scope.Level same (scope.share named) (scope'.share named) where
  shared := congrArg (fun shared => shared.insertMany named) h.shared
  depth := h.depth
  agrees := fun hs => ⟨(h.agrees hs).env, (h.agrees hs).unavailable⟩

theorem Scope.exists_local? {i : Nat} (hi : i < scope.depth) : ∃ x, scope.local? i = some x :=
  ⟨_, List.getElem?_eq_getElem hi⟩

theorem Opens.mono {depth' : Nat} {r r' : α × Scope} (h : Opens same d r r')
    (hd : d = depth') : Opens same depth' r r' :=
  hd ▸ h

namespace Store

/-- A term inside another one whose variables are bound by so many binders. -/
theorem enclosed_of_within (hlt : c < limit) (hbound : closed → ∀ i ∈ s.looseVars id, i < d)
    (h : s.Within id k c) : s.Enclosed closed limit (d + k) c where
  lt := hlt
  bound := by
    intro hclosed i hi
    by_contra hge
    obtain ⟨j, rfl⟩ : ∃ j, i = j + k := ⟨i - k, by omega⟩
    have := hbound hclosed j (h.mem_looseVars hi)
    omega

theorem Enclosed.within (hid : s.Enclosed closed limit d id) (h : s.Within id k c) :
    s.Enclosed closed limit (d + k) c :=
  enclosed_of_within (h.reaches.le.trans_lt hid.lt) hid.bound h

/-- A closed term may be rendered anywhere. -/
theorem enclosed_of_closed (hlt : c < limit) (hc : closed → s.looseVars c = []) :
    s.Enclosed closed limit d c :=
  ⟨hlt, fun hclosed i hi => by simp [hc hclosed] at hi⟩

end Store

end Scopes

/-! ## The steps of a translation -/

section Steps

variable {cfg : Config} {s : Store} {render render' : Render} {same closed : Prop}
  {J : Pairing closed} {limit : TermId}
  (hrender : ∀ {scope scope'}, Scope.Level same scope scope' →
    ∀ {c}, s.Enclosed closed limit scope.depth c →
      J.Rel (render scope c) (render' scope' c) (EqualIf same))
  {scope scope' : Scope} (h : Scope.Level same scope scope')

include hrender h

theorem rel_term {id : TermId} (hid : s.Enclosed closed limit scope.depth id) :
    J.Rel (translateTerm render scope id) (translateTerm render' scope' id) (EqualIf same) := by
  unfold translateTerm
  rw [h.shared]
  split
  · exact J.rel_pure (equalIf_refl _)
  · exact hrender h hid

theorem rel_terms {ids : List TermId}
    (hids : ∀ id ∈ ids, s.Enclosed closed limit scope.depth id) :
    J.Rel (translateTerms render scope ids) (translateTerms render' scope' ids) (EqualIf same) :=
  Pairing.rel_mapM fun id hid => rel_term hrender h (hids id hid)

/-! ### Binders -/

theorem rel_bindDomains {domains : List (String × TermId)}
    (hdomains : ∀ j p, domains[j]? = some p → s.Enclosed closed limit (scope.depth + j) p.2) :
    J.Rel (bindDomains render scope domains) (bindDomains render' scope' domains)
      fun r r' => EqualIf same r.1 r'.1 := by
  induction domains generalizing scope scope' with
  | nil => exact J.rel_pure (equalIf_refl _)
  | cons p rest ih =>
      refine J.rel_bind (rel_term hrender h (hdomains 0 p rfl)) fun type type' htype => ?_
      have hx := (h.fresh (equalIf_refl p.1)).value
      refine Pairing.rel_map (ih (h.enter (equalIf_refl p.1)) fun j q hq => ?_) fun r r' hr => ?_
      · have := hdomains (j + 1) q hq
        rwa [Nat.add_comm j, ← Nat.add_assoc] at this
      · exact (hx.map₂ htype Prod.mk).map₂ hr (· :: ·)

theorem rel_hypothesisType {param param' : String} (hparam : EqualIf same param param')
    {ty : TermId} (hty : s.Enclosed closed limit scope.depth ty) (cls : String) :
    J.Rel (hypothesisType s render scope param ty cls)
      (hypothesisType s render' scope' param' ty cls) (EqualIf same) := by
  refine J.rel_bind (rel_bindDomains hrender h fun j p hp =>
    hty.within ((s.within_piChain ty).1 j p hp).1) fun r r' hr => ?_
  -- Which of the two types is taken may differ, but neither choice can fail.
  have hite : ∀ {c c' : Prop} [Decidable c] [Decidable c'] (a b a' b' : Expr),
      EqualIf same (if c then a else b) (if c' then a' else b') →
      J.Rel (if c then pure a else pure b) (if c' then pure a' else pure b') (EqualIf same) := by
    intro c c' _ _ a b a' b' hequal
    rw [← apply_ite pure, ← apply_ite pure]
    exact J.rel_pure hequal
  exact hite _ _ _ _ fun hs => by rw [hr hs, hparam hs]

theorem rel_hypotheses {param param' : String} (hparam : EqualIf same param param')
    {ty : TermId} (hty : s.Enclosed closed limit scope.depth ty)
    (classes : List (String × String)) :
    J.Rel (hypotheses s render scope param ty classes)
      (hypotheses s render' scope' param' ty classes) (Opens same scope.depth) := by
  induction classes generalizing scope scope' with
  | nil => exact J.rel_pure ⟨equalIf_refl _, h, rfl⟩
  | cons cls rest ih =>
      refine J.rel_bind (rel_hypothesisType hrender h hparam hty cls.2) fun type type' htype => ?_
      have hx := h.fresh (hparam.map fun param => cls.1 ++ "_" ++ param)
      refine Pairing.rel_map (ih hx.level hty) fun r r' hr => ⟨?_, hr.level, hr.depth⟩
      exact (hx.value.map₂ htype fun x type => (⟨x, type, true⟩ : Binder Expr)).map₂ hr.value
        (· :: ·)

theorem rel_bindNamed {x x' : String} (hx : EqualIf same x x') {ty : TermId}
    (hty : s.Enclosed closed limit scope.depth ty) :
    J.Rel (bindNamed s render scope x ty) (bindNamed s render' scope' x' ty) fun r r' =>
      EqualIf same r.1 r'.1 ∧ Opens same (scope.depth + 1) r.2 r'.2 := by
  have hfresh := h.fresh hx
  refine Pairing.rel_map (rel_hypotheses hrender hfresh.level hfresh.value hty _)
    fun r r' hr => ⟨hfresh.value, hr.value, hr.level.bind hfresh.value, ?_⟩
  exact congrArg (· + 1) hr.depth

theorem rel_bindParams {params : List (String × TermId)}
    (hparams : ∀ j p, params[j]? = some p → s.Enclosed closed limit (scope.depth + j) p.2) :
    J.Rel (bindParams s render scope params) (bindParams s render' scope' params)
      (Opens same (scope.depth + params.length)) := by
  induction params generalizing scope scope' with
  | nil => exact J.rel_pure ⟨equalIf_refl _, h, rfl⟩
  | cons p rest ih =>
      have hp := hparams 0 p rfl
      refine J.rel_bind (rel_term hrender h hp) fun type type' htype => ?_
      refine J.rel_bind (rel_bindNamed hrender h (equalIf_refl p.1) hp) fun r r' hr => ?_
      obtain ⟨hx, hhyps, hinner, hdepth⟩ := hr
      refine Pairing.rel_map (ih hinner fun j q hq => ?_) fun t t' ht => ⟨?_, ht.level, ?_⟩
      · rw [hdepth, Nat.add_assoc, Nat.add_comm 1]
        exact hparams (j + 1) q hq
      · exact ((hx.map₂ htype fun x type => (⟨x, type, false⟩ : Binder Expr)).map₂ hhyps
          (· :: ·)).map₂ ht.value (· ++ ·)
      · rw [ht.depth, hdepth, List.length_cons, Nat.add_assoc, Nat.add_comm 1]

theorem rel_bindPis {layers : List Layer}
    (hlayers : ∀ j (l : Layer), layers[j]? = some l →
      s.Enclosed closed limit (scope.depth + j) l.type) :
    J.Rel (bindPis s render scope layers) (bindPis s render' scope' layers)
      (Opens same (scope.depth + layers.length)) := by
  induction layers generalizing scope scope' with
  | nil => exact J.rel_pure ⟨equalIf_refl _, h, rfl⟩
  | cons l rest ih =>
      have hl := hlayers 0 l rfl
      have hrest : ∀ {inner inner' : Scope}, Scope.Level same inner inner' →
          inner.depth = scope.depth + 1 →
          J.Rel (bindPis s render inner rest) (bindPis s render' inner' rest)
            (Opens same (scope.depth + (l :: rest).length)) := by
        intro inner inner' hinner hdepth
        refine (ih hinner fun j q hq => ?_).imp fun t t' ht => ht.mono ?_
        · rw [hdepth, Nat.add_assoc, Nat.add_comm 1]
          exact hlayers (j + 1) q hq
        · rw [hdepth, List.length_cons, Nat.add_assoc, Nat.add_comm 1]
      refine J.rel_bind (rel_term hrender h hl) fun type type' htype => ?_
      split
      · refine J.rel_bind (rel_bindNamed hrender h (equalIf_refl l.name) hl) fun r r' hr => ?_
        obtain ⟨hx, hhyps, hinner, hdepth⟩ := hr
        refine Pairing.rel_map (hrest hinner hdepth) fun t t' ht => ⟨?_, ht.level, ht.depth⟩
        exact ((hx.map₂ htype fun x type => (⟨some x, type, false⟩ : PiBinder Expr)).map₂
          (hhyps.map (List.map namedPi)) (· :: ·)).map₂ ht.value (· ++ ·)
      · refine Pairing.rel_map (hrest (h.bind (equalIf_refl "_")) rfl) fun t t' ht =>
          ⟨?_, ht.level, ht.depth⟩
        exact (htype.map fun type => (⟨none, type, false⟩ : PiBinder Expr)).map₂ ht.value
          (· :: ·)

theorem rel_lam {x : String} {ty b : TermId} {id : TermId} (hnode : s.node id = .lam x ty b)
    (hle : id ≤ limit) (hbound : closed → ∀ i ∈ s.looseVars id, i < scope.depth) :
    J.Rel (translateLam s render scope id) (translateLam s render' scope' id)
      (EqualIf same) := by
  obtain ⟨htypes, hlast⟩ := strictlyWithin_lamLayers hnode scope.isShared
  unfold translateLam
  rw [h.isShared]
  generalize s.lamLayers scope.isShared id = chain at htypes hlast ⊢
  obtain ⟨layers, body⟩ := chain
  have hparams : ∀ j p, (layers.map fun l => (l.name, l.type))[j]? = some p →
      s.Enclosed closed limit (scope.depth + j) p.2 := by
    intro j p hp
    rw [List.getElem?_map, Option.map_eq_some_iff] at hp
    obtain ⟨l, hl, rfl⟩ := hp
    exact enclosed_of_within ((htypes j l hl).2.trans_le hle) hbound (htypes j l hl).1
  refine J.rel_bind (rel_bindParams hrender h hparams) fun r r' hr => ?_
  refine Pairing.rel_map (rel_term hrender hr.level ?_) fun _ _ hbody =>
    hr.value.map₂ hbody Expr.lam
  rw [hr.depth, List.length_map]
  exact enclosed_of_within (hlast.2.trans_le hle) hbound hlast.1

theorem rel_pi {x : String} {ty b : TermId} {id : TermId} (hnode : s.node id = .pi x ty b)
    (hle : id ≤ limit) (hbound : closed → ∀ i ∈ s.looseVars id, i < scope.depth) :
    J.Rel (translatePi s render scope id) (translatePi s render' scope' id) (EqualIf same) := by
  obtain ⟨htypes, hlast⟩ := strictlyWithin_piLayers hnode scope.isShared
  unfold translatePi
  rw [h.isShared]
  generalize s.piLayers scope.isShared id = chain at htypes hlast ⊢
  obtain ⟨layers, body⟩ := chain
  refine J.rel_bind (rel_bindPis hrender h fun j l hl => enclosed_of_within
    ((htypes j l hl).2.trans_le hle) hbound (htypes j l hl).1)
    fun r r' hr => ?_
  refine Pairing.rel_map (rel_term hrender hr.level ?_) fun _ _ hbody => hr.value.map₂ hbody Expr.pi
  rw [hr.depth]
  exact enclosed_of_within (hlast.2.trans_le hle) hbound hlast.1

theorem rel_let (x : String) {ty value b : TermId}
    (hty : s.Enclosed closed limit scope.depth ty)
    (hvalue : s.Enclosed closed limit scope.depth value)
    (hb : s.Enclosed closed limit (scope.depth + 1) b) :
    J.Rel (translateLet render scope x ty value b) (translateLet render' scope' x ty value b)
      (EqualIf same) := by
  refine J.rel_bind (rel_term hrender h hty) fun t t' ht => ?_
  refine J.rel_bind (rel_term hrender h hvalue) fun v v' hv => ?_
  refine J.rel_bind (rel_term hrender (h.enter (equalIf_refl x)) hb) fun e e' he => ?_
  -- What a binding is merged with depends on the body, so values that need not be equal may
  -- be merged in one run only.
  by_cases hs : same
  · obtain rfl := ht hs
    obtain rfl := hv hs
    obtain rfl := he hs
    rw [freshVariant_congr (h.agrees hs).unavailable]
    split <;> exact J.rel_pure (equalIf_refl _)
  · split <;> split <;> exact J.rel_pure fun hsame => absurd hsame hs

/-! ### Names and applications -/

theorem rel_ident (ident : Ident) {args : List TermId}
    (hargs : ∀ a ∈ args, s.Enclosed closed limit scope.depth a) :
    J.Rel (translateIdent cfg render scope ident args)
      (translateIdent cfg render' scope' ident args) (EqualIf same) := by
  have hall := rel_terms hrender h hargs
  unfold translateIdent
  cases cfg.table.useSite ident with
  | preserve => exact Pairing.rel_map hall fun _ _ hes => hes.map _
  | rename module name explicit => exact Pairing.rel_map hall fun _ _ hes => hes.map _
  | expand arity template =>
      dsimp only
      split
      -- Both runs miss the same number of arguments.
      · exact J.rel_bind (J.rel_throw (Q := fun _ _ => False) fun _ => by simp)
          fun _ _ hfalse => hfalse.elim
      · refine J.rel_bind (rel_terms hrender h fun a ha => hargs a (List.mem_of_mem_take ha))
          fun _ _ hfront => ?_
        exact Pairing.rel_map (rel_terms hrender h fun a ha =>
          hargs a (List.mem_of_mem_drop ha)) fun _ _ hrest =>
            (hfront.map template.instantiate).map₂ hrest Expr.mkApp

theorem rel_constant {ident : Ident} {ty : TermId} {body : Option TermId}
    (hdeclare : J.Rel (declareConstant cfg s render ident ty body)
      (declareConstant cfg s render' ident ty body) (EqualIf same)) {args : List TermId}
    (hargs : ∀ a ∈ args, s.Enclosed closed limit scope.depth a) :
    J.Rel (translateConstant cfg s render scope ident ty body args)
      (translateConstant cfg s render' scope' ident ty body args) (EqualIf same) :=
  J.rel_bind hdeclare fun _ _ _ => rel_ident hrender h ident hargs

theorem rel_named (head : String) {args : List TermId}
    (hargs : ∀ a ∈ args, s.Enclosed closed limit scope.depth a) :
    J.Rel (translateNamed render scope head args) (translateNamed render' scope' head args)
      (EqualIf same) :=
  Pairing.rel_map (rel_terms hrender h hargs) fun _ _ hes => hes.map _

theorem rel_conditional {c t e : TermId} {rest : List TermId}
    (hargs : ∀ a ∈ c :: t :: e :: rest, s.Enclosed closed limit scope.depth a) :
    J.Rel (translateConditional render scope c t e rest)
      (translateConditional render' scope' c t e rest) (EqualIf same) := by
  simp only [List.forall_mem_cons] at hargs
  obtain ⟨hc, ht, he, hrest⟩ := hargs
  refine J.rel_bind (rel_term hrender h hc) fun _ _ hc => ?_
  refine J.rel_bind (rel_term hrender h ht) fun _ _ ht => ?_
  refine J.rel_bind (rel_term hrender h he) fun _ _ he => ?_
  exact Pairing.rel_map (rel_terms hrender h hrest) fun _ _ hes =>
    ((hc.map₂ ht Expr.ite).map₂ he id).map₂ hes Expr.mkApp

theorem rel_app {f a : TermId} {id : TermId} (hnode : s.node id = .app f a) (hle : id ≤ limit)
    (hbound : closed → ∀ i ∈ s.looseVars id, i < scope.depth)
    (hdeclare : ∀ c ident ty body, s.node c = .constant ident ty body → c ≤ limit →
      J.Rel (declareConstant cfg s render ident ty body)
        (declareConstant cfg s render' ident ty body) (EqualIf same)) :
    J.Rel (translateApp cfg s render scope id) (translateApp cfg s render' scope' id)
      (EqualIf same) := by
  obtain ⟨hhead, hargs⟩ := strictlyWithin_spineUntil hnode scope.isShared
  unfold translateApp
  rw [h.isShared]
  generalize s.spineUntil scope.isShared id = cut at hhead hargs ⊢
  obtain ⟨head, args⟩ := cut
  dsimp only at hhead hargs ⊢
  have hargs' : ∀ b ∈ args, s.Enclosed closed limit scope.depth b := fun b hb =>
    enclosed_of_within ((hargs b hb).2.trans_le hle) hbound (hargs b hb).1
  cases hkind : s.node head with
  | global ident =>
      dsimp only
      split
      · split
        · rename_i ty c t e rest
          exact rel_conditional hrender h fun b hb => hargs' b (List.mem_cons_of_mem ty hb)
        · exact rel_ident hrender h ident hargs'
      · exact rel_ident hrender h ident hargs'
  | constant ident ty body =>
      exact rel_constant hrender h
        (hdeclare head ident ty body hkind (hhead.2.le.trans hle)) hargs'
  | _ =>
      refine J.rel_bind (rel_term hrender h
        (enclosed_of_within (hhead.2.trans_le hle) hbound hhead.1)) fun _ _ hfn => ?_
      exact Pairing.rel_map (rel_terms hrender h hargs') fun _ _ hes =>
        hfn.map₂ hes Expr.mkApp

/-! ### Data -/

theorem rel_fields (cons nil : String) {fields : List (String × TermId)}
    (hfields : ∀ p ∈ fields, s.Enclosed closed limit scope.depth p.2) :
    J.Rel (translateFields render scope cons nil fields)
      (translateFields render' scope' cons nil fields) (EqualIf same) := by
  induction fields with
  | nil => exact J.rel_pure (equalIf_refl _)
  | cons p rest ih =>
      rw [List.forall_mem_cons] at hfields
      refine J.rel_bind (rel_term hrender h hfields.1) fun _ _ hvalue => ?_
      exact Pairing.rel_map (ih hfields.2) fun _ _ htail =>
        hvalue.map₂ htail fun value tail => Expr.mkApp (.var cons) [.string p.1, value, tail]

theorem rel_array (elemType : TermId) {elems : List TermId}
    (helems : ∀ a ∈ elems, s.Enclosed closed limit scope.depth a) :
    J.Rel (translateArray cfg s render scope elemType elems)
      (translateArray cfg s render' scope' elemType elems) (EqualIf same) := by
  unfold translateArray
  split
  · exact J.rel_pure (equalIf_refl _)
  · exact Pairing.rel_map (rel_terms hrender h helems) fun _ _ hes =>
      hes.map fun es => Expr.mkApp (.var cfg.options.vectorCtor) [.list es]

theorem rel_case {cases : List (Ident × TermId)}
    (hcases : ∀ p ∈ cases, s.Enclosed closed limit scope.depth p.2) (ctor : Ident) :
    J.Rel (translateCase cfg render scope cases ctor)
      (translateCase cfg render' scope' cases ctor) (EqualIf same) := by
  unfold translateCase
  cases hfind : cases.find? fun p => p.1 = ctor with
  | some p => exact rel_term hrender h (hcases p (List.mem_of_find?_eq_some hfind))
  | none =>
      dsimp only
      split
      · exact J.rel_throw fun _ => by simp
      · exact J.rel_pure (equalIf_refl _)

theorem rel_recursor (datatype : Ident) {params : List TermId} {motive : TermId}
    {cases : List (Ident × TermId)}
    (hparams : ∀ a ∈ params, s.Enclosed closed limit scope.depth a)
    (hmotive : s.Enclosed closed limit scope.depth motive)
    (hcases : ∀ p ∈ cases, s.Enclosed closed limit scope.depth p.2) (order : List Ident) :
    J.Rel (translateRecursor cfg render scope datatype params motive order cases)
      (translateRecursor cfg render' scope' datatype params motive order cases)
      (EqualIf same) := by
  unfold translateRecursor
  cases counterpart? cfg datatype with
  | none => exact J.rel_throw fun _ => by simp
  | some target =>
      refine J.rel_bind (rel_terms hrender h hparams) fun _ _ hps => ?_
      refine J.rel_bind (rel_term hrender h hmotive) fun _ _ hmo => ?_
      refine Pairing.rel_map
        (Pairing.rel_mapM fun ctor _ => rel_case hrender h hcases ctor) fun _ _ hcs => ?_
      exact (hps.map₂ (hmo.map₂ hcs (· :: ·)) (· ++ ·)).map _

/-! ### Nodes -/

omit hrender in
/-- A variable has a name in both scopes or in neither. -/
theorem rel_bound {id : TermId} {i : Nat} (hnode : s.node id = .bound i)
    (hbound : closed → ∀ i ∈ s.looseVars id, i < scope.depth) :
    J.Rel
      (match scope.local? i with
        | some x => return Expr.var x
        | none => throw (.unboundVariable i scope.depth))
      (match scope'.local? i with
        | some x => return Expr.var x
        | none => throw (.unboundVariable i scope'.depth)) (EqualIf same) := by
  rw [looseVars_of_node_bound hnode] at hbound
  by_cases hlt : i < scope.depth
  · obtain ⟨x, hx⟩ := Scope.exists_local? hlt
    obtain ⟨x', hx'⟩ := Scope.exists_local? (h.depth ▸ hlt : i < scope'.depth)
    rw [hx, hx']
    refine J.rel_pure fun hs => ?_
    rw [Scope.local?, (h.agrees hs).env] at hx'
    rw [Option.some.inj (hx.symm.trans hx')]
  · have hnone : scope.local? i = none := List.getElem?_eq_none (Nat.le_of_not_lt hlt)
    have hnone' : scope'.local? i = none :=
      List.getElem?_eq_none (by rw [← Scope.depth, h.depth]; exact Nat.le_of_not_lt hlt)
    rw [hnone, hnone', h.depth]
    exact J.rel_throw fun hclosed => absurd (hbound hclosed i (List.mem_singleton_self i)) hlt

/-- Two runs that enter a node side by side go on side by side.  Where the variables of the
node are bound, a variable has a name. -/
theorem rel_step {id : TermId} (hid : id = limit)
    (hbound : closed → ∀ i ∈ s.looseVars id, i < scope.depth)
    (hdeclare : ∀ c ident ty body, s.node c = .constant ident ty body → c ≤ limit →
      J.Rel (declareConstant cfg s render ident ty body)
        (declareConstant cfg s render' ident ty body) (EqualIf same)) :
    J.Rel (translateStep cfg s render scope id) (translateStep cfg s render' scope' id)
      (EqualIf same) := by
  subst hid
  have hpart : ∀ {c d}, (c, d) ∈ (s.node id).childrenWithDepth →
      s.Enclosed closed id (scope.depth + d) c := fun hc =>
    enclosed_of_within (strictlyWithin_part hc).2 hbound (strictlyWithin_part hc).1
  unfold translateStep
  cases hnode : s.node id with
  | constant ident ty body =>
      exact rel_constant hrender h (hdeclare id ident ty body hnode le_rfl)
        (List.forall_mem_nil _)
  | global ident => exact rel_ident hrender h ident (List.forall_mem_nil _)
  | app f a => exact rel_app hrender h hnode le_rfl hbound hdeclare
  | lam x ty b => exact rel_lam hrender h hnode le_rfl hbound
  | pi x ty b => exact rel_pi hrender h hnode le_rfl hbound
  | fix x ty b => exact J.rel_throw fun _ => by simp
  | bound i => exact rel_bound h hnode hbound
  | free | sort | nat | string | bool | unit | unitType => exact J.rel_pure (equalIf_refl _)
  | pair a b | pairType a b | pairLeft a | pairRight a =>
      refine rel_named hrender h _ fun c hc => hpart (d := 0) ?_
      simpa [hnode, Node.childrenWithDepth] using hc
  | recordType fields | record fields =>
      refine rel_fields hrender h _ _ fun p hp => hpart (d := 0) ?_
      rw [hnode]
      exact List.mem_map_of_mem (f := fun p : String × TermId => (p.2, 0))
        (List.mem_mergeSort.mp hp)
  | proj r field =>
      have hr := hpart (c := r) (d := 0) (by simp [hnode, Node.childrenWithDepth])
      exact Pairing.rel_map (rel_term hrender h hr) fun _ _ hr =>
        hr.map fun r => Expr.mkApp (.var "RecordProj") [r, .string field]
  | array elemType elems =>
      refine rel_array hrender h elemType fun a ha => hpart (d := 0) ?_
      simp [hnode, Node.childrenWithDepth, ha]
  | data ident params rest | ctor ident params rest =>
      refine rel_ident hrender h ident fun a ha => hpart (d := 0) ?_
      simpa [hnode, Node.childrenWithDepth] using ha
  | recursor datatype params motive order cases =>
      have hmem : ∀ c, c ∈ params ∨ c = motive ∨ (∃ p ∈ cases, p.2 = c) →
          s.Enclosed closed id scope.depth c := fun c hc => hpart (d := 0) <| by
        simpa [hnode, Node.childrenWithDepth] using hc
      exact rel_recursor hrender h datatype (fun a ha => hmem a (Or.inl ha))
        (hmem motive (Or.inr (Or.inl rfl)))
        (fun p hp => hmem p.2 (Or.inr (Or.inr ⟨p, hp, rfl⟩))) order
  | letIn x ty value b =>
      refine rel_let hrender h x (hpart (d := 0) ?_) (hpart (d := 0) ?_) (hpart ?_) <;>
        simp [hnode, Node.childrenWithDepth]

end Steps

/-! ## Units -/

section Units

variable {cfg : Config} {s : Store} {render render' : Render} {closed : Prop}
  {J : Pairing closed} {limit : TermId}
  (hrender : ∀ {scope scope'}, Scope.Level True scope scope' →
    ∀ {c}, s.Enclosed closed limit scope.depth c →
      J.Rel (render scope c) (render' scope' c) (EqualIf True))
  {scope scope' : Scope} (h : Scope.Level True scope scope')

include hrender h

theorem rel_shareBindings {named : List (TermId × String)}
    (hnamed : ∀ p ∈ named, s.Enclosed closed limit scope.depth p.1) :
    J.Rel (shareBindings render scope named) (shareBindings render' scope' named)
      (EqualIf True) := by
  induction named with
  | nil => exact J.rel_pure (equalIf_refl _)
  | cons p rest ih =>
      obtain ⟨hp, hrest⟩ := List.forall_mem_cons.mp hnamed
      refine J.rel_bind (hrender h hp) fun _ _ hvalue => ?_
      exact Pairing.rel_map (ih hrest) fun _ _ hbindings =>
        hvalue.map₂ hbindings fun value bindings => ⟨p.2, none, value⟩ :: bindings

/-- Subterms that get a name have no variables. -/
theorem rel_lifted {root : TermId} (hroot : s.Enclosed closed limit scope.depth root) :
    J.Rel (translateLifted cfg s render scope root) (translateLifted cfg s render' scope' root)
      (EqualIf True) := by
  have hnamed : ∀ t ∈ cfg.namedTerms s root, ∀ d, s.Enclosed closed limit d t := by
    intro t ht d
    obtain ⟨hreach, hshould⟩ := Config.of_mem_namedTerms ht
    exact enclosed_of_closed (hreach.le.trans_lt hroot.lt) fun _ =>
      Config.looseVars_of_shouldName hshould
  unfold translateLifted
  generalize cfg.namedTerms s root = ids at hnamed ⊢
  dsimp only
  split
  · exact rel_term hrender h hroot
  · obtain ⟨hnames, hinner, hdepth⟩ := h.freshMany cfg.options.sharedNameBase ids.length
    generalize scope.freshMany cfg.options.sharedNameBase ids.length = picked
      at hnames hinner hdepth ⊢
    generalize scope'.freshMany cfg.options.sharedNameBase ids.length = picked'
      at hnames hinner ⊢
    obtain ⟨names, inner⟩ := picked
    obtain ⟨names', inner'⟩ := picked'
    obtain rfl : names = names' := hnames trivial
    refine J.rel_bind (rel_shareBindings hrender (hinner.share _) fun p hp =>
      hnamed p.1 (List.of_mem_zip hp).1 _) fun _ _ hbindings => ?_
    refine Pairing.rel_map (rel_term hrender (hinner.share _) ?_) fun _ _ hbody =>
      hbindings.map₂ hbody Expr.mkLet
    exact hdepth.symm ▸ hroot

theorem rel_definition (name : String) {ty body : TermId}
    (hty : s.Enclosed closed limit scope.depth ty)
    (hbody : s.Enclosed closed limit scope.depth body) :
    J.Rel (translateDefinition cfg s render scope name ty body)
      (translateDefinition cfg s render' scope' name ty body) (EqualIf True) := by
  obtain ⟨hdomains, hcodomain⟩ := s.within_piChain ty
  have hinner := (s.within_lamChain body).2
  simp only [translateDefinition]
  split
  · refine J.rel_bind (rel_term hrender h hty) fun _ _ hty => ?_
    exact Pairing.rel_map (rel_lifted hrender h hbody) fun _ _ hbody =>
      hty.map₂ hbody fun ty body => Decl.definition name [] (some ty) body
  · rename_i hcond
    have hlength := length_eq_of_params hcond
    have hmap := map_snd_zipWith_params hlength
    generalize List.zipWith _ (s.piChain ty).1 (s.lamChain body).1 = params at hmap ⊢
    have hparams : ∀ j p, params[j]? = some p →
        s.Enclosed closed limit (scope.depth + j) p.2 := by
      intro j p hp
      have hsnd : ((s.piChain ty).1.map (·.2))[j]? = some p.2 := by
        rw [← hmap, List.getElem?_map, hp]
        rfl
      rw [List.getElem?_map, Option.map_eq_some_iff] at hsnd
      obtain ⟨q, hq, heq⟩ := hsnd
      exact heq ▸ hty.within (hdomains j q hq).1
    have hcount : params.length = (s.piChain ty).1.length := by
      simpa using congrArg List.length hmap
    refine J.rel_bind (rel_bindParams hrender h hparams) fun r r' hr => ?_
    obtain ⟨binders, inside⟩ := r
    obtain ⟨binders', inside'⟩ := r'
    obtain ⟨hbinders, hinside, hdepth⟩ := hr
    dsimp only at hdepth hbinders hinside ⊢
    rw [hcount] at hdepth
    refine J.rel_bind (rel_term hrender hinside (hdepth.symm ▸ hty.within hcodomain))
      fun _ _ hcodomain => ?_
    refine Pairing.rel_map (rel_lifted hrender hinside ?_) fun _ _ hbody => ?_
    · rw [hdepth, hlength]
      exact hbody.within hinner
    · exact (hbinders.map₂ hcodomain fun binders ty => (binders, ty)).map₂ hbody
        fun p body => Decl.definition name p.1 (some p.2) body

end Units

end TermGraph
