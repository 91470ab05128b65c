import Mathlib
import TermGraph.Proofs.Target.Substitute
import TermGraph.Proofs.Term.Occurrences
import TermGraph.Proofs.Translate.Context
import TermGraph.Translate.Module

/-!
# What a translation means

`Config.outline` gives the resolved form that the translation of a term ought to
have, without picking a name for any binder: a bound variable and a shared
subterm refer to their binder by its position, a hypothesis refers to its
parameter by position too, and everything else refers to names outside.  A term
that cannot be translated has no such form, and neither has one that refers to a
constant whose definition cannot be dealt with, except for known constants, whose
definitions have been dealt with before.

It takes binders one at a time, where the translator joins chains of them.
-/

namespace TermGraph

open Target Store

/-- The resolved form of a term at some place, whatever its name. -/
abbrev Outliner : Type :=
  Context → TermId → Option Resolved

section Steps

variable (cfg : Config) (s : Store) (known : Ident → Bool) (look : Outliner)

/-- The resolved form of a term: the binder of its name if it has one. -/
def outlineTerm (ctx : Context) (id : TermId) : Option Resolved :=
  match ctx.lifted? id with
  | some k => some (.bound k)
  | none => look ctx id

/-- The resolved forms of several terms. -/
def outlineTerms (ctx : Context) (ids : List TermId) : Option (List Resolved) :=
  ids.mapM (outlineTerm look ctx)

/-! ## Binders -/

/-- The binders of a type family's arguments. -/
def outlineDomains (ctx : Context) : List TermId → Option (List (Bool × Resolved))
  | [] => some []
  | domain :: rest => do
      let type ← outlineTerm look ctx domain
      return (false, type) :: (← outlineDomains (.named :: ctx) rest)

/-- The type of the hypothesis that a parameter of a type belongs to a class; the
parameter is given by position. -/
def outlineHypothesis (ctx : Context) (param : Nat) (ty : TermId) (cls : String) :
    Option Resolved := do
  let domains := (s.piChain ty).1.map (·.2)
  let arity := domains.length
  let family := (Resolved.bound (param + arity)).applyAll ((List.range arity).reverse.map .bound)
  return .pis (← outlineDomains look ctx domains) (.app (.free cls) family)

/-- The hypotheses of a parameter for several classes, where `count` of them have
been stated already.  Neither they nor the parameter are binders of the term in
their types. -/
def outlineHypotheses (ctx : Context) (ty : TermId) (count : Nat) :
    List String → Option (List (Bool × Resolved))
  | [] => some []
  | cls :: rest => do
      let inside := List.replicate (count + 1) .extra ++ ctx
      let type ← outlineHypothesis s look inside count ty cls
      return (true, type) :: (← outlineHypotheses ctx ty (count + 1) rest)

/-- The classes that a parameter of a type is assumed to belong to. -/
def classesOf (ty : TermId) : List String :=
  (constraintClasses (sortFlags s ty)).map (·.2)

/-- A binder and its hypotheses. -/
def outlineBinder (ctx : Context) (ty : TermId) : Option (List (Bool × Resolved)) := do
  let type ← outlineTerm look ctx ty
  return (false, type) :: (← outlineHypotheses s look ctx ty 0 (classesOf s ty))

/-- The context inside a binder and its hypotheses. -/
def insideBinder (ctx : Context) (ty : TermId) : Context :=
  List.replicate (classesOf s ty).length .extra ++ .named :: ctx

/-- Binders of functions or definitions, by their types, outermost first. -/
def outlineParams (ctx : Context) : List TermId → Option (List (Bool × Resolved))
  | [] => some []
  | ty :: rest => do
      let binders ← outlineBinder s look ctx ty
      return binders ++ (← outlineParams (insideBinder s ctx ty) rest)

/-- The context inside binders, outermost first. -/
def insideParams (ctx : Context) (types : List TermId) : Context :=
  types.foldl (insideBinder s) ctx

/-- A function. -/
def outlineLam (ctx : Context) (ty body : TermId) : Option Resolved := do
  let binders ← outlineBinder s look ctx ty
  return .lams binders (← outlineTerm look (insideBinder s ctx ty) body)

/-- A function type.  Its binder has a name where the codomain refers to it or a
hypothesis mentions it. -/
def outlinePi (ctx : Context) (ty body : TermId) : Option Resolved :=
  if s.hasLoose body 0 || !(sortFlags s ty).isEmpty then do
    let binders ← outlineBinder s look ctx ty
    return .pis binders (← outlineTerm look (insideBinder s ctx ty) body)
  else do
    let type ← outlineTerm look ctx ty
    return .arrow false type (← outlineTerm look (.unnamed :: ctx) body)

/-- A binding. -/
def outlineLet (ctx : Context) (ty value body : TermId) : Option Resolved := do
  let type ← outlineTerm look ctx ty
  let value ← outlineTerm look ctx value
  return .typedLet type value (← outlineTerm look (.named :: ctx) body)

/-! ## Shared subterms and definitions -/

/-- Bindings of shared subterms around what follows them. -/
def outlineShared (ctx : Context) (inner : Context → Option Resolved) :
    List TermId → Option Resolved
  | [] => inner ctx
  | id :: rest => do
      let value ← look ctx id
      return .letIn value (← outlineShared (.lifted id :: ctx) inner rest)

/-- A term inside bindings of its shared subterms. -/
def outlineLifted (ctx : Context) (root : TermId) : Option Resolved :=
  outlineShared look ctx (fun ctx => outlineTerm look ctx root) (cfg.namedTerms s root)

/-- A definition: its body, which is given its type, inside its parameters. -/
def outlineDefinition (ty body : TermId) : Option Resolved :=
  let (pis, codomain) := s.piChain ty
  let (lams, inner) := s.lamChain body
  if pis.isEmpty || pis.length ≠ lams.length then do
    let type ← outlineTerm look [] ty
    return .ascription (← outlineLifted cfg s look [] body) type
  else do
    let types := pis.map (·.2)
    let params ← outlineParams s look [] types
    let type ← outlineTerm look (insideParams s [] types) codomain
    return .lams params
      (.ascription (← outlineLifted cfg s look (insideParams s [] types) inner) type)

/-- The declaration of a constant: its definition, or its type if it has none. -/
def outlineDeclaration (ty : TermId) : Option TermId → Option Resolved
  | some body => outlineDefinition cfg s look ty body
  | none => outlineTerm look [] ty

/-! ## Names and applications -/

/-- An identifier applied to arguments. -/
def outlineIdent (ctx : Context) (ident : Ident) (args : List TermId) : Option Resolved :=
  match cfg.table.useSite ident with
  | .preserve => do
      return (Resolved.free (cfg.qualifiedName ident)).applyAll (← outlineTerms look ctx args)
  | .rename module name explicit => do
      let name := Resolved.free (UseSite.renamed module name)
      return (if explicit then .explicit name else name).applyAll
        (← outlineTerms look ctx args)
  | .expand arity template =>
      if args.length < arity then none
      else do
        let front ← outlineTerms look ctx (args.take arity)
        return (template.outline front).applyAll (← outlineTerms look ctx (args.drop arity))

/-- Whether the definition of a constant can be dealt with. -/
def canDeclare (ident : Ident) (ty : TermId) (body : Option TermId) : Bool :=
  match cfg.table.find? ident with
  | some ⟨none, _⟩ => false
  | some ⟨some .skip, _⟩ | some ⟨some (.replace _), _⟩ => true
  | _ => (outlineDeclaration cfg s look ty body).isSome

/-- A constant applied to arguments. -/
def outlineConstant (ctx : Context) (ident : Ident) (ty : TermId) (body : Option TermId)
    (args : List TermId) : Option Resolved :=
  if known ident || canDeclare cfg s look ident ty body then
    outlineIdent cfg look ctx ident args
  else none

/-- A target name applied to arguments. -/
def outlineNamed (ctx : Context) (head : String) (args : List TermId) : Option Resolved := do
  return (Resolved.free head).applyAll (← outlineTerms look ctx args)

/-- A conditional with all of its arguments, and perhaps more. -/
def outlineConditional (ctx : Context) (c t e : TermId) (rest : List TermId) :
    Option Resolved := do
  let c ← outlineTerm look ctx c
  let t ← outlineTerm look ctx t
  let e ← outlineTerm look ctx e
  return (Resolved.ite c t e).applyAll (← outlineTerms look ctx rest)

/-- A built-in applied to arguments. -/
def outlineGlobal (ctx : Context) (ident : Ident) (args : List TermId) : Option Resolved :=
  if ident = .prelude "ite" then
    match args with
    | _ :: c :: t :: e :: rest => outlineConditional look ctx c t e rest
    | args => outlineIdent cfg look ctx ident args
  else outlineIdent cfg look ctx ident args

/-- A head with all of its arguments. -/
def outlineSpine (ctx : Context) (head : TermId) (args : List TermId) : Option Resolved :=
  match s.node head with
  | .global ident => outlineGlobal cfg look ctx ident args
  | .constant ident ty body => outlineConstant cfg s known look ctx ident ty body args
  | _ => do
      let fn ← outlineTerm look ctx head
      return fn.applyAll (← outlineTerms look ctx args)

/-- An application; a function with a name of its own is a head. -/
def outlineApp (ctx : Context) (id : TermId) : Option Resolved :=
  let (head, args) := s.spineUntil ctx.isLifted id
  outlineSpine cfg s known look ctx head args

/-! ## Data -/

/-- A chain of fields. -/
def outlineFields (ctx : Context) (cons nil : String) :
    List (String × TermId) → Option Resolved
  | [] => some (.free nil)
  | (x, id) :: rest => do
      let value ← outlineTerm look ctx id
      let tail ← outlineFields ctx cons nil rest
      return (Resolved.free cons).applyAll [.string x, value, tail]

/-- A record or a record type. -/
def outlineRecord (ctx : Context) (cons nil : String) (fields : List (String × TermId)) :
    Option Resolved :=
  outlineFields look ctx cons nil (fields.mergeSort fun a b => a.1 ≤ b.1)

/-- A field of a record. -/
def outlineProj (ctx : Context) (r : TermId) (field : String) : Option Resolved := do
  return (Resolved.free "RecordProj").applyAll [← outlineTerm look ctx r, .string field]

/-- A vector literal. -/
def outlineArray (ctx : Context) (elemType : TermId) (elems : List TermId) :
    Option Resolved :=
  match literalBits? s elemType elems with
  | some bits =>
      some ((Resolved.free cfg.options.bvLiteralCtor).applyAll
        [.nat bits.length, .nat (bitsValue bits)])
  | none => do
      let elems ← outlineTerms look ctx elems
      return (Resolved.free cfg.options.vectorCtor).applyAll [.ofList elems]

/-- The case of a constructor; a missing one is an error in the target term, unless
there has to be one. -/
def outlineCase (ctx : Context) (cases : List (Ident × TermId)) (ctor : Ident) :
    Option Resolved :=
  match cases.find? fun p => p.1 = ctor with
  | some p => outlineTerm look ctx p.2
  | none =>
      if cfg.options.strictEliminators then none
      else
        some ((Resolved.free "error").applyAll [.string ("missing eliminator for " ++ ctor.text)])

/-- The recursor of a datatype applied to its parameters, its motive, and its
cases. -/
def outlineRecursor (ctx : Context) (datatype : Ident) (params : List TermId)
    (motive : TermId) (order : List Ident) (cases : List (Ident × TermId)) :
    Option Resolved := do
  let target ← counterpart? cfg datatype
  let params ← outlineTerms look ctx params
  let motive ← outlineTerm look ctx motive
  let cases ← order.mapM (outlineCase cfg look ctx cases)
  return (Resolved.free (target ++ ".rec")).applyAll (params ++ motive :: cases)

/-! ## Nodes -/

/-- The resolved form of a node. -/
def outlineStep (ctx : Context) (id : TermId) : Option Resolved :=
  match s.node id with
  | .global ident => outlineIdent cfg look ctx ident []
  | .constant ident ty body => outlineConstant cfg s known look ctx ident ty body []
  | .free x _ => some (.free (sanitize x))
  | .bound i => (ctx.local? i).map .bound
  | .sort level _ => some (.sort level)
  | .nat n => some (.nat n)
  | .string t => some (.string t)
  | .bool b => some (.free (if b then "true" else "false"))
  | .unit => some (.free "Unit.unit")
  | .unitType => some (.free "Unit")
  | .app _ _ => outlineApp cfg s known look ctx id
  | .pair a b => outlineNamed look ctx "Prod.mk" [a, b]
  | .pairType a b => outlineNamed look ctx "Prod" [a, b]
  | .pairLeft a => outlineNamed look ctx "Prod.fst" [a]
  | .pairRight a => outlineNamed look ctx "Prod.snd" [a]
  | .recordType fields => outlineRecord look ctx "RecordTypeCons" "RecordTypeNil" fields
  | .record fields => outlineRecord look ctx "RecordCons" "RecordNil" fields
  | .proj r field => outlineProj look ctx r field
  | .array elemType elems => outlineArray cfg s look ctx elemType elems
  | .data ident params indices => outlineIdent cfg look ctx ident (params ++ indices)
  | .ctor ident params args => outlineIdent cfg look ctx ident (params ++ args)
  | .recursor datatype params motive order cases =>
      outlineRecursor cfg look ctx datatype params motive order cases
  | .lam _ ty body => outlineLam s look ctx ty body
  | .pi _ ty body => outlinePi s look ctx ty body
  | .letIn _ ty value body => outlineLet look ctx ty value body
  | .fix _ _ _ => none

end Steps

namespace Config

/-- The resolved form that the translation of a node ought to have, where the
definitions of known constants have been dealt with before. -/
def outline (cfg : Config) (s : Store) (known : Ident → Bool) (ctx : Context) (id : TermId) :
    Option Resolved :=
  -- Only what is older than a node is read for it.
  let look (ctx : Context) (c : TermId) : Option Resolved :=
    if _ : c < id then cfg.outline s known ctx c else none
  outlineStep cfg s known look ctx id
termination_by id

end Config

/-! ## Outlines of older nodes -/

section Congr

variable {cfg : Config} {s : Store} {known : Ident → Bool} {look look' : Outliner}
  {id : TermId}

theorem lt_of_mem_piChain {ty d : TermId} (h : d ∈ (s.piChain ty).1.map (·.2)) : d < ty := by
  obtain ⟨p, hp, rfl⟩ := List.mem_map.mp h
  obtain ⟨j, hj⟩ := List.mem_iff_getElem?.mp hp
  exact ((s.within_piChain ty).1 j p hj).2

theorem mapM_congr {α β : Type} {f g : α → Option β} {xs : List α}
    (h : ∀ x ∈ xs, f x = g x) : xs.mapM f = xs.mapM g := by
  induction xs with
  | nil => rfl
  | cons x xs ih =>
      rw [List.mapM_cons, List.mapM_cons, h x (by simp), ih fun y hy => h y (by simp [hy])]

theorem outlineTerm_congr (h : ∀ ctx, ∀ c < id, look ctx c = look' ctx c) (ctx : Context)
    {c : TermId} (hc : c < id) : outlineTerm look ctx c = outlineTerm look' ctx c := by
  rw [outlineTerm, outlineTerm, h ctx c hc]

theorem outlineTerms_congr (h : ∀ ctx, ∀ c < id, look ctx c = look' ctx c) (ctx : Context)
    {args : List TermId} (hargs : ∀ a ∈ args, a < id) :
    outlineTerms look ctx args = outlineTerms look' ctx args :=
  mapM_congr fun a ha => outlineTerm_congr h ctx (hargs a ha)

theorem outlineDomains_congr (h : ∀ ctx, ∀ c < id, look ctx c = look' ctx c)
    {domains : List TermId} (hlt : ∀ d ∈ domains, d < id) (ctx : Context) :
    outlineDomains look ctx domains = outlineDomains look' ctx domains := by
  induction domains generalizing ctx with
  | nil => rfl
  | cons d rest ih =>
      rw [outlineDomains, outlineDomains, outlineTerm_congr h ctx (hlt d (by simp)),
        ih (fun a ha => hlt a (by simp [ha]))]

theorem outlineHypotheses_congr (h : ∀ ctx, ∀ c < id, look ctx c = look' ctx c)
    {ty : TermId} (hty : ty < id) (ctx : Context) (classes : List String) :
    ∀ count, outlineHypotheses s look ctx ty count classes =
      outlineHypotheses s look' ctx ty count classes := by
  induction classes with
  | nil => exact fun _ => rfl
  | cons cls rest ih =>
      intro count
      have hdomains := outlineDomains_congr h
        (fun d hd => (lt_of_mem_piChain (s := s) hd).trans hty)
        (List.replicate (count + 1) .extra ++ ctx)
      simp only [outlineHypotheses, outlineHypothesis, hdomains, ih]

theorem outlineBinder_congr (h : ∀ ctx, ∀ c < id, look ctx c = look' ctx c)
    {ty : TermId} (hty : ty < id) (ctx : Context) :
    outlineBinder s look ctx ty = outlineBinder s look' ctx ty := by
  rw [outlineBinder, outlineBinder, outlineTerm_congr h ctx hty,
    outlineHypotheses_congr h hty]

theorem outlineIdent_congr (h : ∀ ctx, ∀ c < id, look ctx c = look' ctx c) (ctx : Context)
    (ident : Ident) {args : List TermId} (hargs : ∀ a ∈ args, a < id) :
    outlineIdent cfg look ctx ident args = outlineIdent cfg look' ctx ident args := by
  have hall := outlineTerms_congr h ctx hargs
  have htake := fun n =>
    outlineTerms_congr h ctx fun a ha => hargs a (List.mem_of_mem_take (i := n) ha)
  have hdrop := fun n =>
    outlineTerms_congr h ctx fun a ha => hargs a (List.mem_of_mem_drop (i := n) ha)
  simp only [outlineIdent, hall, htake, hdrop]

theorem outlineParams_congr (h : ∀ ctx, ∀ c < id, look ctx c = look' ctx c)
    {types : List TermId} (hlt : ∀ ty ∈ types, ty < id) (ctx : Context) :
    outlineParams s look ctx types = outlineParams s look' ctx types := by
  induction types generalizing ctx with
  | nil => rfl
  | cons ty rest ih =>
      rw [outlineParams, outlineParams, outlineBinder_congr h (hlt ty (by simp)),
        ih fun a ha => hlt a (by simp [ha])]

theorem outlineShared_congr (h : ∀ ctx, ∀ c < id, look ctx c = look' ctx c)
    {inner inner' : Context → Option Resolved} (hinner : ∀ ctx, inner ctx = inner' ctx)
    {ids : List TermId} (hlt : ∀ t ∈ ids, t < id) (ctx : Context) :
    outlineShared look ctx inner ids = outlineShared look' ctx inner' ids := by
  induction ids generalizing ctx with
  | nil => exact hinner ctx
  | cons t rest ih =>
      rw [outlineShared, outlineShared, h ctx t (hlt t (by simp)),
        ih fun a ha => hlt a (by simp [ha])]

theorem outlineLifted_congr (h : ∀ ctx, ∀ c < id, look ctx c = look' ctx c) (ctx : Context)
    {root : TermId} (hroot : root < id) :
    outlineLifted cfg s look ctx root = outlineLifted cfg s look' ctx root :=
  outlineShared_congr h (fun ctx => outlineTerm_congr h ctx hroot)
    (fun _ ht => lt_of_le_of_lt (Config.of_mem_namedTerms ht).1.le hroot) ctx

theorem outlineDefinition_congr (h : ∀ ctx, ∀ c < id, look ctx c = look' ctx c)
    {ty body : TermId} (hty : ty < id) (hbody : body < id) :
    outlineDefinition cfg s look ty body = outlineDefinition cfg s look' ty body := by
  have htypes : ∀ d ∈ (s.piChain ty).1.map (·.2), d < id :=
    fun d hd => (lt_of_mem_piChain hd).trans hty
  have hcodomain := lt_of_le_of_lt (s.within_piChain ty).2.reaches.le hty
  have hinner := lt_of_le_of_lt (s.within_lamChain body).2.reaches.le hbody
  simp only [outlineDefinition, outlineTerm_congr h _ hty, outlineLifted_congr h _ hbody,
    outlineParams_congr h htypes, outlineTerm_congr h _ hcodomain,
    outlineLifted_congr h _ hinner]

theorem outlineDeclaration_congr (h : ∀ ctx, ∀ c < id, look ctx c = look' ctx c)
    {ty : TermId} {body : Option TermId} (hlt : ∀ c ∈ ty :: body.toList, c < id) :
    outlineDeclaration cfg s look ty body = outlineDeclaration cfg s look' ty body := by
  have hty := hlt ty (by simp)
  cases body with
  | none => exact outlineTerm_congr h [] hty
  | some body => exact outlineDefinition_congr h hty (hlt body (by simp))

/-- The type and the body of a constant are parts of it. -/
theorem mem_children_of_node_constant {ident : Ident} {ty : TermId} {body : Option TermId}
    (hnode : s.node id = .constant ident ty body) :
    ∀ c ∈ ty :: body.toList, c ∈ (s.node id).children := by
  intro c hc
  rw [hnode]
  cases body <;> simpa [Node.children, Node.childrenWithDepth] using hc

theorem lt_of_node_constant {ident : Ident} {ty : TermId} {body : Option TermId}
    (hnode : s.node id = .constant ident ty body) : ∀ c ∈ ty :: body.toList, c < id :=
  fun c hc => s.lt_of_mem_children (mem_children_of_node_constant hnode c hc)

theorem outlineConstant_congr (h : ∀ ctx, ∀ c < id, look ctx c = look' ctx c)
    (ctx : Context) {head : TermId} {ident : Ident} {ty : TermId} {body : Option TermId}
    (hnode : s.node head = .constant ident ty body) (hle : head ≤ id) {args : List TermId}
    (hargs : ∀ a ∈ args, a < id) :
    outlineConstant cfg s known look ctx ident ty body args =
      outlineConstant cfg s known look' ctx ident ty body args := by
  have hparts : ∀ c ∈ ty :: body.toList, c < id :=
    fun c hc => lt_of_lt_of_le (lt_of_node_constant hnode c hc) hle
  have hdeclare : canDeclare cfg s look ident ty body = canDeclare cfg s look' ident ty body := by
    unfold canDeclare
    rw [outlineDeclaration_congr h hparts]
  rw [outlineConstant, outlineConstant, hdeclare, outlineIdent_congr h ctx ident hargs]

theorem outlineGlobal_congr (h : ∀ ctx, ∀ c < id, look ctx c = look' ctx c) (ctx : Context)
    (ident : Ident) {args : List TermId} (hargs : ∀ a ∈ args, a < id) :
    outlineGlobal cfg look ctx ident args = outlineGlobal cfg look' ctx ident args := by
  unfold outlineGlobal
  split
  · split
    · rename_i ty c t e rest
      simp only [List.mem_cons, forall_eq_or_imp] at hargs
      obtain ⟨_, hc, ht, he, hrest⟩ := hargs
      rw [outlineConditional, outlineConditional, outlineTerm_congr h ctx hc,
        outlineTerm_congr h ctx ht, outlineTerm_congr h ctx he,
        outlineTerms_congr h ctx hrest]
    · exact outlineIdent_congr h ctx ident hargs
  · exact outlineIdent_congr h ctx ident hargs

theorem outlineApp_congr (h : ∀ ctx, ∀ c < id, look ctx c = look' ctx c) (ctx : Context)
    {f a : TermId} (hnode : s.node id = .app f a) :
    outlineApp cfg s known look ctx id = outlineApp cfg s known look' ctx id := by
  obtain ⟨hhead, hargs⟩ := s.strictlyWithin_spineUntil hnode ctx.isLifted
  have hargs : ∀ b ∈ (s.spineUntil ctx.isLifted id).2, b < id := fun b hb => (hargs b hb).2
  simp only [outlineApp, outlineSpine]
  split
  · exact outlineGlobal_congr h ctx _ hargs
  · rename_i hconstant
    exact outlineConstant_congr h ctx hconstant (le_of_lt hhead.2) hargs
  · rw [outlineTerm_congr h ctx hhead.2, outlineTerms_congr h ctx hargs]

theorem outlineFields_congr (h : ∀ ctx, ∀ c < id, look ctx c = look' ctx c) (ctx : Context)
    (cons nil : String) {fields : List (String × TermId)} (hlt : ∀ p ∈ fields, p.2 < id) :
    outlineFields look ctx cons nil fields = outlineFields look' ctx cons nil fields := by
  induction fields with
  | nil => rfl
  | cons p rest ih =>
      rw [outlineFields, outlineFields, outlineTerm_congr h ctx (hlt p (by simp)),
        ih (fun q hq => hlt q (by simp [hq]))]

theorem outlineRecord_congr (h : ∀ ctx, ∀ c < id, look ctx c = look' ctx c) (ctx : Context)
    (cons nil : String) {fields : List (String × TermId)} (hlt : ∀ p ∈ fields, p.2 < id) :
    outlineRecord look ctx cons nil fields = outlineRecord look' ctx cons nil fields :=
  outlineFields_congr h ctx cons nil fun p hp => hlt p (List.mem_mergeSort.mp hp)

theorem outlineCase_congr (h : ∀ ctx, ∀ c < id, look ctx c = look' ctx c) (ctx : Context)
    {cases : List (Ident × TermId)} (hlt : ∀ p ∈ cases, p.2 < id) (ctor : Ident) :
    outlineCase cfg look ctx cases ctor = outlineCase cfg look' ctx cases ctor := by
  unfold outlineCase
  split
  · rename_i p hp
    exact outlineTerm_congr h ctx (hlt p (List.mem_of_find?_eq_some hp))
  · rfl

theorem outlineRecursor_congr (h : ∀ ctx, ∀ c < id, look ctx c = look' ctx c)
    (ctx : Context) (datatype : Ident) {params : List TermId}
    (hparams : ∀ p ∈ params, p < id) {motive : TermId} (hmotive : motive < id)
    (order : List Ident) {cases : List (Ident × TermId)} (hcases : ∀ p ∈ cases, p.2 < id) :
    outlineRecursor cfg look ctx datatype params motive order cases =
      outlineRecursor cfg look' ctx datatype params motive order cases := by
  have horder : order.mapM (outlineCase cfg look ctx cases) =
      order.mapM (outlineCase cfg look' ctx cases) :=
    mapM_congr fun ctor _ => outlineCase_congr h ctx hcases ctor
  simp only [outlineRecursor, outlineTerms_congr h ctx hparams,
    outlineTerm_congr h ctx hmotive, horder]

/-- The resolved form of a node depends on older nodes only. -/
theorem outlineStep_congr (h : ∀ ctx, ∀ c < id, look ctx c = look' ctx c) (ctx : Context) :
    outlineStep cfg s known look ctx id = outlineStep cfg s known look' ctx id := by
  have hlt : ∀ c ∈ (s.node id).children, c < id := fun c => s.lt_of_mem_children
  unfold outlineStep
  cases hnode : s.node id with
  | app f a => exact outlineApp_congr h ctx hnode
  | global ident => exact outlineIdent_congr h ctx ident (by simp)
  | constant ident ty body => exact outlineConstant_congr h ctx hnode le_rfl (by simp)
  | free | bound | sort | nat | string | bool | unit | unitType | fix => rfl
  | pair a b | pairType a b | pairLeft a | pairRight a =>
      dsimp only
      rw [outlineNamed, outlineNamed, outlineTerms_congr h ctx]
      intro c hc
      exact hlt c (by simpa [hnode, Node.children, Node.childrenWithDepth] using hc)
  | recordType fields | record fields =>
      refine outlineRecord_congr h ctx _ _ fun p hp => hlt p.2 ?_
      simp only [hnode, Node.children, Node.childrenWithDepth, List.map_map, List.mem_map]
      exact ⟨p, hp, rfl⟩
  | proj r field =>
      have hr : r < id := hlt r (by simp [hnode, Node.children, Node.childrenWithDepth])
      simp only [outlineProj, outlineTerm_congr h ctx hr]
  | array elemType elems =>
      have helems : ∀ e ∈ elems, e < id := fun e he =>
        hlt e (by simp [hnode, Node.children, Node.childrenWithDepth, he])
      simp only [outlineArray, outlineTerms_congr h ctx helems]
  | data ident params rest | ctor ident params rest =>
      refine outlineIdent_congr h ctx ident fun a ha => hlt a ?_
      rcases List.mem_append.mp ha with ha | ha <;>
        simp [hnode, Node.children, Node.childrenWithDepth, ha]
  | recursor datatype params motive order cases =>
      refine outlineRecursor_congr h ctx datatype (fun p hp => hlt p ?_) (hlt motive ?_)
        order (fun p hp => hlt p.2 ?_)
      · simp [hnode, Node.children, Node.childrenWithDepth, hp]
      · simp [hnode, Node.children, Node.childrenWithDepth]
      · simp only [hnode, Node.children, Node.childrenWithDepth, List.map_append,
          List.map_cons, List.map_map, List.mem_append, List.mem_cons, List.mem_map]
        exact Or.inr (Or.inr ⟨p, hp, rfl⟩)
  | lam x ty body =>
      obtain ⟨hty, hbody⟩ := strictlyWithin_lam hnode
      simp only [outlineLam, outlineBinder_congr h hty.2, outlineTerm_congr h _ hbody.2]
  | pi x ty body =>
      obtain ⟨hty, hbody⟩ := strictlyWithin_pi hnode
      simp only [outlinePi, outlineBinder_congr h hty.2, outlineTerm_congr h _ hty.2,
        outlineTerm_congr h _ hbody.2]
  | letIn x ty value body =>
      simp only [hnode, Node.children, Node.childrenWithDepth, List.map_cons, List.map_nil,
        List.mem_cons, List.not_mem_nil, or_false, forall_eq_or_imp, forall_eq] at hlt
      simp only [outlineLet, outlineTerm_congr h _ hlt.1, outlineTerm_congr h _ hlt.2.1,
        outlineTerm_congr h _ hlt.2.2]

theorem outline_eq (cfg : Config) (s : Store) (known : Ident → Bool) (ctx : Context)
    (id : TermId) :
    cfg.outline s known ctx id = outlineStep cfg s known (cfg.outline s known) ctx id := by
  rw [Config.outline]
  exact outlineStep_congr (fun ctx c hc => by rw [dif_pos hc]) ctx

end Congr

end TermGraph
