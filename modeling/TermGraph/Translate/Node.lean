import TermGraph.Translate.Sharing

/-!
# Translating terms

Each node is translated from the target trees of its parts.  A part that has a
name in the scope is translated to this name, and any other part structurally.
The functions of this module take the structural form of parts as a parameter
`render`; `Config.translateNode` ties the knot along the order in which nodes
were stored.

Binders get fresh names.  A binder whose type ends in a sort with marks is
followed by an implicit hypothesis for each mark, such as that the type bound is
inhabited.  Hypotheses have no counterpart in the term, so their names are kept
from other binders but no variable refers to them.

The first reference to a constant emits its declaration.
-/

namespace TermGraph

open Target

/-- A computation that may emit declarations.  What it has emitted stays when it
fails. -/
abbrev Emit : Type → Type :=
  ExceptT TranslateError (StateM Emission)

namespace Emit

variable {α : Type}

/-- The outcome of a computation, and what has been emitted by then. -/
def exec (m : Emit α) (e : Emission) : Except TranslateError α × Emission :=
  StateT.run (ExceptT.run m) e

/-- What a computation that does not fail gives, and what has been emitted by then. -/
def run (m : Emit α) (e : Emission) : Except TranslateError (α × Emission) :=
  match m.exec e with
  | (.ok a, e) => .ok (a, e)
  | (.error err, _) => .error err

end Emit

/-- The structural form of a term at some place: its target tree, whatever its name. -/
abbrev Render : Type :=
  Scope → TermId → Emit Expr

section Steps

variable (cfg : Config) (s : Store) (render : Render)

/-- Translates a term: to its name if it has one. -/
def translateTerm (scope : Scope) (id : TermId) : Emit Expr :=
  match scope.shared[id]? with
  | some x => return .var x
  | none => render scope id

/-- Translates several terms, in order. -/
def translateTerms (scope : Scope) (ids : List TermId) : Emit (List Expr) :=
  ids.mapM (translateTerm render scope)

/-! ## Binders -/

/-- The marks of the sort that a type ends in, after its own binders. -/
def sortFlags (ty : TermId) : SortFlags :=
  match s.node (s.piChain ty).2 with
  | .sort _ flags => flags
  | _ => .none

/-- The classes that marks stand for, each with the start of the names of its
hypotheses. -/
def constraintClasses (flags : SortFlags) : List (String × String) :=
  (if flags.inhabited then [("Inh", "Inhabited")] else []) ++
    (if flags.quantifiable then [("QT", "QuantType")] else [])

/-- The binders of a type family's arguments, all of them named, and the scope
inside. -/
def bindDomains (scope : Scope) :
    List (String × TermId) → Emit (List (String × Expr) × Scope)
  | [] => return ([], scope)
  | (x, domain) :: rest => do
      let type ← translateTerm render scope domain
      let (x, scope) := scope.fresh x
      let (binders, scope) ← bindDomains (scope.bind x) rest
      return ((x, type) :: binders, scope)

/-- The type of the hypothesis that a parameter, or each type of a parameter
that is a family, belongs to a class. -/
def hypothesisType (scope : Scope) (param : String) (ty : TermId) (cls : String) :
    Emit Expr := do
  let (binders, _) ← bindDomains render scope (s.piChain ty).1
  let args := binders.map fun b => Expr.var b.1
  let constraint := Expr.mkApp (.var cls) [.mkApp (.var param) args]
  if binders.isEmpty then return constraint
  else return .pi (binders.map fun b => ⟨some b.1, b.2, false⟩) constraint

/-- The hypotheses of a parameter for several classes, and the scope in which
their names are taken. -/
def hypotheses (scope : Scope) (param : String) (ty : TermId) :
    List (String × String) → Emit (List (Binder Expr) × Scope)
  | [] => return ([], scope)
  | (start, cls) :: rest => do
      let type ← hypothesisType s render scope param ty cls
      let (x, scope) := scope.fresh (start ++ "_" ++ param)
      let (hyps, scope) ← hypotheses scope param ty rest
      return (⟨x, type, true⟩ :: hyps, scope)

/-- Enters a binder: its fresh name, its hypotheses, and the scope inside. -/
def bindNamed (scope : Scope) (x : String) (ty : TermId) :
    Emit (String × List (Binder Expr) × Scope) := do
  let (x, scope) := scope.fresh x
  let (hyps, scope) ← hypotheses s render scope x ty (constraintClasses (sortFlags s ty))
  return (x, hyps, scope.bind x)

/-- Enters binders of functions or definitions, outermost first. -/
def bindParams (scope : Scope) :
    List (String × TermId) → Emit (List (Binder Expr) × Scope)
  | [] => return ([], scope)
  | (x, ty) :: rest => do
      let type ← translateTerm render scope ty
      let (x, hyps, scope) ← bindNamed s render scope x ty
      let (binders, scope) ← bindParams scope rest
      return (⟨x, type, false⟩ :: hyps ++ binders, scope)

/-- A binder of a function as a binder of a function type. -/
def namedPi (b : Binder Expr) : PiBinder Expr :=
  ⟨some b.name, b.type, b.implicit⟩

/-- Enters the binders of a function type, outermost first.  A binder has a name
only where the codomain refers to it or a hypothesis mentions it. -/
def bindPis (scope : Scope) : List Layer → Emit (List (PiBinder Expr) × Scope)
  | [] => return ([], scope)
  | l :: rest => do
      let type ← translateTerm render scope l.type
      if s.hasLoose l.body 0 || !(sortFlags s l.type).isEmpty then
        let (x, hyps, scope) ← bindNamed s render scope l.name l.type
        let (binders, scope) ← bindPis scope rest
        return (⟨some x, type, false⟩ :: hyps.map namedPi ++ binders, scope)
      else
        let (binders, scope) ← bindPis (scope.bind "_") rest
        return (⟨none, type, false⟩ :: binders, scope)

/-- A function; functions directly inside join it. -/
def translateLam (scope : Scope) (id : TermId) : Emit Expr := do
  let (layers, body) := s.lamLayers scope.isShared id
  let (binders, scope) ← bindParams s render scope (layers.map fun l => (l.name, l.type))
  return .lam binders (← translateTerm render scope body)

/-- A function type; function types directly inside join it. -/
def translatePi (scope : Scope) (id : TermId) : Emit Expr := do
  let (layers, body) := s.piLayers scope.isShared id
  let (binders, scope) ← bindPis s render scope layers
  return .pi binders (← translateTerm render scope body)

/-- A binding; bindings directly inside join it. -/
def translateLet (scope : Scope) (x : String) (ty value body : TermId) : Emit Expr := do
  let type ← translateTerm render scope ty
  let value ← translateTerm render scope value
  let (x, scope) := scope.fresh x
  let binding : Binding Expr := ⟨x, some type, value⟩
  match ← translateTerm render (scope.bind x) body with
  | .letIn bindings inner => return .letIn (binding :: bindings) inner
  | inner => return .letIn [binding] inner

/-! ## Shared subterms -/

/-- The bindings of named subterms, each translated structurally. -/
def shareBindings (scope : Scope) : List (TermId × String) → Emit (List (Binding Expr))
  | [] => return []
  | (id, x) :: rest => do
      let value ← render scope id
      return ⟨x, none, value⟩ :: (← shareBindings scope rest)

/-- A term inside bindings of its shared subterms.  All names are picked before
the first of them is bound. -/
def translateLifted (scope : Scope) (root : TermId) : Emit Expr := do
  let ids := cfg.namedTerms s root
  if ids.isEmpty then translateTerm render scope root
  else
    let (names, scope) := scope.freshMany cfg.options.sharedNameBase ids.length
    let named := ids.zip names
    let scope := scope.share named
    let bindings ← shareBindings render scope named
    return .mkLet bindings (← translateTerm render scope root)

/-! ## Definitions -/

/-- The definition of a name.  The binders of the body become parameters when
the type has as many binders of its own. -/
def translateDefinition (scope : Scope) (name : String) (ty body : TermId) : Emit Decl := do
  let (pis, codomain) := s.piChain ty
  let (lams, inner) := s.lamChain body
  if pis.isEmpty || pis.length ≠ lams.length then
    let type ← translateTerm render scope ty
    return .definition name [] (some type) (← translateLifted cfg s render scope body)
  else
    let params := List.zipWith (fun pi lam => (lam.1, pi.2)) pis lams
    let (params, scope) ← bindParams s render scope params
    let type ← translateTerm render scope codomain
    return .definition name params (some type) (← translateLifted cfg s render scope inner)

/-- The declaration of a constant in a unit of its own. -/
def declaration (name : String) (ty : TermId) (body : Option TermId) : Emit Decl := do
  let scope := Scope.ofUnit cfg (← get) s (ty :: body.toList)
  match body with
  | some body => translateDefinition cfg s render scope name ty body
  | none => return .postulate name (← translateTerm render scope ty)

/-- Deals with the definition of a constant, unless that has been done. -/
def declareConstant (ident : Ident) (ty : TermId) (body : Option TermId) : Emit Unit := do
  if (← get).isHandled ident then return
  let defSite ← match cfg.table.find? ident with
    | none => pure DefSite.preserve
    | some ⟨some site, _⟩ => pure site
    | some ⟨none, _⟩ => throw (.unspecifiedTreatment ident)
  modify (Emission.handle ident)
  match defSite with
  | .skip => return
  | .replace text => modify (Emission.push (.snippet text))
  | .preserve => do
      let d ← declaration cfg s render (cfg.qualifiedName ident) ty body
      modify (Emission.push d)
  | .rename name => do
      let d ← declaration cfg s render name ty body
      modify (Emission.push d)

/-! ## Names and applications -/

/-- An identifier applied to arguments. -/
def translateIdent (scope : Scope) (ident : Ident) (args : List TermId) : Emit Expr :=
  match cfg.table.useSite ident with
  | .preserve => do
      return .mkApp (.var (cfg.qualifiedName ident)) (← translateTerms render scope args)
  | .rename module name explicit => do
      let name := UseSite.renamed module name
      let head := if explicit then Expr.explicitVar name else .var name
      return .mkApp head (← translateTerms render scope args)
  | .expand arity template => do
      if args.length < arity then throw (.tooFewArguments ident arity args.length)
      let front ← translateTerms render scope (args.take arity)
      let rest ← translateTerms render scope (args.drop arity)
      return .mkApp (template.instantiate front) rest

/-- A constant applied to arguments. -/
def translateConstant (scope : Scope) (ident : Ident) (ty : TermId) (body : Option TermId)
    (args : List TermId) : Emit Expr := do
  declareConstant cfg s render ident ty body
  translateIdent cfg render scope ident args

/-- A target name applied to arguments. -/
def translateNamed (scope : Scope) (head : String) (args : List TermId) : Emit Expr := do
  return .mkApp (.var head) (← translateTerms render scope args)

/-- A conditional with all of its arguments, and perhaps more. -/
def translateConditional (scope : Scope) (c t e : TermId) (rest : List TermId) :
    Emit Expr := do
  let c ← translateTerm render scope c
  let t ← translateTerm render scope t
  let e ← translateTerm render scope e
  return .mkApp (.ite c t e) (← translateTerms render scope rest)

/-- An application, as one head with all of its arguments; a function with a
name of its own is a head. -/
def translateApp (scope : Scope) (id : TermId) : Emit Expr := do
  let (head, args) := s.spineUntil scope.isShared id
  match s.node head with
  | .global ident =>
      if ident = .prelude "ite" then
        match args with
        | _ :: c :: t :: e :: rest => translateConditional render scope c t e rest
        | args => translateIdent cfg render scope ident args
      else translateIdent cfg render scope ident args
  | .constant ident ty body => translateConstant cfg s render scope ident ty body args
  | _ => do
      let fn ← translateTerm render scope head
      return .mkApp fn (← translateTerms render scope args)

/-! ## Data -/

/-- A chain of fields, in ascending order of their names. -/
def translateFields (scope : Scope) (cons nil : String) :
    List (String × TermId) → Emit Expr
  | [] => return .var nil
  | (x, id) :: rest => do
      let value ← translateTerm render scope id
      let tail ← translateFields scope cons nil rest
      return .mkApp (.var cons) [.string x, value, tail]

/-- A record or a record type. -/
def translateRecord (scope : Scope) (cons nil : String) (fields : List (String × TermId)) :
    Emit Expr :=
  translateFields render scope cons nil (fields.mergeSort fun a b => a.1 ≤ b.1)

/-- The bits of an array of boolean literals, if it has elements or a type that
says so. -/
def literalBits? (elemType : TermId) (elems : List TermId) : Option (List Bool) := do
  let bits ← elems.mapM s.asBool?
  if !elems.isEmpty || s.asGlobal? elemType = some (.prelude "Bool") then some bits else none

/-- The number that bits denote, most significant first. -/
def bitsValue (bits : List Bool) : Nat :=
  bits.foldl (fun n b => 2 * n + b.toNat) 0

/-- A vector literal; one of boolean literals is a word literal. -/
def translateArray (scope : Scope) (elemType : TermId) (elems : List TermId) : Emit Expr :=
  match literalBits? s elemType elems with
  | some bits =>
      return .mkApp (.var cfg.options.bvLiteralCtor) [.nat bits.length, .nat (bitsValue bits)]
  | none => do
      let elems ← translateTerms render scope elems
      return .mkApp (.var cfg.options.vectorCtor) [.list elems]

/-- The target name of a datatype that has one. -/
def counterpart? (ident : Ident) : Option String :=
  match cfg.table.useSite ident with
  | .preserve => some (cfg.qualifiedName ident)
  | .rename module name _ => some (UseSite.renamed module name)
  | .expand _ _ => none

/-- The case of a constructor; a missing one stops the translator, or leaves an
error in the target term. -/
def translateCase (scope : Scope) (cases : List (Ident × TermId)) (ctor : Ident) :
    Emit Expr :=
  match cases.find? fun p => p.1 = ctor with
  | some p => translateTerm render scope p.2
  | none =>
      if cfg.options.strictEliminators then throw (.missingEliminator ctor)
      else return .error ("missing eliminator for " ++ ctor.text)

/-- The recursor of a datatype applied to its parameters, its motive, and a case
for each constructor. -/
def translateRecursor (scope : Scope) (datatype : Ident) (params : List TermId)
    (motive : TermId) (order : List Ident) (cases : List (Ident × TermId)) : Emit Expr := do
  match counterpart? cfg datatype with
  | none => throw (.recursorWithoutCounterpart datatype)
  | some target =>
      let params ← translateTerms render scope params
      let motive ← translateTerm render scope motive
      let cases ← order.mapM (translateCase cfg render scope cases)
      return .mkApp (.var (target ++ ".rec")) (params ++ motive :: cases)

/-! ## Nodes -/

/-- The structural form of a node. -/
def translateStep (scope : Scope) (id : TermId) : Emit Expr :=
  match s.node id with
  | .global ident => translateIdent cfg render scope ident []
  | .constant ident ty body => translateConstant cfg s render scope ident ty body []
  | .free x _ => return .var (sanitize x)
  | .bound i =>
      match scope.local? i with
      | some x => return .var x
      | none => throw (.unboundVariable i scope.depth)
  | .sort level _ => return .sort level
  | .nat n => return .nat n
  | .string t => return .string t
  | .bool b => return .var (if b then "true" else "false")
  | .unit => return .var "Unit.unit"
  | .unitType => return .var "Unit"
  | .app _ _ => translateApp cfg s render scope id
  | .pair a b => translateNamed render scope "Prod.mk" [a, b]
  | .pairType a b => translateNamed render scope "Prod" [a, b]
  | .pairLeft a => translateNamed render scope "Prod.fst" [a]
  | .pairRight a => translateNamed render scope "Prod.snd" [a]
  | .recordType fields => translateRecord render scope "RecordTypeCons" "RecordTypeNil" fields
  | .record fields => translateRecord render scope "RecordCons" "RecordNil" fields
  | .proj r field => do
      return .mkApp (.var "RecordProj") [← translateTerm render scope r, .string field]
  | .array elemType elems => translateArray cfg s render scope elemType elems
  | .data ident params indices => translateIdent cfg render scope ident (params ++ indices)
  | .ctor ident params args => translateIdent cfg render scope ident (params ++ args)
  | .recursor datatype params motive order cases =>
      translateRecursor cfg render scope datatype params motive order cases
  | .lam _ _ _ => translateLam s render scope id
  | .pi _ _ _ => translatePi s render scope id
  | .letIn x ty value body => translateLet render scope x ty value body
  | .fix x _ _ => throw (.generalRecursion x)

end Steps

namespace Config

/-- The structural form of a node. -/
def translateNode (cfg : Config) (s : Store) (scope : Scope) (id : TermId) : Emit Expr :=
  -- Parts are older than their node, and so is all that is reached from them.
  let render (scope : Scope) (c : TermId) : Emit Expr :=
    if _ : c < id then cfg.translateNode s scope c else return default
  translateStep cfg s render scope id
termination_by id

end Config

end TermGraph
