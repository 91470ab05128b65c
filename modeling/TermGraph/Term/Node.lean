import TermGraph.Name.Ident

/-!
# Term nodes

A node is one layer of a term.  What stands below it is left open as a type
`α`: identities of other nodes when terms are kept in a shared store, whole
trees when a term is unfolded, nothing at all when only the shape of the layer
matters.

Bound variables are de Bruijn indices, counted from the innermost binder.
`lam`, `pi`, `fix` and the body of `letIn` bind one variable; every other
position binds none.  `Node.children` lists what stands below a node from left
to right, and `Node.childrenWithDepth` adds the number of binders between the
node and each of them.  Every other walk over a layer goes through
`Node.traverse`, so all of them agree on that order.
-/

namespace TermGraph

/-- Marks carried by a sort. -/
structure SortFlags where
  /-- The types of the sort are known to be inhabited. -/
  inhabited : Bool
  /-- The types of the sort can be quantified over. -/
  quantifiable : Bool
  deriving DecidableEq, Repr, Inhabited, Hashable

namespace SortFlags

/-- No mark at all. -/
def none : SortFlags :=
  ⟨false, false⟩

/-- Only the mark of inhabited types. -/
def onlyInhabited : SortFlags :=
  ⟨true, false⟩

/-- Whether neither mark is set. -/
def isEmpty (f : SortFlags) : Bool :=
  !f.inhabited && !f.quantifiable

end SortFlags

/-- One layer of a term whose parts are of type `α`. -/
inductive Node (α : Type) where
  /-- A built-in without a definition of its own. -/
  | global (ident : Ident)
  /-- A named definition; without a body it is only declared. -/
  | constant (ident : Ident) (type : α) (body : Option α)
  /-- A free variable. -/
  | free (name : String) (type : α)
  /-- A bound variable by de Bruijn index. -/
  | bound (index : Nat)
  /-- A sort of the given universe level. -/
  | sort (level : Nat) (flags : SortFlags)
  | nat (value : Nat)
  | string (value : String)
  | bool (value : Bool)
  | unit
  | unitType
  /-- Curried application to one argument. -/
  | app (fn arg : α)
  | pair (left right : α)
  | pairType (left right : α)
  | pairLeft (value : α)
  | pairRight (value : α)
  /-- A record type; the order of the fields carries no meaning. -/
  | recordType (fields : List (String × α))
  /-- A record; the order of the fields carries no meaning. -/
  | record (fields : List (String × α))
  | proj (value : α) (field : String)
  /-- A vector literal. -/
  | array (elemType : α) (elems : List α)
  /-- A fully applied datatype. -/
  | data (ident : Ident) (params indices : List α)
  /-- A fully applied constructor. -/
  | ctor (ident : Ident) (params args : List α)
  /-- The eliminator of a datatype: the constructors in declaration order, and
  the case supplied for each of them, where some may be missing. -/
  | recursor (datatype : Ident) (params : List α) (motive : α)
      (ctorOrder : List Ident) (cases : List (Ident × α))
  | lam (name : String) (type body : α)
  | pi (name : String) (type body : α)
  | letIn (name : String) (type value body : α)
  /-- A general fixed point. -/
  | fix (name : String) (type body : α)
  deriving DecidableEq, Repr, Hashable

namespace Node

variable {α β : Type}

instance : Inhabited (Node α) :=
  ⟨.unit⟩

/-- Rebuilds a layer with every part replaced, from left to right; the
replacement also sees how many binders stand between the layer and the part. -/
def traverse {m : Type → Type} [Monad m] (f : Nat → α → m β) : Node α → m (Node β)
  | global i => pure (global i)
  | constant i ty none => do return constant i (← f 0 ty) none
  | constant i ty (some b) => do
      let ty ← f 0 ty
      return constant i ty (some (← f 0 b))
  | free x ty => do return free x (← f 0 ty)
  | bound i => pure (bound i)
  | sort l fl => pure (sort l fl)
  | nat n => pure (nat n)
  | string s => pure (string s)
  | bool b => pure (bool b)
  | unit => pure unit
  | unitType => pure unitType
  | app a b => do
      let a ← f 0 a
      return app a (← f 0 b)
  | pair a b => do
      let a ← f 0 a
      return pair a (← f 0 b)
  | pairType a b => do
      let a ← f 0 a
      return pairType a (← f 0 b)
  | pairLeft a => do return pairLeft (← f 0 a)
  | pairRight a => do return pairRight (← f 0 a)
  | recordType fs => do
      return recordType (← fs.mapM fun p => do return (p.1, ← f 0 p.2))
  | record fs => do
      return record (← fs.mapM fun p => do return (p.1, ← f 0 p.2))
  | proj a field => do return proj (← f 0 a) field
  | array ty es => do
      let ty ← f 0 ty
      return array ty (← es.mapM (f 0))
  | data i ps xs => do
      let ps ← ps.mapM (f 0)
      return data i ps (← xs.mapM (f 0))
  | ctor i ps xs => do
      let ps ← ps.mapM (f 0)
      return ctor i ps (← xs.mapM (f 0))
  | recursor i ps mo order cs => do
      let ps ← ps.mapM (f 0)
      let mo ← f 0 mo
      return recursor i ps mo order (← cs.mapM fun p => do return (p.1, ← f 0 p.2))
  | lam x ty b => do
      let ty ← f 0 ty
      return lam x ty (← f 1 b)
  | pi x ty b => do
      let ty ← f 0 ty
      return pi x ty (← f 1 b)
  | letIn x ty v b => do
      let ty ← f 0 ty
      let v ← f 0 v
      return letIn x ty v (← f 1 b)
  | fix x ty b => do
      let ty ← f 0 ty
      return fix x ty (← f 1 b)

/-- The parts of a layer from left to right, each with the number of binders
between it and the layer. -/
def childrenWithDepth : Node α → List (α × Nat)
  | global _ | bound _ | sort _ _ | nat _ | string _ | bool _ | unit | unitType => []
  | constant _ ty none => [(ty, 0)]
  | constant _ ty (some b) => [(ty, 0), (b, 0)]
  | free _ ty => [(ty, 0)]
  | app a b | pair a b | pairType a b => [(a, 0), (b, 0)]
  | pairLeft a | pairRight a | proj a _ => [(a, 0)]
  | recordType fs | record fs => fs.map fun p => (p.2, 0)
  | array ty es => (ty, 0) :: es.map (·, 0)
  | data _ ps xs | ctor _ ps xs => ps.map (·, 0) ++ xs.map (·, 0)
  | recursor _ ps mo _ cs => ps.map (·, 0) ++ (mo, 0) :: cs.map fun p => (p.2, 0)
  | lam _ ty b | pi _ ty b | fix _ ty b => [(ty, 0), (b, 1)]
  | letIn _ ty v b => [(ty, 0), (v, 0), (b, 1)]

/-- The parts of a layer from left to right. -/
def children (n : Node α) : List α :=
  n.childrenWithDepth.map (·.1)

/-- Rebuilds a layer with every part replaced. -/
def map (f : Nat → α → β) (n : Node α) : Node β :=
  Id.run (n.traverse fun d a => pure (f d a))

/-- The layer without its parts. -/
def shape (n : Node α) : Node Unit :=
  n.map fun _ _ => ()

/-- Leaves and named heads: cheaper to repeat than to name. -/
def isTrivial : Node α → Bool
  | global _ | constant _ _ _ | free _ _ | bound _ | sort _ _ | nat _
  | string _ | bool _ | unit | unitType => true
  | _ => false

end Node

end TermGraph
