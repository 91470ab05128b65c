import Mathlib
import TermGraph.Target.Expr

/-!
# Resolving the identifiers of an expression

An identifier refers to the innermost enclosing binder of its name, and to
something outside the expression where no enclosing binder has its name.
`Expr.resolve` carries this out: it replaces every reference to a binder by the
number of named binders that stand between the two, and drops the names of
binders.

Resolved expressions take one argument and one binder at a time.  Two
expressions therefore have the same resolved form exactly when they agree up to
the names of their binders and up to the grouping of directly nested
applications, functions, function types and bindings.
-/

namespace TermGraph

namespace Target

/-- An expression whose identifiers have been resolved. -/
inductive Resolved where
  /-- A named binder around this place, the innermost one being number zero. -/
  | bound (index : Nat)
  /-- A name that no binder around this place has. -/
  | free (name : String)
  /-- A reference whose implicit arguments are all given. -/
  | explicit (reference : Resolved)
  | app (fn arg : Resolved)
  | lam (implicit : Bool) (type body : Resolved)
  | pi (implicit : Bool) (type body : Resolved)
  /-- A function type whose binder has no name. -/
  | arrow (implicit : Bool) (source target : Resolved)
  | letIn (value body : Resolved)
  | typedLet (type value body : Resolved)
  | ite (cond onTrue onFalse : Resolved)
  | sort (level : Nat)
  | nat (value : Nat)
  | string (value : String)
  | nil
  | cons (head tail : Resolved)
  | ascription (expr type : Resolved)
  deriving DecidableEq, Repr

instance : Inhabited Resolved :=
  ⟨.sort 0⟩

namespace Resolved

/-- Applies a resolved expression to arguments, one after the other. -/
def applyAll (fn : Resolved) (args : List Resolved) : Resolved :=
  args.foldl app fn

/-- A list of resolved expressions. -/
def ofList (elems : List Resolved) : Resolved :=
  elems.foldr cons nil

@[simp] theorem applyAll_nil (fn : Resolved) : applyAll fn [] = fn := rfl

@[simp] theorem applyAll_cons (fn a : Resolved) (args : List Resolved) :
    applyAll fn (a :: args) = applyAll (app fn a) args := rfl

theorem applyAll_append (fn : Resolved) (front back : List Resolved) :
    applyAll fn (front ++ back) = applyAll (applyAll fn front) back :=
  List.foldl_append

end Resolved

/-- What an identifier refers to under binders of the given names, innermost
first. -/
def resolveName (names : List String) (x : String) : Resolved :=
  match names.idxOf? x with
  | some i => .bound i
  | none => .free x

namespace Expr

mutual

/-- The expression with its identifiers resolved, under binders of the given
names, innermost first. -/
def resolve (names : List String) : Expr → Resolved
  | var x => resolveName names x
  | explicitVar x => .explicit (resolveName names x)
  | app fn args => (resolve names fn).applyAll (resolveList names args)
  | lam binders body => resolveBinders names (fun names => resolve names body) binders
  | pi binders body => resolvePiBinders names (fun names => resolve names body) binders
  | letIn bindings body => resolveBindings names (fun names => resolve names body) bindings
  | ite c t e => .ite (resolve names c) (resolve names t) (resolve names e)
  | sort level => .sort level
  | nat n => .nat n
  | string s => .string s
  | list elems => .ofList (resolveList names elems)
  | ascription e ty => .ascription (resolve names e) (resolve names ty)

/-- `resolve` of several expressions. -/
def resolveList (names : List String) : List Expr → List Resolved
  | [] => []
  | e :: rest => resolve names e :: resolveList names rest

/-- `resolve` of binders of a function around what follows them. -/
def resolveBinders (names : List String) (inner : List String → Resolved) :
    List (Binder Expr) → Resolved
  | [] => inner names
  | ⟨x, ty, implicit⟩ :: rest =>
      .lam implicit (resolve names ty) (resolveBinders (x :: names) inner rest)

/-- `resolve` of binders of a function type around what follows them. -/
def resolvePiBinders (names : List String) (inner : List String → Resolved) :
    List (PiBinder Expr) → Resolved
  | [] => inner names
  | ⟨none, ty, implicit⟩ :: rest =>
      .arrow implicit (resolve names ty) (resolvePiBinders names inner rest)
  | ⟨some x, ty, implicit⟩ :: rest =>
      .pi implicit (resolve names ty) (resolvePiBinders (x :: names) inner rest)

/-- `resolve` of bindings around what follows them. -/
def resolveBindings (names : List String) (inner : List String → Resolved) :
    List (Binding Expr) → Resolved
  | [] => inner names
  | ⟨x, none, v⟩ :: rest =>
      .letIn (resolve names v) (resolveBindings (x :: names) inner rest)
  | ⟨x, some ty, v⟩ :: rest =>
      .typedLet (resolve names ty) (resolve names v)
        (resolveBindings (x :: names) inner rest)

end

mutual

/-- Whether something holds of every identifier and of every binder name, each
under the names of the binders around it, innermost first. -/
def Everywhere (onName onBinder : List String → String → Prop) (names : List String) :
    Expr → Prop
  | var x | explicitVar x => onName names x
  | app fn args =>
      Everywhere onName onBinder names fn ∧ EverywhereList onName onBinder names args
  | lam binders body =>
      EverywhereBinders onName onBinder names
        (fun names => Everywhere onName onBinder names body) binders
  | pi binders body =>
      EverywherePiBinders onName onBinder names
        (fun names => Everywhere onName onBinder names body) binders
  | letIn bindings body =>
      EverywhereBindings onName onBinder names
        (fun names => Everywhere onName onBinder names body) bindings
  | ite c t e =>
      Everywhere onName onBinder names c ∧ Everywhere onName onBinder names t ∧
        Everywhere onName onBinder names e
  | sort _ | nat _ | string _ => True
  | list elems => EverywhereList onName onBinder names elems
  | ascription e ty =>
      Everywhere onName onBinder names e ∧ Everywhere onName onBinder names ty

/-- `Everywhere` in several expressions. -/
def EverywhereList (onName onBinder : List String → String → Prop) (names : List String) :
    List Expr → Prop
  | [] => True
  | e :: rest =>
      Everywhere onName onBinder names e ∧ EverywhereList onName onBinder names rest

/-- `Everywhere` in binders of a function and in what follows them. -/
def EverywhereBinders (onName onBinder : List String → String → Prop) (names : List String)
    (inner : List String → Prop) : List (Binder Expr) → Prop
  | [] => inner names
  | ⟨x, ty, _⟩ :: rest =>
      Everywhere onName onBinder names ty ∧ onBinder names x ∧
        EverywhereBinders onName onBinder (x :: names) inner rest

/-- `Everywhere` in binders of a function type and in what follows them. -/
def EverywherePiBinders (onName onBinder : List String → String → Prop)
    (names : List String) (inner : List String → Prop) : List (PiBinder Expr) → Prop
  | [] => inner names
  | ⟨none, ty, _⟩ :: rest =>
      Everywhere onName onBinder names ty ∧
        EverywherePiBinders onName onBinder names inner rest
  | ⟨some x, ty, _⟩ :: rest =>
      Everywhere onName onBinder names ty ∧ onBinder names x ∧
        EverywherePiBinders onName onBinder (x :: names) inner rest

/-- `Everywhere` in bindings and in what follows them. -/
def EverywhereBindings (onName onBinder : List String → String → Prop)
    (names : List String) (inner : List String → Prop) : List (Binding Expr) → Prop
  | [] => inner names
  | ⟨x, none, v⟩ :: rest =>
      Everywhere onName onBinder names v ∧ onBinder names x ∧
        EverywhereBindings onName onBinder (x :: names) inner rest
  | ⟨x, some ty, v⟩ :: rest =>
      Everywhere onName onBinder names ty ∧ Everywhere onName onBinder names v ∧
        onBinder names x ∧ EverywhereBindings onName onBinder (x :: names) inner rest

end

mutual

/-- What holds everywhere may be weakened. -/
theorem Everywhere.imp {A A' B B' : List String → String → Prop}
    (hA : ∀ names x, A names x → A' names x) (hB : ∀ names x, B names x → B' names x)
    {names : List String} : (e : Expr) → e.Everywhere A B names → e.Everywhere A' B' names
  | var _, h | explicitVar _, h => hA _ _ h
  | app fn args, h => ⟨Everywhere.imp hA hB fn h.1, EverywhereList.imp hA hB args h.2⟩
  | lam binders body, h =>
      EverywhereBinders.imp hA hB (fun h => Everywhere.imp hA hB body h) binders h
  | pi binders body, h =>
      EverywherePiBinders.imp hA hB (fun h => Everywhere.imp hA hB body h) binders h
  | letIn bindings body, h =>
      EverywhereBindings.imp hA hB (fun h => Everywhere.imp hA hB body h) bindings h
  | ite c t e, h =>
      ⟨Everywhere.imp hA hB c h.1, Everywhere.imp hA hB t h.2.1, Everywhere.imp hA hB e h.2.2⟩
  | sort _, _ | nat _, _ | string _, _ => trivial
  | list elems, h => EverywhereList.imp hA hB elems h
  | ascription e ty, h => ⟨Everywhere.imp hA hB e h.1, Everywhere.imp hA hB ty h.2⟩

/-- `Everywhere.imp` in several expressions. -/
theorem EverywhereList.imp {A A' B B' : List String → String → Prop}
    (hA : ∀ names x, A names x → A' names x) (hB : ∀ names x, B names x → B' names x)
    {names : List String} :
    (es : List Expr) → EverywhereList A B names es → EverywhereList A' B' names es
  | [], _ => trivial
  | e :: rest, h => ⟨Everywhere.imp hA hB e h.1, EverywhereList.imp hA hB rest h.2⟩

/-- `Everywhere.imp` in binders of a function. -/
theorem EverywhereBinders.imp {A A' B B' : List String → String → Prop}
    (hA : ∀ names x, A names x → A' names x) (hB : ∀ names x, B names x → B' names x)
    {names : List String} {inner inner' : List String → Prop}
    (hinner : ∀ {names}, inner names → inner' names) :
    (bs : List (Binder Expr)) → EverywhereBinders A B names inner bs →
      EverywhereBinders A' B' names inner' bs
  | [], h => hinner h
  | ⟨_, ty, _⟩ :: rest, h =>
      ⟨Everywhere.imp hA hB ty h.1, hB _ _ h.2.1, EverywhereBinders.imp hA hB hinner rest h.2.2⟩

/-- `Everywhere.imp` in binders of a function type. -/
theorem EverywherePiBinders.imp {A A' B B' : List String → String → Prop}
    (hA : ∀ names x, A names x → A' names x) (hB : ∀ names x, B names x → B' names x)
    {names : List String} {inner inner' : List String → Prop}
    (hinner : ∀ {names}, inner names → inner' names) :
    (bs : List (PiBinder Expr)) → EverywherePiBinders A B names inner bs →
      EverywherePiBinders A' B' names inner' bs
  | [], h => hinner h
  | ⟨none, ty, _⟩ :: rest, h =>
      ⟨Everywhere.imp hA hB ty h.1, EverywherePiBinders.imp hA hB hinner rest h.2⟩
  | ⟨some _, ty, _⟩ :: rest, h =>
      ⟨Everywhere.imp hA hB ty h.1, hB _ _ h.2.1,
        EverywherePiBinders.imp hA hB hinner rest h.2.2⟩

/-- `Everywhere.imp` in bindings. -/
theorem EverywhereBindings.imp {A A' B B' : List String → String → Prop}
    (hA : ∀ names x, A names x → A' names x) (hB : ∀ names x, B names x → B' names x)
    {names : List String} {inner inner' : List String → Prop}
    (hinner : ∀ {names}, inner names → inner' names) :
    (bs : List (Binding Expr)) → EverywhereBindings A B names inner bs →
      EverywhereBindings A' B' names inner' bs
  | [], h => hinner h
  | ⟨_, none, v⟩ :: rest, h =>
      ⟨Everywhere.imp hA hB v h.1, hB _ _ h.2.1,
        EverywhereBindings.imp hA hB hinner rest h.2.2⟩
  | ⟨_, some ty, v⟩ :: rest, h =>
      ⟨Everywhere.imp hA hB ty h.1, Everywhere.imp hA hB v h.2.1, hB _ _ h.2.2.1,
        EverywhereBindings.imp hA hB hinner rest h.2.2.2⟩

end

mutual

/-- What holds of the root of every reference holds of every identifier. -/
theorem everywhere_of_roots {Q : String → Prop} {B : List String → String → Prop}
    {names : List String} :
    (e : Expr) → (∀ r ∈ e.roots, Q r) → e.Everywhere (fun _ _ => True) B names →
      e.Everywhere (fun _ x => Q (rootOf x)) B names
  | var x, hQ, _ | explicitVar x, hQ, _ => hQ (rootOf x) (by simp [roots])
  | app fn args, hQ, h =>
      ⟨everywhere_of_roots fn (fun r hr => hQ r (by simp [roots, hr])) h.1,
        everywhereList_of_roots args (fun r hr => hQ r (by simp [roots, hr])) h.2⟩
  | lam binders body, hQ, h =>
      everywhereBinders_of_roots
        (fun h => everywhere_of_roots body (fun r hr => hQ r (by simp [roots, hr])) h)
        binders (fun r hr => hQ r (by simp [roots, hr])) h
  | pi binders body, hQ, h =>
      everywherePiBinders_of_roots
        (fun h => everywhere_of_roots body (fun r hr => hQ r (by simp [roots, hr])) h)
        binders (fun r hr => hQ r (by simp [roots, hr])) h
  | letIn bindings body, hQ, h =>
      everywhereBindings_of_roots
        (fun h => everywhere_of_roots body (fun r hr => hQ r (by simp [roots, hr])) h)
        bindings (fun r hr => hQ r (by simp [roots, hr])) h
  | ite c t e, hQ, h =>
      ⟨everywhere_of_roots c (fun r hr => hQ r (by simp [roots, hr])) h.1,
        everywhere_of_roots t (fun r hr => hQ r (by simp [roots, hr])) h.2.1,
        everywhere_of_roots e (fun r hr => hQ r (by simp [roots, hr])) h.2.2⟩
  | sort _, _, _ | nat _, _, _ | string _, _, _ => trivial
  | list elems, hQ, h =>
      everywhereList_of_roots elems (fun r hr => hQ r (by simp [roots, hr])) h
  | ascription e ty, hQ, h =>
      ⟨everywhere_of_roots e (fun r hr => hQ r (by simp [roots, hr])) h.1,
        everywhere_of_roots ty (fun r hr => hQ r (by simp [roots, hr])) h.2⟩

/-- `everywhere_of_roots` in several expressions. -/
theorem everywhereList_of_roots {Q : String → Prop} {B : List String → String → Prop}
    {names : List String} :
    (es : List Expr) → (∀ r ∈ rootsList es, Q r) →
      EverywhereList (fun _ _ => True) B names es →
      EverywhereList (fun _ x => Q (rootOf x)) B names es
  | [], _, _ => trivial
  | e :: rest, hQ, h =>
      ⟨everywhere_of_roots e (fun r hr => hQ r (by simp [rootsList, hr])) h.1,
        everywhereList_of_roots rest (fun r hr => hQ r (by simp [rootsList, hr])) h.2⟩

/-- `everywhere_of_roots` in binders of a function. -/
theorem everywhereBinders_of_roots {Q : String → Prop} {B : List String → String → Prop}
    {names : List String} {inner inner' : List String → Prop}
    (hinner : ∀ {names}, inner names → inner' names) :
    (bs : List (Binder Expr)) → (∀ r ∈ rootsBinders bs, Q r) →
      EverywhereBinders (fun _ _ => True) B names inner bs →
      EverywhereBinders (fun _ x => Q (rootOf x)) B names inner' bs
  | [], _, h => hinner h
  | ⟨_, ty, _⟩ :: rest, hQ, h =>
      ⟨everywhere_of_roots ty (fun r hr => hQ r (by simp [rootsBinders, hr])) h.1, h.2.1,
        everywhereBinders_of_roots hinner rest
          (fun r hr => hQ r (by simp [rootsBinders, hr])) h.2.2⟩

/-- `everywhere_of_roots` in binders of a function type. -/
theorem everywherePiBinders_of_roots {Q : String → Prop}
    {B : List String → String → Prop} {names : List String}
    {inner inner' : List String → Prop} (hinner : ∀ {names}, inner names → inner' names) :
    (bs : List (PiBinder Expr)) → (∀ r ∈ rootsPiBinders bs, Q r) →
      EverywherePiBinders (fun _ _ => True) B names inner bs →
      EverywherePiBinders (fun _ x => Q (rootOf x)) B names inner' bs
  | [], _, h => hinner h
  | ⟨none, ty, _⟩ :: rest, hQ, h =>
      ⟨everywhere_of_roots ty (fun r hr => hQ r (by simp [rootsPiBinders, hr])) h.1,
        everywherePiBinders_of_roots hinner rest
          (fun r hr => hQ r (by simp [rootsPiBinders, hr])) h.2⟩
  | ⟨some _, ty, _⟩ :: rest, hQ, h =>
      ⟨everywhere_of_roots ty (fun r hr => hQ r (by simp [rootsPiBinders, hr])) h.1, h.2.1,
        everywherePiBinders_of_roots hinner rest
          (fun r hr => hQ r (by simp [rootsPiBinders, hr])) h.2.2⟩

/-- `everywhere_of_roots` in bindings. -/
theorem everywhereBindings_of_roots {Q : String → Prop}
    {B : List String → String → Prop} {names : List String}
    {inner inner' : List String → Prop} (hinner : ∀ {names}, inner names → inner' names) :
    (bs : List (Binding Expr)) → (∀ r ∈ rootsBindings bs, Q r) →
      EverywhereBindings (fun _ _ => True) B names inner bs →
      EverywhereBindings (fun _ x => Q (rootOf x)) B names inner' bs
  | [], _, h => hinner h
  | ⟨_, none, v⟩ :: rest, hQ, h =>
      ⟨everywhere_of_roots v (fun r hr => hQ r (by simp [rootsBindings, hr])) h.1, h.2.1,
        everywhereBindings_of_roots hinner rest
          (fun r hr => hQ r (by simp [rootsBindings, hr])) h.2.2⟩
  | ⟨_, some ty, v⟩ :: rest, hQ, h =>
      ⟨everywhere_of_roots ty (fun r hr => hQ r (by simp [rootsBindings, hr])) h.1,
        everywhere_of_roots v (fun r hr => hQ r (by simp [rootsBindings, hr])) h.2.1, h.2.2.1,
        everywhereBindings_of_roots hinner rest
          (fun r hr => hQ r (by simp [rootsBindings, hr])) h.2.2.2⟩

end

/-- No binder has the name of a binder around it. -/
def Unshadowed (names : List String) (e : Expr) : Prop :=
  e.Everywhere (fun _ _ => True) (fun names x => x ∉ names) names

/-- An identifier that is not the name of a binder around it does not start with
such a name and a dot either. -/
def Uncaptured (names : List String) (e : Expr) : Prop :=
  e.Everywhere (fun names x => x ∈ names ∨ rootOf x ∉ names) (fun _ _ => True) names

end Expr

/-- The expression that a declaration consists of, its parameters being binders
of a function and its type an ascription; a text has none. -/
def Decl.content? : Decl → Option Expr
  | definition _ params (some ty) body => some (.lam params (.ascription body ty))
  | definition _ params none body => some (.lam params body)
  | postulate _ ty => some ty
  | snippet _ | comment _ => none

/-! ## Reading an expression

`Reads P names e r` collects what is proved of an expression `e` under binders of
the given names: `r` is its resolved form, no binder has the name of one around
it, and `P` holds of every identifier. -/

section Reads

open TermGraph.Target.Expr

variable {P : List String → String → Prop} {names : List String}

theorem resolveName_of_getElem? (hnodup : names.Nodup) {i : Nat} {x : String}
    (h : names[i]? = some x) : resolveName names x = .bound i := by
  obtain ⟨hi, hx⟩ := List.getElem?_eq_some_iff.mp h
  have hidx : names.idxOf? x = some i := by
    rw [List.idxOf?, List.findIdx?_eq_some_iff_getElem]
    refine ⟨hi, by simp [hx], ?_⟩
    intro j hj hjx
    have hji : j = i :=
      (List.Nodup.getElem_inj_iff hnodup).mp (by rw [hx]; exact eq_of_beq hjx)
    omega
  rw [resolveName, hidx]

theorem resolveName_of_not_mem {x : String} (h : x ∉ names) :
    resolveName names x = .free x := by
  have hidx : names.idxOf? x = none := by
    rw [List.idxOf?, List.findIdx?_eq_none_iff]
    intro y hy
    exact beq_eq_false_iff_ne.mpr (fun hyx => h (hyx ▸ hy))
  rw [resolveName, hidx]

/-- What is read off an expression under binders of the given names. -/
structure Reads (P : List String → String → Prop) (names : List String) (e : Expr)
    (r : Resolved) : Prop where
  resolve_eq : e.resolve names = r
  everywhere : e.Everywhere P (fun names x => x ∉ names) names

/-- What is read off an expression is a resolved form that there has to be. -/
def ReadsAs (P : List String → String → Prop) (names : List String) (e : Expr)
    (r? : Option Resolved) : Prop :=
  ∃ r, r? = some r ∧ Reads P names e r

theorem reads_bound (hnodup : names.Nodup) {i : Nat} {x : String}
    (h : names[i]? = some x) (hP : P names x) : Reads P names (.var x) (.bound i) :=
  ⟨resolveName_of_getElem? hnodup h, hP⟩

theorem reads_free {x : String} (h : x ∉ names ∧ P names x) :
    Reads P names (.var x) (.free x) :=
  ⟨resolveName_of_not_mem h.1, h.2⟩

theorem reads_explicit_free {x : String} (h : x ∉ names ∧ P names x) :
    Reads P names (.explicitVar x) (.explicit (.free x)) :=
  ⟨by rw [Expr.resolve, resolveName_of_not_mem h.1], h.2⟩

theorem reads_sort (level : Nat) : Reads P names (.sort level) (.sort level) :=
  ⟨rfl, trivial⟩

theorem reads_nat (n : Nat) : Reads P names (.nat n) (.nat n) :=
  ⟨rfl, trivial⟩

theorem reads_string (t : String) : Reads P names (.string t) (.string t) :=
  ⟨rfl, trivial⟩

theorem resolveList_eq_map (es : List Expr) :
    resolveList names es = es.map (resolve names) := by
  induction es with
  | nil => rfl
  | cons e es ih => simp only [resolveList, List.map_cons, ih]

theorem everywhereList_iff {onName onBinder : List String → String → Prop}
    (es : List Expr) :
    EverywhereList onName onBinder names es ↔
      ∀ e ∈ es, Everywhere onName onBinder names e := by
  induction es with
  | nil => simp [EverywhereList]
  | cons e es ih => simp [EverywhereList, ih]

theorem resolveList_of_reads {es : List Expr} {rs : List Resolved}
    (h : List.Forall₂ (Reads P names) es rs) : resolveList names es = rs := by
  induction h with
  | nil => rfl
  | cons he _ ih => rw [resolveList, he.resolve_eq, ih]

theorem everywhereList_of_reads {es : List Expr} {rs : List Resolved}
    (h : List.Forall₂ (Reads P names) es rs) :
    EverywhereList P (fun names x => x ∉ names) names es := by
  induction h with
  | nil => trivial
  | cons he _ ih => exact ⟨he.everywhere, ih⟩

theorem reads_app {fn : Expr} {r : Resolved} {args : List Expr} {rs : List Resolved}
    (hfn : Reads P names fn r) (hargs : List.Forall₂ (Reads P names) args rs) :
    Reads P names (.app fn args) (r.applyAll rs) :=
  ⟨by rw [Expr.resolve, hfn.resolve_eq, resolveList_of_reads hargs],
    hfn.everywhere, everywhereList_of_reads hargs⟩

/-- Merging an application into the one in its head changes no reference. -/
theorem resolve_mkApp (fn : Expr) (args : List Expr) :
    (Expr.mkApp fn args).resolve names = (Expr.app fn args).resolve names := by
  unfold Expr.mkApp
  cases args with
  | nil => simp [Expr.resolve, resolveList]
  | cons a args =>
      cases fn with
      | app fn front =>
          simp only [List.isEmpty_cons, Bool.false_eq_true, if_false, Expr.resolve,
            resolveList_eq_map, List.map_append, Resolved.applyAll_append]
      | _ => rfl

theorem everywhere_mkApp {onName onBinder : List String → String → Prop} (fn : Expr)
    (args : List Expr) :
    (Expr.mkApp fn args).Everywhere onName onBinder names ↔
      (Expr.app fn args).Everywhere onName onBinder names := by
  unfold Expr.mkApp
  cases args with
  | nil => simp [Expr.Everywhere, EverywhereList]
  | cons a args =>
      cases fn with
      | app fn front =>
          simp only [List.isEmpty_cons, Bool.false_eq_true, if_false, Expr.Everywhere,
            everywhereList_iff, List.mem_append]
          constructor
          · rintro ⟨hfn, hall⟩
            exact ⟨⟨hfn, fun e he => hall e (Or.inl he)⟩, fun e he => hall e (Or.inr he)⟩
          · rintro ⟨⟨hfn, hfront⟩, hback⟩
            exact ⟨hfn, fun e he => he.elim (hfront e) (hback e)⟩
      | _ => rfl

theorem reads_mkApp {fn : Expr} {r : Resolved} {args : List Expr} {rs : List Resolved}
    (hfn : Reads P names fn r) (hargs : List.Forall₂ (Reads P names) args rs) :
    Reads P names (.mkApp fn args) (r.applyAll rs) :=
  ⟨(resolve_mkApp fn args).trans (reads_app hfn hargs).resolve_eq,
    (everywhere_mkApp fn args).mpr (reads_app hfn hargs).everywhere⟩

theorem reads_list {es : List Expr} {rs : List Resolved}
    (h : List.Forall₂ (Reads P names) es rs) :
    Reads P names (.list es) (.ofList rs) :=
  ⟨by rw [Expr.resolve, resolveList_of_reads h], everywhereList_of_reads h⟩

theorem reads_ite {c t e : Expr} {rc rt re : Resolved} (hc : Reads P names c rc)
    (ht : Reads P names t rt) (he : Reads P names e re) :
    Reads P names (.ite c t e) (.ite rc rt re) :=
  ⟨by rw [Expr.resolve, hc.resolve_eq, ht.resolve_eq, he.resolve_eq],
    hc.everywhere, ht.everywhere, he.everywhere⟩

theorem reads_ascription {e ty : Expr} {r rty : Resolved} (he : Reads P names e r)
    (hty : Reads P names ty rty) : Reads P names (.ascription e ty) (.ascription r rty) :=
  ⟨by rw [Expr.resolve, he.resolve_eq, hty.resolve_eq], he.everywhere, hty.everywhere⟩

theorem reads_lam_nil {body : Expr} {r : Resolved} (h : Reads P names body r) :
    Reads P names (.lam [] body) r :=
  ⟨h.resolve_eq, h.everywhere⟩

theorem reads_lam_cons {x : String} {ty body : Expr} {implicit : Bool}
    {rest : List (Binder Expr)} {rty r : Resolved} (hty : Reads P names ty rty)
    (hx : x ∉ names) (hrest : Reads P (x :: names) (.lam rest body) r) :
    Reads P names (.lam (⟨x, ty, implicit⟩ :: rest) body) (.lam implicit rty r) :=
  ⟨congrArg₂ (Resolved.lam implicit) hty.resolve_eq hrest.resolve_eq,
    hty.everywhere, hx, hrest.everywhere⟩

theorem reads_pi_nil {body : Expr} {r : Resolved} (h : Reads P names body r) :
    Reads P names (.pi [] body) r :=
  ⟨h.resolve_eq, h.everywhere⟩

theorem reads_pi_cons {x : String} {ty body : Expr} {implicit : Bool}
    {rest : List (PiBinder Expr)} {rty r : Resolved} (hty : Reads P names ty rty)
    (hx : x ∉ names) (hrest : Reads P (x :: names) (.pi rest body) r) :
    Reads P names (.pi (⟨some x, ty, implicit⟩ :: rest) body) (.pi implicit rty r) :=
  ⟨congrArg₂ (Resolved.pi implicit) hty.resolve_eq hrest.resolve_eq,
    hty.everywhere, hx, hrest.everywhere⟩

theorem reads_arrow {ty body : Expr} {implicit : Bool} {rest : List (PiBinder Expr)}
    {rty r : Resolved} (hty : Reads P names ty rty)
    (hrest : Reads P names (.pi rest body) r) :
    Reads P names (.pi (⟨none, ty, implicit⟩ :: rest) body) (.arrow implicit rty r) :=
  ⟨congrArg₂ (Resolved.arrow implicit) hty.resolve_eq hrest.resolve_eq,
    hty.everywhere, hrest.everywhere⟩

theorem reads_letIn_nil {body : Expr} {r : Resolved} (h : Reads P names body r) :
    Reads P names (.letIn [] body) r :=
  ⟨h.resolve_eq, h.everywhere⟩

theorem reads_letIn_cons {x : String} {v body : Expr} {rest : List (Binding Expr)}
    {rv r : Resolved} (hv : Reads P names v rv) (hx : x ∉ names)
    (hrest : Reads P (x :: names) (.letIn rest body) r) :
    Reads P names (.letIn (⟨x, none, v⟩ :: rest) body) (.letIn rv r) :=
  ⟨congrArg₂ Resolved.letIn hv.resolve_eq hrest.resolve_eq,
    hv.everywhere, hx, hrest.everywhere⟩

theorem reads_typedLet_cons {x : String} {ty v body : Expr} {rest : List (Binding Expr)}
    {rty rv r : Resolved} (hty : Reads P names ty rty) (hv : Reads P names v rv)
    (hx : x ∉ names) (hrest : Reads P (x :: names) (.letIn rest body) r) :
    Reads P names (.letIn (⟨x, some ty, v⟩ :: rest) body) (.typedLet rty rv r) := by
  refine ⟨?_, hty.everywhere, hv.everywhere, hx, hrest.everywhere⟩
  rw [← hty.resolve_eq, ← hv.resolve_eq, ← hrest.resolve_eq]
  rfl

theorem everywhere_mkLet {onName onBinder : List String → String → Prop}
    (bindings : List (Binding Expr)) (body : Expr) :
    (Expr.mkLet bindings body).Everywhere onName onBinder names ↔
      (Expr.letIn bindings body).Everywhere onName onBinder names := by
  unfold Expr.mkLet
  cases bindings with
  | nil => rfl
  | cons b rest => rfl

/-- Leaving out an empty list of bindings changes no reference. -/
theorem reads_mkLet {bindings : List (Binding Expr)} {body : Expr} {r : Resolved}
    (h : Reads P names (.letIn bindings body) r) : Reads P names (.mkLet bindings body) r := by
  unfold Expr.mkLet
  cases bindings with
  | nil => exact ⟨h.resolve_eq, h.everywhere⟩
  | cons b rest => exact h

end Reads

end Target

end TermGraph
