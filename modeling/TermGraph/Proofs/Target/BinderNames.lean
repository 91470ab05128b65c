import Mathlib
import TermGraph.Target.Template

/-!
# Names of binders

An expression is put together from names, literals, binders and instances of templates.
`Expr.Written` says so, and asks something of the name of each binder that is not part of
a template.  Nothing is known of the names that the templates bind themselves, but no
others occur: a binder in an instance is one of the template or one of an argument.
-/

namespace TermGraph

namespace Target

namespace Expr

mutual

/-- The names of all binders of an expression, in order. -/
def binderNames : Expr → List String
  | var _ | explicitVar _ | sort _ | nat _ | string _ => []
  | app fn args => binderNames fn ++ binderNamesList args
  | lam binders body => binderNamesBinders binders ++ binderNames body
  | pi binders body => binderNamesPiBinders binders ++ binderNames body
  | letIn bindings body => binderNamesBindings bindings ++ binderNames body
  | ite c t e => binderNames c ++ binderNames t ++ binderNames e
  | list elems => binderNamesList elems
  | ascription e ty => binderNames e ++ binderNames ty

/-- `binderNames` of several expressions. -/
def binderNamesList : List Expr → List String
  | [] => []
  | e :: rest => binderNames e ++ binderNamesList rest

/-- `binderNames` of binders and their types. -/
def binderNamesBinders : List (Binder Expr) → List String
  | [] => []
  | ⟨x, ty, _⟩ :: rest => x :: binderNames ty ++ binderNamesBinders rest

/-- `binderNames` of the binders of a function type and their types. -/
def binderNamesPiBinders : List (PiBinder Expr) → List String
  | [] => []
  | ⟨x?, ty, _⟩ :: rest => x?.toList ++ binderNames ty ++ binderNamesPiBinders rest

/-- `binderNames` of bindings, their types and their values. -/
def binderNamesBindings : List (Binding Expr) → List String
  | [] => []
  | ⟨x, none, v⟩ :: rest => x :: binderNames v ++ binderNamesBindings rest
  | ⟨x, some ty, v⟩ :: rest =>
      x :: binderNames ty ++ binderNames v ++ binderNamesBindings rest

end

section Names

variable {x : String}

theorem mem_binderNamesList {es : List Expr} :
    x ∈ binderNamesList es ↔ ∃ e ∈ es, x ∈ e.binderNames := by
  induction es with
  | nil => simp [binderNamesList]
  | cons e rest ih => simp [binderNamesList, ih]

theorem mem_binderNamesBinders {bs : List (Binder Expr)} :
    x ∈ binderNamesBinders bs ↔ ∃ b ∈ bs, x = b.name ∨ x ∈ b.type.binderNames := by
  induction bs with
  | nil => simp [binderNamesBinders]
  | cons b rest ih => simp [binderNamesBinders, ih, or_assoc]

theorem mem_binderNamesPiBinders {bs : List (PiBinder Expr)} :
    x ∈ binderNamesPiBinders bs ↔ ∃ b ∈ bs, b.name = some x ∨ x ∈ b.type.binderNames := by
  induction bs with
  | nil => simp [binderNamesPiBinders]
  | cons b rest ih => simp [binderNamesPiBinders, ih, or_assoc]

theorem mem_binderNamesBindings {bs : List (Binding Expr)} :
    x ∈ binderNamesBindings bs ↔ ∃ b ∈ bs, x = b.name ∨
      (∃ ty, b.type = some ty ∧ x ∈ ty.binderNames) ∨ x ∈ b.value.binderNames := by
  induction bs with
  | nil => simp [binderNamesBindings]
  | cons b rest ih =>
      obtain ⟨y, type, v⟩ := b
      cases type <;> simp [binderNamesBindings, ih, or_assoc]

end Names

theorem binderNamesList_append (front back : List Expr) :
    binderNamesList (front ++ back) = binderNamesList front ++ binderNamesList back := by
  induction front with
  | nil => rfl
  | cons e rest ih => simp [binderNamesList, ih]

theorem binderNames_mkApp (fn : Expr) (args : List Expr) :
    (mkApp fn args).binderNames = fn.binderNames ++ binderNamesList args := by
  cases args with
  | nil => simp [mkApp, binderNamesList]
  | cons a rest =>
      cases fn with
      | app fn front => simp [mkApp, binderNames, binderNamesList_append]
      | _ => rfl

theorem binderNames_mkLet (bindings : List (Binding Expr)) (body : Expr) :
    (mkLet bindings body).binderNames = binderNamesBindings bindings ++ body.binderNames := by
  cases bindings <;> rfl

end Expr

/-! ## Instances of templates -/

namespace Template

/-- The names that a template binds. -/
def binderNames (t : Template) : List String :=
  (t.instantiate []).binderNames

open TermGraph.Target.Expr

variable {x : String}

/-- What is in one of two lists stays there, or something else holds. -/
theorem mem_append_or {front back front' back' : List String} {P : Prop}
    (hfront : x ∈ front → x ∈ front' ∨ P) (hback : x ∈ back → x ∈ back' ∨ P)
    (h : x ∈ front ++ back) : x ∈ front' ++ back' ∨ P := by
  rcases List.mem_append.mp h with h | h
  · exact (hfront h).imp_left (List.mem_append_left _)
  · exact (hback h).imp_left (List.mem_append_right _)

theorem mem_cons_or {y : String} {names names' : List String} {P : Prop}
    (hnames : x ∈ names → x ∈ names' ∨ P) (h : x ∈ y :: names) : x ∈ y :: names' ∨ P := by
  rcases List.mem_cons.mp h with rfl | h
  · exact Or.inl List.mem_cons_self
  · exact (hnames h).imp_left (List.mem_cons_of_mem y)

section Instances

variable {args : List Expr}

mutual

/-- A binder in an instance is one of the template, or one of an argument. -/
theorem mem_binderNames_instantiate : (t : Template) →
    x ∈ (t.instantiate args).binderNames →
      x ∈ (t.instantiate []).binderNames ∨ ∃ a ∈ args, x ∈ a.binderNames
  | hole i, h => by
      by_cases hi : i < args.length
      · rw [instantiate, List.getD_eq_getElem _ _ hi] at h
        exact Or.inr ⟨args[i], List.getElem_mem hi, h⟩
      · rw [instantiate, List.getD_eq_default _ _ (Nat.le_of_not_lt hi)] at h
        cases h
  | var _, h | explicitVar _, h | sort _, h | nat _, h | string _, h => Or.inl h
  | app fn ts, h =>
      mem_append_or (mem_binderNames_instantiate fn) (mem_binderNames_instantiateList ts) h
  | mergedApp fn ts, h => by
      rw [instantiate, binderNames_mkApp] at h ⊢
      exact mem_append_or (mem_binderNames_instantiate fn)
        (mem_binderNames_instantiateList ts) h
  | lam binders body, h =>
      mem_append_or (mem_binderNames_instantiateBinders binders)
        (mem_binderNames_instantiate body) h
  | pi binders body, h =>
      mem_append_or (mem_binderNames_instantiatePiBinders binders)
        (mem_binderNames_instantiate body) h
  | letIn bindings body, h =>
      mem_append_or (mem_binderNames_instantiateBindings bindings)
        (mem_binderNames_instantiate body) h
  | mergedLet bindings body, h => by
      rw [instantiate, binderNames_mkLet] at h ⊢
      exact mem_append_or (mem_binderNames_instantiateBindings bindings)
        (mem_binderNames_instantiate body) h
  | ite c t e, h =>
      mem_append_or
        (mem_append_or (mem_binderNames_instantiate c) (mem_binderNames_instantiate t))
        (mem_binderNames_instantiate e) h
  | list ts, h => mem_binderNames_instantiateList ts h
  | ascription e ty, h =>
      mem_append_or (mem_binderNames_instantiate e) (mem_binderNames_instantiate ty) h

/-- `mem_binderNames_instantiate` of several templates. -/
theorem mem_binderNames_instantiateList : (ts : List Template) →
    x ∈ binderNamesList (instantiateList args ts) →
      x ∈ binderNamesList (instantiateList [] ts) ∨ ∃ a ∈ args, x ∈ a.binderNames
  | [], h => Or.inl h
  | t :: rest, h =>
      mem_append_or (mem_binderNames_instantiate t) (mem_binderNames_instantiateList rest) h

/-- `mem_binderNames_instantiate` of binders. -/
theorem mem_binderNames_instantiateBinders : (bs : List (Binder Template)) →
    x ∈ binderNamesBinders (instantiateBinders args bs) →
      x ∈ binderNamesBinders (instantiateBinders [] bs) ∨ ∃ a ∈ args, x ∈ a.binderNames
  | [], h => Or.inl h
  | ⟨_, ty, _⟩ :: rest, h =>
      mem_append_or (mem_cons_or (mem_binderNames_instantiate ty))
        (mem_binderNames_instantiateBinders rest) h

/-- `mem_binderNames_instantiate` of binders of a function type. -/
theorem mem_binderNames_instantiatePiBinders : (bs : List (PiBinder Template)) →
    x ∈ binderNamesPiBinders (instantiatePiBinders args bs) →
      x ∈ binderNamesPiBinders (instantiatePiBinders [] bs) ∨ ∃ a ∈ args, x ∈ a.binderNames
  | [], h => Or.inl h
  | ⟨_, ty, _⟩ :: rest, h =>
      mem_append_or (mem_append_or Or.inl (mem_binderNames_instantiate ty))
        (mem_binderNames_instantiatePiBinders rest) h

/-- `mem_binderNames_instantiate` of bindings. -/
theorem mem_binderNames_instantiateBindings : (bs : List (Binding Template)) →
    x ∈ binderNamesBindings (instantiateBindings args bs) →
      x ∈ binderNamesBindings (instantiateBindings [] bs) ∨ ∃ a ∈ args, x ∈ a.binderNames
  | [], h => Or.inl h
  | ⟨_, none, v⟩ :: rest, h =>
      mem_append_or (mem_cons_or (mem_binderNames_instantiate v))
        (mem_binderNames_instantiateBindings rest) h
  | ⟨_, some ty, v⟩ :: rest, h =>
      mem_append_or
        (mem_append_or (mem_cons_or (mem_binderNames_instantiate ty))
          (mem_binderNames_instantiate v))
        (mem_binderNames_instantiateBindings rest) h

end

end Instances

end Template

/-! ## Expressions that are put together -/

namespace Expr

/-- How an expression is put together.  Names and literals are taken as they are, each
binder has a name of which `Q` holds, and there are instances of templates on as many
arguments as the template is meant for. -/
inductive Written (templates : Nat → Template → Prop) (Q : String → Prop) : Expr → Prop where
  | var (x : String) : Written templates Q (.var x)
  | explicitVar (x : String) : Written templates Q (.explicitVar x)
  | sort (level : Nat) : Written templates Q (.sort level)
  | nat (n : Nat) : Written templates Q (.nat n)
  | string (text : String) : Written templates Q (.string text)
  /-- Further arguments join those that an application has already. -/
  | mkApp {fn : Expr} {args : List Expr} (hfn : Written templates Q fn)
      (hargs : ∀ a ∈ args, Written templates Q a) : Written templates Q (.mkApp fn args)
  | list {elems : List Expr} (helems : ∀ e ∈ elems, Written templates Q e) :
      Written templates Q (.list elems)
  | ite {c t e : Expr} (hc : Written templates Q c) (ht : Written templates Q t)
      (he : Written templates Q e) : Written templates Q (.ite c t e)
  | lam {binders : List (Binder Expr)} {body : Expr} (hnames : ∀ b ∈ binders, Q b.name)
      (htypes : ∀ b ∈ binders, Written templates Q b.type)
      (hbody : Written templates Q body) : Written templates Q (.lam binders body)
  | pi {binders : List (PiBinder Expr)} {body : Expr}
      (hnames : ∀ b ∈ binders, ∀ x, b.name = some x → Q x)
      (htypes : ∀ b ∈ binders, Written templates Q b.type)
      (hbody : Written templates Q body) : Written templates Q (.pi binders body)
  | letIn {bindings : List (Binding Expr)} {body : Expr} (hnames : ∀ b ∈ bindings, Q b.name)
      (htypes : ∀ b ∈ bindings, ∀ ty, b.type = some ty → Written templates Q ty)
      (hvalues : ∀ b ∈ bindings, Written templates Q b.value)
      (hbody : Written templates Q body) : Written templates Q (.letIn bindings body)
  /-- A binding joins those around the body, which may be those of a template. -/
  | joinLet {x : String} {ty v : Expr} {bindings : List (Binding Expr)} {body : Expr}
      (hname : Q x) (htype : Written templates Q ty) (hvalue : Written templates Q v)
      (hinner : Written templates Q (.letIn bindings body)) :
      Written templates Q (.letIn (⟨x, some ty, v⟩ :: bindings) body)
  | instantiate {template : Template} {args : List Expr}
      (htemplate : templates args.length template)
      (hargs : ∀ a ∈ args, Written templates Q a) :
      Written templates Q (template.instantiate args)

section Written

variable {templates : Nat → Template → Prop} {Q : String → Prop}

theorem Written.mkLet {bindings : List (Binding Expr)} {body : Expr}
    (hnames : ∀ b ∈ bindings, Q b.name)
    (htypes : ∀ b ∈ bindings, ∀ ty, b.type = some ty → Written templates Q ty)
    (hvalues : ∀ b ∈ bindings, Written templates Q b.value)
    (hbody : Written templates Q body) : Written templates Q (.mkLet bindings body) := by
  unfold Expr.mkLet
  split
  · exact hbody
  · exact .letIn hnames htypes hvalues hbody

/-- A binder has a name of which `Q` holds, or one that a template binds. -/
theorem Written.of_mem_binderNames {e : Expr} (h : Written templates Q e) {x : String}
    (hx : x ∈ e.binderNames) :
    Q x ∨ ∃ arity template, templates arity template ∧ x ∈ template.binderNames := by
  induction h with
  | var _ | explicitVar _ | sort _ | nat _ | string _ => simp [binderNames] at hx
  | mkApp hfn hargs ihfn ihargs =>
      rw [binderNames_mkApp] at hx
      rcases List.mem_append.mp hx with hx | hx
      · exact ihfn hx
      · obtain ⟨a, ha, hx⟩ := mem_binderNamesList.mp hx
        exact ihargs a ha hx
  | list helems ih =>
      obtain ⟨e, he, hx⟩ := mem_binderNamesList.mp hx
      exact ih e he hx
  | ite hc ht he ihc iht ihe =>
      simp only [binderNames, List.mem_append] at hx
      rcases hx with (hx | hx) | hx
      · exact ihc hx
      · exact iht hx
      · exact ihe hx
  | lam hnames htypes hbody ihtypes ihbody =>
      rcases List.mem_append.mp hx with hx | hx
      · obtain ⟨b, hb, rfl | hx⟩ := mem_binderNamesBinders.mp hx
        · exact Or.inl (hnames b hb)
        · exact ihtypes b hb hx
      · exact ihbody hx
  | pi hnames htypes hbody ihtypes ihbody =>
      rcases List.mem_append.mp hx with hx | hx
      · obtain ⟨b, hb, hname | hx⟩ := mem_binderNamesPiBinders.mp hx
        · exact Or.inl (hnames b hb x hname)
        · exact ihtypes b hb hx
      · exact ihbody hx
  | letIn hnames htypes hvalues hbody ihtypes ihvalues ihbody =>
      rcases List.mem_append.mp hx with hx | hx
      · obtain ⟨b, hb, rfl | ⟨ty, hty, hx⟩ | hx⟩ := mem_binderNamesBindings.mp hx
        · exact Or.inl (hnames b hb)
        · exact ihtypes b hb ty hty hx
        · exact ihvalues b hb hx
      · exact ihbody hx
  | joinLet hname htype hvalue hinner ihtype ihvalue ihinner =>
      simp only [binderNames, binderNamesBindings, List.cons_append, List.mem_cons,
        List.mem_append] at hx ihinner
      rcases hx with rfl | ((hx | hx) | hx) | hx
      · exact Or.inl hname
      · exact ihtype hx
      · exact ihvalue hx
      · exact ihinner (Or.inl hx)
      · exact ihinner (Or.inr hx)
  | instantiate htemplate hargs ih =>
      rcases Template.mem_binderNames_instantiate _ hx with hx | ⟨a, ha, hx⟩
      · exact Or.inr ⟨_, _, htemplate, hx⟩
      · exact ih a ha hx

end Written

end Expr

end Target

end TermGraph
