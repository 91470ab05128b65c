import Mathlib
import TermGraph.Target.Template
import TermGraph.Proofs.Target.Resolve

/-!
# Instances of templates without binders

A template that binds no name puts its arguments where they keep their meaning:
every identifier of an argument refers in the instance to what it refers to
outside of it, and every name of the template stays free as long as no binder
around the instance has it.
-/

namespace TermGraph

namespace Target

namespace Template

/-- Whether a template binds no name and something holds of each name in it, a
hole counting as the blank name. -/
def NamesAll (Q : String → Prop) (t : Template) : Prop :=
  (t.instantiate []).Everywhere (fun _ x => Q x) (fun _ _ => False) []

/-- Whether a template binds no name. -/
def BindsNothing (t : Template) : Prop :=
  t.NamesAll fun _ => True

theorem NamesAll.imp {Q Q' : String → Prop} (h : ∀ x, Q x → Q' x) {t : Template}
    (ht : t.NamesAll Q) : t.NamesAll Q' :=
  Expr.Everywhere.imp (fun _ x => h x) (fun _ _ hfalse => hfalse) _ ht

mutual

/-- The resolved form of an instance of a template that binds no name, from the
resolved forms of its arguments. -/
def outline (args : List Resolved) : Template → Resolved
  | hole i => args.getD i (.free blankName)
  | var x => .free x
  | explicitVar x => .explicit (.free x)
  | app fn ts | mergedApp fn ts => (outline args fn).applyAll (outlineList args ts)
  | lam binders body => outlineBinders args (outline args body) binders
  | pi binders body => outlinePiBinders args (outline args body) binders
  | letIn bindings body | mergedLet bindings body =>
      outlineBindings args (outline args body) bindings
  | ite c t e => .ite (outline args c) (outline args t) (outline args e)
  | sort level => .sort level
  | nat n => .nat n
  | string s => .string s
  | list ts => .ofList (outlineList args ts)
  | ascription e ty => .ascription (outline args e) (outline args ty)

/-- `outline` of several templates. -/
def outlineList (args : List Resolved) : List Template → List Resolved
  | [] => []
  | t :: rest => outline args t :: outlineList args rest

/-- `outline` of binders around what follows them. -/
def outlineBinders (args : List Resolved) (inner : Resolved) :
    List (Binder Template) → Resolved
  | [] => inner
  | ⟨_, ty, implicit⟩ :: rest =>
      .lam implicit (outline args ty) (outlineBinders args inner rest)

/-- `outline` of binders of a function type around what follows them. -/
def outlinePiBinders (args : List Resolved) (inner : Resolved) :
    List (PiBinder Template) → Resolved
  | [] => inner
  | ⟨none, ty, implicit⟩ :: rest =>
      .arrow implicit (outline args ty) (outlinePiBinders args inner rest)
  | ⟨some _, ty, implicit⟩ :: rest =>
      .pi implicit (outline args ty) (outlinePiBinders args inner rest)

/-- `outline` of bindings around what follows them. -/
def outlineBindings (args : List Resolved) (inner : Resolved) :
    List (Binding Template) → Resolved
  | [] => inner
  | ⟨_, none, v⟩ :: rest => .letIn (outline args v) (outlineBindings args inner rest)
  | ⟨_, some ty, v⟩ :: rest =>
      .typedLet (outline args ty) (outline args v) (outlineBindings args inner rest)

end

/-! ## Instances read as outlines -/

section Reads

open TermGraph.Target.Expr

variable {P : List String → String → Prop} {names : List String}
  {args : List Expr} {rs : List Resolved}

/-- What is asked of the names in a template under binders of given names. -/
abbrev Fits (P : List String → String → Prop) (names : List String) (x : String) : Prop :=
  x ∉ names ∧ P names x

theorem reads_getD (hargs : List.Forall₂ (Reads P names) args rs)
    (hblank : Fits P names blankName) (i : Nat) :
    Reads P names (args.getD i (.var blankName)) (rs.getD i (.free blankName)) := by
  induction hargs generalizing i with
  | nil => exact reads_free hblank
  | cons ha _ ih =>
      cases i with
      | zero => exact ha
      | succ i => exact ih i

mutual

/-- An instance of a template without binders reads as the outline of the
template on what the arguments read as. -/
theorem reads_instantiate (hargs : List.Forall₂ (Reads P names) args rs) :
    (t : Template) → t.NamesAll (Fits P names) →
      Reads P names (t.instantiate args) (t.outline rs)
  | hole i, h => reads_getD hargs h i
  | var _, h => reads_free h
  | explicitVar _, h => reads_explicit_free h
  | app fn ts, h =>
      reads_app (reads_instantiate hargs fn h.1) (reads_instantiateList hargs ts h.2)
  | mergedApp fn ts, h => by
      have h := (everywhere_mkApp _ _).mp h
      exact reads_mkApp (reads_instantiate hargs fn h.1) (reads_instantiateList hargs ts h.2)
  | lam binders body, h =>
      reads_instantiateBinders
        (fun hbody => reads_instantiate hargs body hbody) binders h
  | pi binders body, h =>
      reads_instantiatePiBinders hargs
        (fun hbody => reads_instantiate hargs body hbody) binders h
  | letIn bindings body, h =>
      reads_instantiateBindings
        (fun hbody => reads_instantiate hargs body hbody) bindings h
  | mergedLet bindings body, h => by
      have h := (everywhere_mkLet _ _).mp h
      exact reads_mkLet (reads_instantiateBindings
        (fun hbody => reads_instantiate hargs body hbody) bindings h)
  | ite c t e, h =>
      reads_ite (reads_instantiate hargs c h.1) (reads_instantiate hargs t h.2.1)
        (reads_instantiate hargs e h.2.2)
  | sort level, _ => reads_sort level
  | nat n, _ => reads_nat n
  | string text, _ => reads_string text
  | list ts, h => reads_list (reads_instantiateList hargs ts h)
  | ascription e ty, h =>
      reads_ascription (reads_instantiate hargs e h.1) (reads_instantiate hargs ty h.2)

/-- `reads_instantiate` of several templates. -/
theorem reads_instantiateList (hargs : List.Forall₂ (Reads P names) args rs) :
    (ts : List Template) →
      EverywhereList (fun _ x => Fits P names x) (fun _ _ => False) []
        (instantiateList [] ts) →
      List.Forall₂ (Reads P names) (instantiateList args ts) (outlineList rs ts)
  | [], _ => .nil
  | t :: rest, h => .cons (reads_instantiate hargs t h.1) (reads_instantiateList hargs rest h.2)

/-- `reads_instantiate` of binders; there are none. -/
theorem reads_instantiateBinders {inner : List String → Prop} {body : Expr}
    {r : Resolved} (hbody : inner [] → Reads P names body r) :
    (bs : List (Binder Template)) →
      EverywhereBinders (fun _ x => Fits P names x) (fun _ _ => False) [] inner
        (instantiateBinders [] bs) →
      Reads P names (.lam (instantiateBinders args bs) body) (outlineBinders rs r bs)
  | [], h => reads_lam_nil (hbody h)
  | ⟨_, _, _⟩ :: _, h => h.2.1.elim

/-- `reads_instantiate` of binders of a function type, none of which has a name. -/
theorem reads_instantiatePiBinders (hargs : List.Forall₂ (Reads P names) args rs)
    {inner : List String → Prop} {body : Expr} {r : Resolved}
    (hbody : inner [] → Reads P names body r) :
    (bs : List (PiBinder Template)) →
      EverywherePiBinders (fun _ x => Fits P names x) (fun _ _ => False) [] inner
        (instantiatePiBinders [] bs) →
      Reads P names (.pi (instantiatePiBinders args bs) body) (outlinePiBinders rs r bs)
  | [], h => reads_pi_nil (hbody h)
  | ⟨none, ty, _⟩ :: rest, h =>
      reads_arrow (reads_instantiate hargs ty h.1)
        (reads_instantiatePiBinders hargs hbody rest h.2)
  | ⟨some _, _, _⟩ :: _, h => h.2.1.elim

/-- `reads_instantiate` of bindings; there are none. -/
theorem reads_instantiateBindings {inner : List String → Prop} {body : Expr}
    {r : Resolved} (hbody : inner [] → Reads P names body r) :
    (bs : List (Binding Template)) →
      EverywhereBindings (fun _ x => Fits P names x) (fun _ _ => False) [] inner
        (instantiateBindings [] bs) →
      Reads P names (.letIn (instantiateBindings args bs) body) (outlineBindings rs r bs)
  | [], h => reads_letIn_nil (hbody h)
  | ⟨_, none, _⟩ :: _, h => h.2.1.elim
  | ⟨_, some _, _⟩ :: _, h => h.2.2.1.elim

end

end Reads

/-! ## Names in a template -/

mutual

/-- An instance depends on what stands in the holes only. -/
theorem instantiate_congr {args args' : List Expr}
    (h : ∀ i, args.getD i (.var blankName) = args'.getD i (.var blankName)) :
    (t : Template) → t.instantiate args = t.instantiate args'
  | hole i => h i
  | var _ | explicitVar _ | sort _ | nat _ | string _ => rfl
  | app fn ts => by
      simp only [instantiate, instantiate_congr h fn, instantiateList_congr h ts]
  | mergedApp fn ts => by
      simp only [instantiate, instantiate_congr h fn, instantiateList_congr h ts]
  | lam binders body => by
      simp only [instantiate, instantiate_congr h body, instantiateBinders_congr h binders]
  | pi binders body => by
      simp only [instantiate, instantiate_congr h body, instantiatePiBinders_congr h binders]
  | letIn bindings body => by
      simp only [instantiate, instantiate_congr h body, instantiateBindings_congr h bindings]
  | mergedLet bindings body => by
      simp only [instantiate, instantiate_congr h body, instantiateBindings_congr h bindings]
  | ite c t e => by
      simp only [instantiate, instantiate_congr h c, instantiate_congr h t,
        instantiate_congr h e]
  | list ts => by simp only [instantiate, instantiateList_congr h ts]
  | ascription e ty => by
      simp only [instantiate, instantiate_congr h e, instantiate_congr h ty]

/-- `instantiate_congr` of several templates. -/
theorem instantiateList_congr {args args' : List Expr}
    (h : ∀ i, args.getD i (.var blankName) = args'.getD i (.var blankName)) :
    (ts : List Template) → instantiateList args ts = instantiateList args' ts
  | [] => rfl
  | t :: rest => by
      simp only [instantiateList, instantiate_congr h t, instantiateList_congr h rest]

/-- `instantiate_congr` of binders. -/
theorem instantiateBinders_congr {args args' : List Expr}
    (h : ∀ i, args.getD i (.var blankName) = args'.getD i (.var blankName)) :
    (bs : List (Binder Template)) → instantiateBinders args bs = instantiateBinders args' bs
  | [] => rfl
  | ⟨_, ty, _⟩ :: rest => by
      simp only [instantiateBinders, instantiate_congr h ty, instantiateBinders_congr h rest]

/-- `instantiate_congr` of binders of a function type. -/
theorem instantiatePiBinders_congr {args args' : List Expr}
    (h : ∀ i, args.getD i (.var blankName) = args'.getD i (.var blankName)) :
    (bs : List (PiBinder Template)) →
      instantiatePiBinders args bs = instantiatePiBinders args' bs
  | [] => rfl
  | ⟨_, ty, _⟩ :: rest => by
      simp only [instantiatePiBinders, instantiate_congr h ty,
        instantiatePiBinders_congr h rest]

/-- `instantiate_congr` of bindings. -/
theorem instantiateBindings_congr {args args' : List Expr}
    (h : ∀ i, args.getD i (.var blankName) = args'.getD i (.var blankName)) :
    (bs : List (Binding Template)) →
      instantiateBindings args bs = instantiateBindings args' bs
  | [] => rfl
  | ⟨_, none, v⟩ :: rest => by
      simp only [instantiateBindings, instantiate_congr h v, instantiateBindings_congr h rest]
  | ⟨_, some ty, v⟩ :: rest => by
      simp only [instantiateBindings, instantiate_congr h ty, instantiate_congr h v,
        instantiateBindings_congr h rest]

end

/-- What holds of the blank name and of the roots of a template holds of the
root of each name in it. -/
theorem namesAll_of_roots {Q : String → Prop} {t : Template} (ht : t.BindsNothing)
    (arity : Nat) (hblank : Q blankName) (hroots : ∀ r ∈ t.roots arity, Q r) :
    t.NamesAll fun x => Q (rootOf x) := by
  have hsame : t.instantiate (List.replicate arity (.var blankName)) = t.instantiate [] := by
    refine instantiate_congr (fun i => ?_) t
    rw [List.getD_eq_getElem?_getD, List.getElem?_replicate]
    split <;> rfl
  refine Expr.everywhere_of_roots _ (fun r hr => ?_) ht
  by_cases hr' : r = blankName
  · exact hr' ▸ hblank
  · exact hroots r (by simp [roots, hsame, hr, hr'])

end Template

end Target

end TermGraph
