import Mathlib
import TermGraph.Proofs.Target.Template

/-!
# Substitution into resolved expressions

References to binders are replaced one by one, and each replacement depends on the
number of named binders around the reference.  Lifting past more binders and
substituting for a binder are the two cases in use.  `Resolved.zeta` substitutes the
values of outermost bindings for their names, in the order of the bindings.
-/

namespace TermGraph

namespace Target

namespace Resolved

/-- Replaces each reference to a binder, given the number of named binders of the
expression around it. -/
def mapBound (f : Nat → Nat → Resolved) (d : Nat) : Resolved → Resolved
  | bound i => f d i
  | free x => free x
  | explicit r => explicit (mapBound f d r)
  | app fn arg => app (mapBound f d fn) (mapBound f d arg)
  | lam implicit type body => lam implicit (mapBound f d type) (mapBound f (d + 1) body)
  | pi implicit type body => pi implicit (mapBound f d type) (mapBound f (d + 1) body)
  | arrow implicit source target => arrow implicit (mapBound f d source) (mapBound f d target)
  | letIn value body => letIn (mapBound f d value) (mapBound f (d + 1) body)
  | typedLet type value body =>
      typedLet (mapBound f d type) (mapBound f d value) (mapBound f (d + 1) body)
  | ite c t e => ite (mapBound f d c) (mapBound f d t) (mapBound f d e)
  | sort level => sort level
  | nat n => nat n
  | string t => string t
  | nil => nil
  | cons head tail => cons (mapBound f d head) (mapBound f d tail)
  | ascription r type => ascription (mapBound f d r) (mapBound f d type)

/-- A reference past `n` more binders that stand around the outermost one. -/
def liftVar (n d i : Nat) : Resolved :=
  if i < d then bound i else bound (i + n)

/-- An expression under `n` more binders. -/
def lift (n : Nat) (r : Resolved) : Resolved :=
  r.mapBound (liftVar n) 0

/-- A reference where a value stands in for the binder around the expression. -/
def substVar (v : Resolved) (d i : Nat) : Resolved :=
  if i < d then bound i else if i = d then v.lift d else bound (i - 1)

/-- Substitutes a value for the innermost binder around an expression. -/
def inst (r v : Resolved) : Resolved :=
  r.mapBound (substVar v) 0

/-- Substitutes the values of `n` bindings around an expression for their names, in
the order of the bindings. -/
def zeta : Nat → Resolved → Resolved
  | n + 1, letIn value body => zeta n (body.inst value)
  | _, r => r

/-- Functions of several binders, outermost first. -/
def lams (binders : List (Bool × Resolved)) (body : Resolved) : Resolved :=
  binders.foldr (fun b r => .lam b.1 b.2 r) body

/-- Function types of several binders, outermost first. -/
def pis (binders : List (Bool × Resolved)) (body : Resolved) : Resolved :=
  binders.foldr (fun b r => .pi b.1 b.2 r) body

theorem lams_append (front back : List (Bool × Resolved)) (body : Resolved) :
    lams (front ++ back) body = lams front (lams back body) :=
  List.foldr_append

variable {f : Nat → Nat → Resolved}

theorem mapBound_applyAll (d : Nat) (fn : Resolved) (args : List Resolved) :
    (fn.applyAll args).mapBound f d = (fn.mapBound f d).applyAll (args.map (mapBound f d)) := by
  induction args generalizing fn with
  | nil => rfl
  | cons a args ih => exact ih (app fn a)

theorem mapBound_ofList (d : Nat) (elems : List Resolved) :
    (ofList elems).mapBound f d = ofList (elems.map (mapBound f d)) := by
  induction elems with
  | nil => rfl
  | cons r elems ih => exact congrArg (cons (r.mapBound f d)) ih

/-- Replaces references in the types of binders, each under the binders before it. -/
def mapBinders (f : Nat → Nat → Resolved) (d : Nat) :
    List (Bool × Resolved) → List (Bool × Resolved)
  | [] => []
  | (implicit, type) :: rest => (implicit, type.mapBound f d) :: mapBinders f (d + 1) rest

theorem mapBound_lams (d : Nat) (binders : List (Bool × Resolved)) (body : Resolved) :
    (lams binders body).mapBound f d =
      lams (mapBinders f d binders) (body.mapBound f (d + binders.length)) := by
  induction binders generalizing d with
  | nil => rfl
  | cons b binders ih =>
      rw [List.length_cons, ← Nat.add_assoc, Nat.add_right_comm]
      exact congrArg (lam b.1 (b.2.mapBound f d)) (ih (d + 1))

theorem mapBound_pis (d : Nat) (binders : List (Bool × Resolved)) (body : Resolved) :
    (pis binders body).mapBound f d =
      pis (mapBinders f d binders) (body.mapBound f (d + binders.length)) := by
  induction binders generalizing d with
  | nil => rfl
  | cons b binders ih =>
      rw [List.length_cons, ← Nat.add_assoc, Nat.add_right_comm]
      exact congrArg (pi b.1 (b.2.mapBound f d)) (ih (d + 1))

end Resolved

/-! ## Templates -/

namespace Template

open TermGraph.Target.Expr TermGraph.Target.Resolved

variable {f : Nat → Nat → Resolved} {args : List Resolved} {d : Nat}

theorem mapBound_getD (i : Nat) :
    (args.getD i (.free blankName)).mapBound f d =
      (args.map (mapBound f d)).getD i (.free blankName) := by
  rw [List.getD_eq_getElem?_getD, List.getD_eq_getElem?_getD, List.getElem?_map]
  cases args[i]? <;> rfl

mutual

/-- Replacing references in an instance of a template without binders is replacing
them in the arguments. -/
theorem mapBound_outline :
    (t : Template) → t.BindsNothing →
      (t.outline args).mapBound f d = t.outline (args.map (mapBound f d))
  | hole i, _ => mapBound_getD i
  | var _, _ => rfl
  | explicitVar _, _ => rfl
  | app fn ts, h => by
      rw [outline, outline, mapBound_applyAll, mapBound_outline fn h.1,
        mapBound_outlineList ts h.2]
  | mergedApp fn ts, h => by
      have h := (everywhere_mkApp _ _).mp h
      rw [outline, outline, mapBound_applyAll, mapBound_outline fn h.1,
        mapBound_outlineList ts h.2]
  | lam binders body, h =>
      mapBound_outlineBinders (fun hbody => mapBound_outline body hbody) binders h
  | pi binders body, h =>
      mapBound_outlinePiBinders (fun hbody => mapBound_outline body hbody) binders h
  | letIn bindings body, h =>
      mapBound_outlineBindings (fun hbody => mapBound_outline body hbody) bindings h
  | mergedLet bindings body, h =>
      mapBound_outlineBindings (fun hbody => mapBound_outline body hbody) bindings
        ((everywhere_mkLet _ _).mp h)
  | ite c t e, h => by
      rw [outline, outline, mapBound, mapBound_outline c h.1, mapBound_outline t h.2.1,
        mapBound_outline e h.2.2]
  | sort _, _ => rfl
  | nat _, _ => rfl
  | string _, _ => rfl
  | list ts, h => by rw [outline, outline, mapBound_ofList, mapBound_outlineList ts h]
  | ascription e ty, h => by
      rw [outline, outline, mapBound, mapBound_outline e h.1, mapBound_outline ty h.2]

/-- `mapBound_outline` of several templates. -/
theorem mapBound_outlineList :
    (ts : List Template) →
      EverywhereList (fun _ _ => True) (fun _ _ => False) [] (instantiateList [] ts) →
      (outlineList args ts).map (mapBound f d) = outlineList (args.map (mapBound f d)) ts
  | [], _ => rfl
  | t :: rest, h => by
      rw [outlineList, outlineList, List.map_cons, mapBound_outline t h.1,
        mapBound_outlineList rest h.2]

/-- `mapBound_outline` of binders; there are none. -/
theorem mapBound_outlineBinders {inner : List String → Prop} {r r' : Resolved}
    (hbody : inner [] → r.mapBound f d = r') :
    (bs : List (Binder Template)) →
      EverywhereBinders (fun _ _ => True) (fun _ _ => False) [] inner
        (instantiateBinders [] bs) →
      (outlineBinders args r bs).mapBound f d =
        outlineBinders (args.map (mapBound f d)) r' bs
  | [], h => hbody h
  | ⟨_, _, _⟩ :: _, h => h.2.1.elim

/-- `mapBound_outline` of binders of a function type, none of which has a name. -/
theorem mapBound_outlinePiBinders {inner : List String → Prop} {r r' : Resolved}
    (hbody : inner [] → r.mapBound f d = r') :
    (bs : List (PiBinder Template)) →
      EverywherePiBinders (fun _ _ => True) (fun _ _ => False) [] inner
        (instantiatePiBinders [] bs) →
      (outlinePiBinders args r bs).mapBound f d =
        outlinePiBinders (args.map (mapBound f d)) r' bs
  | [], h => hbody h
  | ⟨none, ty, _⟩ :: rest, h => by
      rw [outlinePiBinders, outlinePiBinders, mapBound, mapBound_outline ty h.1,
        mapBound_outlinePiBinders hbody rest h.2]
  | ⟨some _, _, _⟩ :: _, h => h.2.1.elim

/-- `mapBound_outline` of bindings; there are none. -/
theorem mapBound_outlineBindings {inner : List String → Prop} {r r' : Resolved}
    (hbody : inner [] → r.mapBound f d = r') :
    (bs : List (Binding Template)) →
      EverywhereBindings (fun _ _ => True) (fun _ _ => False) [] inner
        (instantiateBindings [] bs) →
      (outlineBindings args r bs).mapBound f d =
        outlineBindings (args.map (mapBound f d)) r' bs
  | [], h => hbody h
  | ⟨_, none, _⟩ :: _, h => h.2.1.elim
  | ⟨_, some _, _⟩ :: _, h => h.2.2.1.elim

end

end Template

end Target

end TermGraph
