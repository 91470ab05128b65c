import Mathlib
import TermGraph.Proofs.Target.Substitute

/-!
# Function types with and without names

A function type whose binder has no name means what the one means whose binder has a name
that nothing refers to.  `Resolved.nameArrows` gives a name to every binder, so two resolved
expressions agree up to the naming of unused binders exactly if they are equal afterwards.

`Resolved.insideLams` changes what stands inside functions of some binders.
-/

namespace TermGraph

namespace Target

namespace Resolved

/-- Gives a name to each binder of a function type that has none. -/
def nameArrows : Resolved → Resolved
  | bound i => bound i
  | free x => free x
  | explicit r => explicit r.nameArrows
  | app fn arg => app fn.nameArrows arg.nameArrows
  | lam implicit type body => lam implicit type.nameArrows body.nameArrows
  | pi implicit type body => pi implicit type.nameArrows body.nameArrows
  | arrow implicit source target => pi implicit source.nameArrows (target.nameArrows.lift 1)
  | letIn value body => letIn value.nameArrows body.nameArrows
  | typedLet type value body => typedLet type.nameArrows value.nameArrows body.nameArrows
  | ite c t e => ite c.nameArrows t.nameArrows e.nameArrows
  | sort level => sort level
  | nat n => nat n
  | string t => string t
  | nil => nil
  | cons head tail => cons head.nameArrows tail.nameArrows
  | ascription r type => ascription r.nameArrows type.nameArrows

/-- Changes what stands inside functions of so many binders. -/
def insideLams (f : Resolved → Resolved) : Nat → Resolved → Resolved
  | 0, r => f r
  | n + 1, lam implicit type body => lam implicit type (insideLams f n body)
  | _ + 1, r => r

/-! ## Lifting -/

/-- Two lifts that start at different binders commute. -/
theorem lift_mapBound_liftVar (m n : Nat) (r : Resolved) :
    ∀ c d, (r.mapBound (liftVar n) (c + d)).mapBound (liftVar m) c =
      (r.mapBound (liftVar m) c).mapBound (liftVar n) (c + d + m) := by
  have hstep : ∀ c d : Nat, c + d + 1 = c + 1 + d := fun c d => by omega
  induction r with
  | bound i =>
      intro c d
      simp only [mapBound, liftVar]
      -- Below the first cut nothing moves, between the cuts one lift acts, beyond both do.
      split
      · rename_i hlt
        by_cases hc : i < c
        · simp [mapBound, liftVar, hc, show i < c + d + m by omega]
        · simp [mapBound, liftVar, hc, hlt]
      · rename_i hge
        have hc : ¬ i < c := by omega
        simp [mapBound, liftVar, hc, show ¬ i + n < c by omega, hge]
        omega
  | free | sort | nat | string | nil => exact fun _ _ => rfl
  | explicit r ih => exact fun c d => congrArg explicit (ih c d)
  | app fn arg ihf iha => exact fun c d => congrArg₂ app (ihf c d) (iha c d)
  | cons head tail ihh iht => exact fun c d => congrArg₂ cons (ihh c d) (iht c d)
  | arrow implicit source target ihs iht =>
      exact fun c d => congrArg₂ (arrow implicit) (ihs c d) (iht c d)
  | ascription r type ihr iht => exact fun c d => congrArg₂ ascription (ihr c d) (iht c d)
  | lam implicit type body iht ihb | pi implicit type body iht ihb =>
      intro c d
      simp only [mapBound, iht c d, hstep, ihb (c + 1) d]
  | letIn value body ihv ihb =>
      intro c d
      simp only [mapBound, ihv c d, hstep, ihb (c + 1) d]
  | typedLet type value body iht ihv ihb =>
      intro c d
      simp only [mapBound, iht c d, ihv c d, hstep, ihb (c + 1) d]
  | ite c' t e ihc iht ihe =>
      intro c d
      simp only [mapBound, ihc c d, iht c d, ihe c d]

/-- Names are given to binders before or after a lift. -/
theorem nameArrows_mapBound_liftVar (n : Nat) (r : Resolved) :
    ∀ d, (r.mapBound (liftVar n) d).nameArrows = r.nameArrows.mapBound (liftVar n) d := by
  induction r with
  | bound i =>
      intro d
      simp only [mapBound, nameArrows, liftVar]
      split <;> rfl
  | free | sort | nat | string | nil => exact fun _ => rfl
  | explicit r ih => exact fun d => congrArg explicit (ih d)
  | app fn arg ihf iha => exact fun d => congrArg₂ app (ihf d) (iha d)
  | cons head tail ihh iht => exact fun d => congrArg₂ cons (ihh d) (iht d)
  | ascription r type ihr iht => exact fun d => congrArg₂ ascription (ihr d) (iht d)
  | lam implicit type body iht ihb =>
      exact fun d => congrArg₂ (lam implicit) (iht d) (ihb (d + 1))
  | pi implicit type body iht ihb =>
      exact fun d => congrArg₂ (pi implicit) (iht d) (ihb (d + 1))
  | letIn value body ihv ihb => exact fun d => congrArg₂ letIn (ihv d) (ihb (d + 1))
  | typedLet type value body iht ihv ihb =>
      intro d
      simp only [mapBound, nameArrows, iht d, ihv d, ihb (d + 1)]
  | ite c t e ihc iht ihe =>
      intro d
      simp only [mapBound, nameArrows, ihc d, iht d, ihe d]
  | arrow implicit source target ihs iht =>
      -- The name that is given is one more binder around the target.
      intro d
      have hlift := lift_mapBound_liftVar 1 n target.nameArrows 0 d
      rw [Nat.zero_add] at hlift
      simp only [mapBound, nameArrows, ihs d, iht d, lift, hlift]

theorem nameArrows_lift (n : Nat) (r : Resolved) : (r.lift n).nameArrows = r.nameArrows.lift n :=
  nameArrows_mapBound_liftVar n r 0

/-! ## Several binders -/

theorem pis_append (front back : List (Bool × Resolved)) (body : Resolved) :
    pis (front ++ back) body = pis front (pis back body) :=
  List.foldr_append

theorem nameArrows_pis (binders : List (Bool × Resolved)) (body : Resolved) :
    (pis binders body).nameArrows =
      pis (binders.map fun b => (b.1, b.2.nameArrows)) body.nameArrows := by
  induction binders with
  | nil => rfl
  | cons b binders ih => exact congrArg (pi b.1 b.2.nameArrows) ih

theorem insideLams_lams (f : Resolved → Resolved) (binders : List (Bool × Resolved))
    (body : Resolved) :
    insideLams f binders.length (lams binders body) = lams binders (f body) := by
  induction binders with
  | nil => rfl
  | cons b binders ih => exact congrArg (lam b.1 b.2) ih

end Resolved

end Target

end TermGraph
