import Mathlib
import TermGraph.Proofs.Translate.Natural

/-!
# Names of shared subterms and their values

A subterm without loose variables means the same under more binders.  So a name that
is bound to the outline of a subterm may be replaced by this outline wherever it is
used, and the outline of a term inside the bindings of its shared subterms becomes the
outline of the term without them.
-/

namespace TermGraph

open Target Store Target.Resolved

variable {cfg : Config} {s : Store} {known : Ident → Bool} {ctx : Context} {t : TermId}

/-- The names of all shared subterms of a context are those of younger nodes. -/
def Context.LiftsAbove (t : TermId) (ctx : Context) : Prop :=
  ∀ u, Slot.lifted u ∈ ctx → t < u

theorem Context.LiftsAbove.lifted?_eq_none {q : Context} (h : q.LiftsAbove t) {c : TermId}
    (hc : c ≤ t) : q.lifted? c = none :=
  Context.lifted?_eq_none fun hmem => absurd (h c hmem) (Nat.not_lt.mpr hc)

/-- More binders around a closed term, none of which names a part of it. -/
theorem moves_weaken {front : Context} (hfront : front.LiftsAbove t) :
    Moves cfg s (cfg.outline s known) (liftVar front.width) ctx (front ++ ctx) t True
      fun _ => True where
  below := fun h => if_pos h
  locals := fun h => absurd trivial h
  lifted := by
    intro q c j _ hlt hq hc
    rw [outlineTerm, Context.lifted?_append_of_none _ _ hq,
      Context.lifted?_append_of_none _ _ (hfront.lifted?_eq_none (le_of_lt hlt)), hc]
    simp [liftVar, Nat.add_right_comm]
  unlifted := by
    intro c hlt hc
    rw [Context.lifted?_append_of_none _ _ (hfront.lifted?_eq_none (le_of_lt hlt)), hc]
    rfl
  named := by
    intro c hlt hc hnot
    unfold Context.isLifted at hc hnot
    rw [Context.lifted?_append_of_none _ _ (hfront.lifted?_eq_none (le_of_lt hlt)),
      Option.isSome_map, hc] at hnot
    cases hnot
  push := fun _ => ⟨trivial, trivial, trivial⟩

/-- A closed term means the same under more binders. -/
theorem outline_weaken (htable : cfg.table.BindsNothing) {front : Context}
    (hfront : front.LiftsAbove t) (hclosed : s.looseVars t = []) {v : Resolved}
    (hv : cfg.outline s known ctx t = some v) :
    cfg.outline s known (front ++ ctx) t = some (v.lift front.width) :=
  moved_outline htable (moves_weaken hfront) le_rfl (q := []) trivial
    (fun _ i hi => by simp [hclosed] at hi) v hv

/-- A shared subterm that loses its name. -/
theorem moves_unlift (htable : cfg.table.BindsNothing) (hname : cfg.shouldName s t = true)
    (ht : ctx.lifted? t = none) {v : Resolved} (hv : cfg.outline s known ctx t = some v)
    (limit : TermId) :
    Moves cfg s (cfg.outline s known) (substVar v) (.lifted t :: ctx) ctx limit False
      (Context.LiftsAbove t) where
  below := fun h => if_pos h
  locals := by
    intro _ i j hj
    obtain ⟨k, hk, rfl⟩ := Option.map_eq_some_iff.mp hj
    refine ⟨k, hk, fun d => ?_⟩
    rw [substVar, if_neg (by omega), if_neg (by omega)]
    congr 1
    omega
  lifted := by
    intro q c j hq _ hnone hc
    rw [Context.lifted?] at hc
    split at hc
    · rename_i heq
      subst heq
      cases hc
      have hnone' : Context.lifted? (q ++ ctx) t = none := by
        rw [Context.lifted?_append_of_none _ _ hnone, ht]
        rfl
      rw [outlineTerm, hnone', Nat.zero_add, substVar, if_neg (lt_irrefl _), if_pos rfl]
      exact outline_weaken htable hq (Config.looseVars_of_shouldName hname) hv
    · obtain ⟨k, hk, rfl⟩ := Option.map_eq_some_iff.mp hc
      rw [outlineTerm, Context.lifted?_append_of_none _ _ hnone, hk, substVar,
        if_neg (by omega), if_neg (by omega)]
      simp [Nat.add_right_comm k 1]
  unlifted := by
    intro c _ hc
    rw [Context.lifted?] at hc
    split at hc
    · cases hc
    · exact Option.map_eq_none_iff.mp hc
  named := by
    intro c _ hc hnot
    by_cases heq : t = c
    · exact heq ▸ hname
    · unfold Context.isLifted at hc hnot
      rw [Context.lifted?, if_neg heq, Option.isSome_map, hnot] at hc
      cases hc
  push := by
    intro q hq
    refine ⟨?_, ?_, ?_⟩ <;>
      exact fun u hu => hq u ((List.mem_cons.mp hu).resolve_left (by simp))

/-- Taking the name of the first shared subterm away from the others. -/
theorem moved_shared (htable : cfg.table.BindsNothing) (hname : cfg.shouldName s t = true)
    (ht : ctx.lifted? t = none) {v : Resolved} (hv : cfg.outline s known ctx t = some v)
    (root : TermId) {ids : List TermId} (hids : ∀ u ∈ ids, t < u) :
    ∀ {q : Context}, q.LiftsAbove t →
      Moved (substVar v) q.width
        (outlineShared (cfg.outline s known) (q ++ .lifted t :: ctx)
          (fun c => outlineTerm (cfg.outline s known) c root) ids)
        (outlineShared (cfg.outline s known) (q ++ ctx)
          (fun c => outlineTerm (cfg.outline s known) c root) ids) := by
  induction ids with
  | nil =>
      intro q hq
      have hm := moves_unlift htable hname ht hv (root + 1)
      have hroot : Inner s (root + 1) False (Context.LiftsAbove t) q 0 root :=
        ⟨Nat.lt_succ_self root, hq, fun h => h.elim⟩
      exact moved_term hm le_rfl
        (fun q' c hc => moved_outline htable hm (le_of_lt hc.lt) hc.ok hc.bound) hroot
  | cons u rest ih =>
      intro q hq r hr
      rw [outlineShared] at hr ⊢
      obtain ⟨value, hvalue, hr⟩ := Option.bind_eq_some_iff.mp hr
      obtain ⟨inner, hinner, hpure⟩ := Option.bind_eq_some_iff.mp hr
      cases hpure
      have hm := moves_unlift htable hname ht hv u
      have hvalue' := moved_outline htable hm le_rfl hq (fun h => h.elim) value hvalue
      have hinside : Context.LiftsAbove t (.lifted u :: q) := by
        intro w hw
        rcases List.mem_cons.mp hw with heq | hw
        · cases heq
          exact hids u (by simp)
        · exact hq w hw
      have hinner' := ih (fun w hw => hids w (by simp [hw])) hinside inner hinner
      rw [hvalue']
      rw [List.cons_append] at hinner'
      rw [Option.bind_eq_bind, Option.bind_some, hinner']
      rfl

/-- Substituting the values of all names yields the outline without them. -/
theorem zeta_outlineShared (htable : cfg.table.BindsNothing) (root : TermId)
    {ids : List TermId} (hids : ids.Pairwise (· < ·))
    (hnames : ∀ t ∈ ids, cfg.shouldName s t = true ∧ ctx.lifted? t = none) :
    ∀ {r}, outlineShared (cfg.outline s known) ctx
        (fun c => outlineTerm (cfg.outline s known) c root) ids = some r →
      outlineTerm (cfg.outline s known) ctx root = some (r.zeta ids.length) := by
  induction ids with
  | nil => exact fun hr => hr
  | cons t rest ih =>
      intro r hr
      obtain ⟨habove, hrest⟩ := List.pairwise_cons.mp hids
      obtain ⟨hname, ht⟩ := hnames t (by simp)
      rw [outlineShared] at hr
      obtain ⟨value, hvalue, hr⟩ := Option.bind_eq_some_iff.mp hr
      obtain ⟨inner, hinner, hpure⟩ := Option.bind_eq_some_iff.mp hr
      cases hpure
      exact ih hrest (fun u hu => hnames u (by simp [hu]))
        (moved_shared htable hname ht hvalue root habove (q := [])
          (fun u hu => absurd hu List.not_mem_nil) inner hinner)

end TermGraph
