import Mathlib
import TermGraph.Proofs.Bits.Canonical

/-!
# The variables that a formula depends on

A formula lists the variables of its monomials.  Its value is fixed by these, so no other
variable can change it.  For the converse, strike out the monomials with some variable:
what is left has the values of the formula where that variable is not set.  If the
variable never mattered, these are the values of the whole formula, and two well-formed
formulas with the same values are equal, so there was nothing to strike out.
-/

namespace TermGraph

namespace Anf

/-- Changing just this variable changes the value somewhere. -/
def DependsOn (a : Anf) (v : Nat) : Prop :=
  ∃ s : Nat → Bool, a.eval (Function.update s v (!s v)) ≠ a.eval s

variable {a : Anf} {v : Nat} {s s' : Nat → Bool}

theorem mem_support : v ∈ a.support ↔ ∃ m ∈ a.monomials, v ∈ m := by
  unfold support
  induction a.monomials with
  | nil => simp
  | cons m ms ih => rw [List.foldr_cons, mem_unionAsc, ih, List.exists_mem_cons_iff]

/-- The value is fixed by the variables of the formula. -/
theorem eval_eq_of_eqOn_support (h : ∀ v ∈ a.support, s v = s' v) : a.eval s = a.eval s' := by
  have hall : ∀ m ∈ a.monomials, m.all s = true ↔ m.all s' = true := by
    intro m hm
    have hvariables : ∀ v ∈ m, s v = s' v := fun v hv => h v (mem_support.mpr ⟨m, hm, hv⟩)
    rw [List.all_eq_true, List.all_eq_true]
    exact forall₂_congr fun v hv => by rw [hvariables v hv]
  rw [eval_eq_oddHold, eval_eq_oddHold, oddHold, oddHold, List.countP_congr hall]

theorem mem_support_of_dependsOn (h : a.DependsOn v) : v ∈ a.support := by
  obtain ⟨s, hs⟩ := h
  by_contra hv
  refine hs (eval_eq_of_eqOn_support fun w hw => ?_)
  have hne : w ≠ v := by
    rintro rfl
    exact hv hw
  exact Function.update_of_ne hne _ _

/-! ## Striking out a variable -/

/-- The monomials without a variable. -/
def without (v : Nat) (a : Anf) : Anf :=
  ⟨a.monomials.filter fun m => v ∉ m⟩

theorem wellFormed_without (ha : a.WellFormed) : (a.without v).WellFormed :=
  ⟨ha.sorted.filter _, fun m hm => ha.ascending m (List.mem_of_mem_filter hm)⟩

/-- A monomial holds where the variable is not set if it holds and does not have it. -/
theorem all_update_false (m : Monomial) :
    m.all (Function.update s v false) = (m.all s && decide (v ∉ m)) := by
  rw [Bool.eq_iff_iff, Bool.and_eq_true, decide_eq_true_iff, List.all_eq_true, List.all_eq_true]
  constructor
  · intro h
    have hv : v ∉ m := by
      intro hv
      have hset := h v hv
      rw [Function.update_self] at hset
      cases hset
    refine ⟨fun w hw => ?_, hv⟩
    rw [← h w hw, Function.update_of_ne (ne_of_mem_of_not_mem hw hv)]
  · rintro ⟨h, hv⟩ w hw
    rw [Function.update_of_ne (ne_of_mem_of_not_mem hw hv)]
    exact h w hw

theorem eval_without : (a.without v).eval s = a.eval (Function.update s v false) := by
  rw [eval_eq_oddHold, eval_eq_oddHold, oddHold, oddHold, without, List.countP_filter]
  simp only [all_update_false]

/-- Where the variable does not matter, it may as well not be set. -/
theorem eval_update_false (h : ¬ a.DependsOn v) :
    a.eval (Function.update s v false) = a.eval s := by
  cases hs : s v with
  | false => rw [← hs, Function.update_eq_self]
  | true =>
      have hsame := not_not.mp (not_exists.mp h s)
      rw [hs] at hsame
      exact hsame

/-- Every variable of a well-formed formula matters: the others have been cancelled. -/
theorem dependsOn_of_mem_support (ha : a.WellFormed) (hv : v ∈ a.support) : a.DependsOn v := by
  by_contra hfree
  have hsame : a.without v = a :=
    eq_of_eval_eq (wellFormed_without ha) ha fun _ => eval_without.trans (eval_update_false hfree)
  obtain ⟨m, hm, hvm⟩ := mem_support.mp hv
  rw [← hsame] at hm
  exact of_decide_eq_true (List.mem_filter.mp hm).2 hvm

/-! ## Main result -/

/-- The support of a formula that is made with the operations has exactly the variables on
which its value depends, and the value is fixed by these. -/
theorem built_support (ha : Built a) :
    (∀ v, v ∈ a.support ↔ a.DependsOn v) ∧
      ∀ s s' : Nat → Bool, (∀ v ∈ a.support, s v = s' v) → a.eval s = a.eval s' :=
  ⟨fun _ => ⟨dependsOn_of_mem_support ha.wellFormed, mem_support_of_dependsOn⟩,
    fun _ _ => eval_eq_of_eqOn_support⟩

/-- A case distinction whose two cases agree: the variable it tests is cancelled. -/
theorem built_support_of_equal_cases :
    Built (BitLike.or ((var 0).and (var 1)) ((var 0).not.and (var 1))) ∧
      (BitLike.or ((var 0).and (var 1)) ((var 0).not.and (var 1)) : Anf).support = [1] ∧
      ¬ (BitLike.or ((var 0).and (var 1)) ((var 0).not.and (var 1)) : Anf).DependsOn 0 ∧
      (BitLike.or ((var 0).and (var 1)) ((var 0).not.and (var 1)) : Anf).DependsOn 1 := by
  have hbuilt : Built (BitLike.or ((var 0).and (var 1)) ((var 0).not.and (var 1))) :=
    .or (.and (.var 0) (.var 1)) (.and (.not (.var 0)) (.var 1))
  have hvar : (BitLike.or ((var 0).and (var 1)) ((var 0).not.and (var 1)) : Anf) = var 1 := by
    refine eq_of_eval_eq hbuilt.wellFormed (wellFormed_var 1) fun s => ?_
    rw [eval_or, eval_and, eval_and, eval_not, eval_var, eval_var]
    cases s 0 <;> cases s 1 <;> rfl
  have hsupport :
      (BitLike.or ((var 0).and (var 1)) ((var 0).not.and (var 1)) : Anf).support = [1] := by
    rw [hvar]
    simp [support, var, unionAsc]
  obtain ⟨hdepends, -⟩ := built_support hbuilt
  refine ⟨hbuilt, hsupport, ?_, ?_⟩
  · rw [← hdepends, hsupport]
    decide
  · rw [← hdepends, hsupport]
    decide

end Anf

end TermGraph
