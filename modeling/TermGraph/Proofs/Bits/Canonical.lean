import Mathlib
import TermGraph.Proofs.Bits.Anf

/-!
# Formulas as boolean functions

The operations on formulas compute the boolean operations, and a formula that is made
with them is determined by its values.  For the second part, take two formulas with the
same values.  Their exclusive or is always false.  If it had a monomial, a shortest one
would hold alone under the assignment that sets just its own variables, so it has none,
and then every monomial occurs equally often in both formulas.
-/

namespace TermGraph

namespace Anf

/-! ## Uniqueness -/

/-- The assignment that sets the variables of one monomial. -/
def only (m : Monomial) (i : Nat) : Bool :=
  i ∈ m

/-- A monomial that is at least as long as another one, and holds where just the
variables of that one are set, is that one. -/
theorem eq_of_all_only {m x : Monomial} (hm : Ascending m) (hx : Ascending x)
    (hle : m.length ≤ x.length) (h : x.all (only m) = true) : x = m := by
  have hsubset : x ⊆ m := by
    intro i hi
    exact of_decide_eq_true (List.all_eq_true.mp h i hi)
  have hnodup : x.Nodup := hx.imp ne_of_lt
  have hperm : x.Perm m := (List.subperm_of_subset hnodup hsubset).perm_of_length_le hle
  exact hperm.eq_of_pairwise (fun _ _ _ _ hab hba => absurd hab (Nat.lt_asymm hba)) hx hm

/-- A formula with a monomial holds somewhere. -/
theorem exists_eval_eq_true {a : Anf} (ha : a.WellFormed) (hne : a ≠ zero) :
    ∃ s, a.eval s = true := by
  have hnonempty : a.monomials.toFinset.Nonempty := by
    rw [List.toFinset_nonempty_iff]
    intro hnil
    exact hne (congrArg Anf.mk hnil)
  obtain ⟨m, hm, hshortest⟩ := Finset.exists_min_image _ List.length hnonempty
  rw [List.mem_toFinset] at hm
  have halone : ∀ x ∈ a.monomials, x.all (only m) = true ↔ (x == m) = true := by
    intro x hx
    rw [beq_iff_eq]
    constructor
    · exact eq_of_all_only (ha.ascending m hm) (ha.ascending x hx)
        (hshortest x (List.mem_toFinset.mpr hx))
    · rintro rfl
      exact List.all_eq_true.mpr fun i hi => decide_eq_true hi
  have hnodup : a.monomials.Nodup := ha.sorted.imp ne_of_lt
  have hcount : a.monomials.countP (fun x => x.all (only m)) = 1 := by
    rw [List.countP_congr halone]
    exact List.count_eq_one_of_mem hnodup hm
  refine ⟨only m, ?_⟩
  rw [eval_eq_oddHold, oddHold, hcount]
  rfl

theorem count_xor (x : Monomial) (a b : Anf) :
    (a.xor b).monomials.count x % 2 = (a.monomials.count x + b.monomials.count x) % 2 := by
  rw [xor, count_cancel, (List.merge_perm_append _).count_eq, List.count_append]

/-- Only equal formulas cancel. -/
theorem eq_of_xor_eq_zero {a b : Anf} (ha : a.WellFormed) (hb : b.WellFormed)
    (h : a.xor b = zero) : a = b := by
  have hmem : ∀ x, x ∈ a.monomials ↔ x ∈ b.monomials := by
    intro x
    have hparity := count_xor x a b
    rw [h, zero, List.count_nil] at hparity
    have ha' := List.nodup_iff_count_le_one.mp (ha.sorted.imp ne_of_lt) x
    have hb' := List.nodup_iff_count_le_one.mp (hb.sorted.imp ne_of_lt) x
    rw [← List.count_pos_iff, ← List.count_pos_iff]
    omega
  exact congrArg Anf.mk (List.Pairwise.eq_of_mem_iff ha.sorted hb.sorted hmem)

/-- A well-formed formula is determined by its values. -/
theorem eq_of_eval_eq {a b : Anf} (ha : a.WellFormed) (hb : b.WellFormed)
    (h : ∀ s, a.eval s = b.eval s) : a = b := by
  refine eq_of_xor_eq_zero ha hb ?_
  by_contra hne
  obtain ⟨s, hs⟩ := exists_eval_eq_true (wellFormed_xor ha hb) hne
  rw [eval_xor, h s, Bool.xor_self] at hs
  cases hs

/-- A formula is recognised as a constant when all of its values are that constant. -/
theorem asConst?_eq_some_iff {a : Anf} (ha : a.WellFormed) {v : Bool} :
    a.asConst? = some v ↔ ∀ s, a.eval s = v := by
  rw [asConst?_eq_some]
  constructor
  · rintro rfl s
    exact eval_const v
  · intro h
    exact eq_of_eval_eq ha (wellFormed_const v) fun s => (h s).trans (eval_const v).symm

/-- A formula is not recognised as a constant when it has both values. -/
theorem asConst?_eq_none_iff {a : Anf} (ha : a.WellFormed) :
    a.asConst? = none ↔ (∃ s, a.eval s = true) ∧ ∃ s, a.eval s = false := by
  rw [← Bool.not_true, Option.eq_none_iff_forall_ne_some, Bool.forall_bool]
  simp only [ne_eq, asConst?_eq_some_iff ha, not_forall, Bool.not_eq_false, Bool.not_eq_true,
    Bool.not_true]

/-! ## Main results -/

/-- Formulas that are made with the operations. -/
inductive Built : Anf → Prop where
  | zero : Built zero
  | one : Built one
  | const (b : Bool) : Built (const b)
  | var (i : Nat) : Built (var i)
  | xor {a b : Anf} (ha : Built a) (hb : Built b) : Built (a.xor b)
  | and {a b : Anf} (ha : Built a) (hb : Built b) : Built (a.and b)
  | not {a : Anf} (ha : Built a) : Built a.not
  | or {a b : Anf} (ha : Built a) (hb : Built b) : Built (BitLike.or a b)
  | iff {a b : Anf} (ha : Built a) (hb : Built b) : Built (BitLike.iff a b)
  | mux {c a b : Anf} (hc : Built c) (ha : Built a) (hb : Built b) : Built (BitLike.mux c a b)

theorem Built.wellFormed {a : Anf} (h : Built a) : a.WellFormed := by
  induction h with
  | zero => exact wellFormed_zero
  | one => exact wellFormed_one
  | const b => exact wellFormed_const b
  | var i => exact wellFormed_var i
  | xor _ _ ha hb => exact wellFormed_xor ha hb
  | and _ _ ha hb => exact wellFormed_and ha hb
  | not _ ha => exact wellFormed_not ha
  | or _ _ ha hb => exact wellFormed_or ha hb
  | iff _ _ ha hb => exact wellFormed_iff ha hb
  | mux _ _ _ hc ha hb => exact wellFormed_mux hc ha hb

/-- Canonicity.  Formulas that are made with the operations are equal when they have the
same values, so the constants among them are recognised, and nothing else is. -/
theorem built_canonical {a b : Anf} (ha : Built a) (hb : Built b) :
    (a = b ↔ ∀ s, a.eval s = b.eval s) ∧
      (∀ v, a.asConst? = some v ↔ ∀ s, a.eval s = v) ∧
      (a.asConst? = none ↔ (∃ s, a.eval s = true) ∧ ∃ s, a.eval s = false) := by
  refine ⟨⟨?_, ?_⟩, fun v => asConst?_eq_some_iff ha.wellFormed,
    asConst?_eq_none_iff ha.wellFormed⟩
  · rintro rfl s
    rfl
  · exact eq_of_eval_eq ha.wellFormed hb.wellFormed

/-- De Morgan: the two sides are one formula, and it is not constant. -/
theorem built_canonical_deMorgan :
    Built (BitLike.or (var 0) (var 1) : Anf).not ∧ Built ((var 0).not.and (var 1).not) ∧
      (BitLike.or (var 0) (var 1) : Anf).not = (var 0).not.and (var 1).not ∧
      (BitLike.or (var 0) (var 1) : Anf).not.asConst? = none := by
  have hor : Built (BitLike.or (var 0) (var 1) : Anf).not := .not (.or (.var 0) (.var 1))
  have hand : Built ((var 0).not.and (var 1).not) := .and (.not (.var 0)) (.not (.var 1))
  have hvalue : ∀ s, (BitLike.or (var 0) (var 1) : Anf).not.eval s = !(s 0 || s 1) := by
    intro s
    rw [eval_not, eval_or, eval_var, eval_var]
  obtain ⟨heq, -, hnone⟩ := built_canonical hor hand
  refine ⟨hor, hand, heq.mpr fun s => ?_, hnone.mpr ⟨⟨fun _ => false, ?_⟩, fun _ => true, ?_⟩⟩
  · rw [hvalue, eval_and, eval_not, eval_not, eval_var, eval_var, Bool.not_or]
  · exact hvalue _
  · exact hvalue _

/-- The operations on well-formed formulas compute the boolean operations, under every
assignment, and give well-formed formulas. -/
theorem operations_compute {a b c : Anf} (ha : a.WellFormed) (hb : b.WellFormed)
    (hc : c.WellFormed) :
    (∀ s, (BitLike.xor a b).eval s = (a.eval s ^^ b.eval s) ∧
        (BitLike.and a b).eval s = (a.eval s && b.eval s) ∧
        (BitLike.not a).eval s = (!a.eval s) ∧
        (BitLike.or a b).eval s = (a.eval s || b.eval s) ∧
        (BitLike.iff a b).eval s = (a.eval s == b.eval s) ∧
        (BitLike.mux c a b).eval s = if c.eval s then a.eval s else b.eval s) ∧
      ((BitLike.xor a b).WellFormed ∧ (BitLike.and a b).WellFormed ∧
        (BitLike.not a).WellFormed ∧ (BitLike.or a b).WellFormed ∧
        (BitLike.iff a b).WellFormed ∧ (BitLike.mux c a b).WellFormed) ∧
      ∀ i, ∃ v : Anf, BitLike.var i = .ok v ∧ v.WellFormed ∧ ∀ s, v.eval s = s i :=
  ⟨fun _ => ⟨eval_xor a b, eval_and a b, eval_not a, eval_or a b, eval_iff a b,
      eval_mux c a b⟩,
    ⟨wellFormed_xor ha hb, wellFormed_and ha hb, wellFormed_not ha, wellFormed_or ha hb,
      wellFormed_iff ha hb, wellFormed_mux hc ha hb⟩,
    fun i => ⟨var i, rfl, wellFormed_var i, fun _ => eval_var i⟩⟩

/-- A conditional whose condition is not known, where the condition does not hold. -/
theorem operations_compute_conditional :
    (var 0).WellFormed ∧ (var 1).WellFormed ∧ (var 2).WellFormed ∧
      (BitLike.mux (var 0) (var 1) (var 2) : Anf).WellFormed ∧
      (BitLike.mux (var 0) (var 1) (var 2) : Anf).eval (fun i => i == 2) = true := by
  obtain ⟨hvalue, hwell, -⟩ :=
    operations_compute (wellFormed_var 1) (wellFormed_var 2) (wellFormed_var 0)
  refine ⟨wellFormed_var 0, wellFormed_var 1, wellFormed_var 2, hwell.2.2.2.2.2, ?_⟩
  rw [(hvalue _).2.2.2.2.2, eval_var, eval_var, eval_var]
  rfl

end Anf

end TermGraph
