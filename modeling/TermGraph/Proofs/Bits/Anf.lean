import Mathlib
import TermGraph.Bits.Anf

/-!
# Formulas in algebraic normal form

A formula is well formed when its monomials are strictly ascending and so are the
variables of each monomial.  Its value is the parity of the monomials that hold, and
every operation is read off from what it does to that parity: moving monomials around
keeps it, striking out an equal pair keeps it, and the products of two lists hold in
pairs.  Well-formed formulas with the same values are equal, because the shortest
monomial in which they differ holds alone under the assignment that sets just its own
variables.
-/

namespace TermGraph

namespace Anf

/-- Strictly ascending monomials, each with strictly ascending variables. -/
structure WellFormed (a : Anf) : Prop where
  sorted : a.monomials.Pairwise (· < ·)
  ascending : ∀ m ∈ a.monomials, Ascending m

/-! ## Order -/

theorem monomialLe_iff {a b : Monomial} : monomialLe a b = true ↔ a ≤ b := by
  rw [monomialLe, decide_eq_true_iff]
  exact not_lt

theorem monomialLe_trans (a b c : Monomial) (hab : monomialLe a b = true)
    (hbc : monomialLe b c = true) : monomialLe a c = true :=
  monomialLe_iff.mpr (le_trans (monomialLe_iff.mp hab) (monomialLe_iff.mp hbc))

theorem monomialLe_total (a b : Monomial) : (monomialLe a b || monomialLe b a) = true := by
  rw [Bool.or_eq_true, monomialLe_iff, monomialLe_iff]
  exact le_total a b

/-- Strictly ascending monomials are in the order that merging and sorting use. -/
theorem pairwise_monomialLe {ms : List Monomial} (h : ms.Pairwise (· < ·)) :
    ms.Pairwise fun a b => monomialLe a b = true :=
  h.imp fun hab => monomialLe_iff.mpr (le_of_lt hab)

/-! ## Striking out pairs -/

theorem mem_of_mem_toggle {m x : Monomial} {ms : List Monomial} (h : x ∈ toggle m ms) :
    x = m ∨ x ∈ ms := by
  cases ms with
  | nil => simpa [toggle] using h
  | cons y rest =>
      rw [toggle] at h
      split at h
      · exact Or.inr (List.mem_cons_of_mem y h)
      · exact List.mem_cons.mp h

/-- Only monomials of the list are left. -/
theorem mem_of_mem_cancel {x : Monomial} {ms : List Monomial} (h : x ∈ cancel ms) : x ∈ ms := by
  induction ms with
  | nil => simp [cancel] at h
  | cons m ms ih =>
      rcases mem_of_mem_toggle h with rfl | hx
      · exact List.mem_cons_self
      · exact List.mem_cons_of_mem m (ih hx)

theorem pairwise_toggle {m : Monomial} {ms : List Monomial} (hms : ms.Pairwise (· < ·))
    (hm : ∀ x ∈ ms, m ≤ x) : (toggle m ms).Pairwise (· < ·) := by
  cases ms with
  | nil => simp [toggle]
  | cons y rest =>
      rw [toggle]
      split
      · exact hms.tail
      · rename_i hne
        have hlt : m < y := lt_of_le_of_ne (hm y List.mem_cons_self) hne
        refine List.pairwise_cons.mpr ⟨fun x hx => ?_, hms⟩
        rcases List.mem_cons.mp hx with rfl | hx
        · exact hlt
        · exact lt_trans hlt (List.rel_of_pairwise_cons hms hx)

/-- No monomial is left twice when equal ones are neighbours. -/
theorem pairwise_cancel {ms : List Monomial}
    (h : ms.Pairwise fun a b => monomialLe a b = true) : (cancel ms).Pairwise (· < ·) := by
  induction ms with
  | nil => simp [cancel]
  | cons m ms ih =>
      have hrest := List.pairwise_cons.mp h
      refine pairwise_toggle (ih hrest.2) fun x hx => ?_
      exact monomialLe_iff.mp (hrest.1 x (mem_of_mem_cancel hx))

theorem count_toggle (x m : Monomial) (ms : List Monomial) :
    (toggle m ms).count x % 2 = ((m :: ms).count x) % 2 := by
  cases ms with
  | nil => rfl
  | cons y rest =>
      rw [toggle]
      split
      · rename_i heq
        subst heq
        by_cases hx : m = x
        · subst hx
          simp only [List.count_cons_self]
          omega
        · simp [List.count_cons_of_ne hx]
      · rfl

/-- Striking out pairs keeps the parity with which each monomial occurs. -/
theorem count_cancel (x : Monomial) (ms : List Monomial) :
    (cancel ms).count x % 2 = ms.count x % 2 := by
  induction ms with
  | nil => rfl
  | cons m ms ih =>
      have hstep := count_toggle x m (cancel ms)
      rw [List.count_cons, Nat.add_mod, ih, ← Nat.add_mod, ← List.count_cons] at hstep
      exact hstep

/-! ## The parity of the monomials that hold -/

/-- Whether an odd number of monomials holds under an assignment. -/
def oddHold (s : Nat → Bool) (ms : List Monomial) : Bool :=
  ms.countP (fun m => m.all s) % 2 = 1

variable {s : Nat → Bool}

theorem eval_eq_oddHold (a : Anf) : a.eval s = oddHold s a.monomials := by
  rw [eval, oddHold, List.countP_eq_length_filter]

@[simp] theorem oddHold_nil : oddHold s [] = false := by
  simp [oddHold]

@[simp] theorem oddHold_cons (m : Monomial) (ms : List Monomial) :
    oddHold s (m :: ms) = (m.all s ^^ oddHold s ms) := by
  unfold oddHold
  rw [List.countP_cons]
  cases hm : m.all s with
  | false => simp
  | true =>
      simp only [if_true, Bool.true_xor, ← decide_not]
      rw [decide_eq_decide]
      omega

theorem oddHold_append (ms ns : List Monomial) :
    oddHold s (ms ++ ns) = (oddHold s ms ^^ oddHold s ns) := by
  induction ms with
  | nil => simp
  | cons m ms ih => rw [List.cons_append, oddHold_cons, ih, oddHold_cons, Bool.xor_assoc]

theorem oddHold_perm {ms ns : List Monomial} (h : ms.Perm ns) : oddHold s ms = oddHold s ns := by
  unfold oddHold
  rw [h.countP_eq]

theorem oddHold_toggle (m : Monomial) (ms : List Monomial) :
    oddHold s (toggle m ms) = (m.all s ^^ oddHold s ms) := by
  cases ms with
  | nil => rw [toggle, oddHold_cons]
  | cons y rest =>
      rw [toggle]
      split
      · rename_i heq
        rw [heq, oddHold_cons, ← Bool.xor_assoc, Bool.xor_self, Bool.false_xor]
      · rw [oddHold_cons]

/-- Striking out pairs keeps the value. -/
theorem oddHold_cancel (ms : List Monomial) : oddHold s (cancel ms) = oddHold s ms := by
  induction ms with
  | nil => rfl
  | cons m ms ih =>
      have hstep := oddHold_toggle (s := s) m (cancel ms)
      rw [ih, ← oddHold_cons] at hstep
      exact hstep

/-- A product holds when both monomials do. -/
theorem all_unionAsc (m n : Monomial) : (unionAsc m n).all s = (m.all s && n.all s) := by
  rw [Bool.eq_iff_iff]
  simp only [List.all_eq_true, Bool.and_eq_true, mem_unionAsc, or_imp, forall_and]

theorem oddHold_map_unionAsc (m : Monomial) (ns : List Monomial) :
    oddHold s (ns.map (unionAsc m)) = (m.all s && oddHold s ns) := by
  induction ns with
  | nil => simp
  | cons n ns ih =>
      rw [List.map_cons, oddHold_cons, ih, all_unionAsc, oddHold_cons, Bool.and_xor_distrib_left]

theorem oddHold_products (ms ns : List Monomial) :
    oddHold s (products ms ns) = (oddHold s ms && oddHold s ns) := by
  induction ms with
  | nil => simp [products]
  | cons m ms ih =>
      have hsplit : products (m :: ms) ns = ns.map (unionAsc m) ++ products ms ns := rfl
      rw [hsplit, oddHold_append, ih, oddHold_map_unionAsc, oddHold_cons,
        Bool.and_xor_distrib_right]

/-! ## Operations -/

theorem eval_zero : zero.eval s = false :=
  rfl

theorem eval_one : one.eval s = true :=
  rfl

theorem eval_const (b : Bool) : (const b).eval s = b := by
  cases b <;> rfl

theorem eval_var (i : Nat) : (var i).eval s = s i := by
  rw [eval_eq_oddHold]
  simp [var]

theorem eval_xor (a b : Anf) : (a.xor b).eval s = (a.eval s ^^ b.eval s) := by
  simp only [eval_eq_oddHold, xor]
  rw [oddHold_cancel, oddHold_perm (List.merge_perm_append _), oddHold_append]

theorem eval_not (a : Anf) : a.not.eval s = !a.eval s := by
  rw [not, eval_xor, eval_one, Bool.xor_true]

/-- A formula that is recognised as a constant is that constant. -/
theorem asConst?_eq_some {a : Anf} {b : Bool} : a.asConst? = some b ↔ a = const b := by
  obtain ⟨ms⟩ := a
  unfold asConst?
  split <;> cases b <;> simp_all [const, zero, one]

theorem eval_and (a b : Anf) : (a.and b).eval s = (a.eval s && b.eval s) := by
  unfold and
  split
  · rename_i ha
    rw [asConst?_eq_some.mp ha, eval_const, eval_zero, Bool.false_and]
  · rename_i hb _
    rw [asConst?_eq_some.mp hb, eval_const, eval_zero, Bool.and_false]
  · rename_i ha _
    rw [asConst?_eq_some.mp ha, eval_const, Bool.true_and]
  · rename_i hb _ _
    rw [asConst?_eq_some.mp hb, eval_const, Bool.and_true]
  · simp only [eval_eq_oddHold]
    rw [oddHold_cancel, oddHold_perm (List.mergeSort_perm _ _), oddHold_products]

theorem eval_or (a b : Anf) : (BitLike.or a b).eval s = (a.eval s || b.eval s) := by
  have h : (BitLike.or a b).eval s = ((a.xor b).xor (a.and b)).eval s := rfl
  rw [h, eval_xor, eval_xor, eval_and]
  cases a.eval s <;> cases b.eval s <;> rfl

theorem eval_iff (a b : Anf) : (BitLike.iff a b).eval s = (a.eval s == b.eval s) := by
  have h : (BitLike.iff a b).eval s = (a.xor b).not.eval s := rfl
  rw [h, eval_not, eval_xor]
  cases a.eval s <;> cases b.eval s <;> rfl

theorem eval_mux (c a b : Anf) :
    (BitLike.mux c a b).eval s = if c.eval s then a.eval s else b.eval s := by
  unfold BitLike.mux
  split
  · rename_i hc
    rw [asConst?_eq_some.mp hc, eval_const, if_pos rfl]
  · rename_i hc
    rw [asConst?_eq_some.mp hc, eval_const, if_neg Bool.false_ne_true]
  · have h : (BitLike.xor b (BitLike.and c (BitLike.xor a b))).eval s =
        (b.xor (c.and (a.xor b))).eval s := rfl
    rw [h, eval_xor, eval_and, eval_xor]
    cases c.eval s <;> cases a.eval s <;> cases b.eval s <;> rfl

/-! ## Well-formed results -/

theorem wellFormed_zero : zero.WellFormed :=
  ⟨List.Pairwise.nil, by simp [zero]⟩

theorem wellFormed_one : one.WellFormed :=
  ⟨List.pairwise_singleton _ _, by simp [one, Ascending]⟩

theorem wellFormed_const (b : Bool) : (const b).WellFormed := by
  cases b
  · exact wellFormed_zero
  · exact wellFormed_one

theorem var_injective : Function.Injective var := by
  intro i j h
  cases h
  rfl

theorem wellFormed_var (i : Nat) : (var i).WellFormed :=
  ⟨List.pairwise_singleton _ _, by simp [var, Ascending]⟩

theorem wellFormed_xor {a b : Anf} (ha : a.WellFormed) (hb : b.WellFormed) :
    (a.xor b).WellFormed := by
  refine ⟨pairwise_cancel ?_, fun m hm => ?_⟩
  · exact List.pairwise_merge monomialLe_trans monomialLe_total _ _
      (pairwise_monomialLe ha.sorted) (pairwise_monomialLe hb.sorted)
  · rcases List.mem_append.mp ((List.merge_perm_append _).mem_iff.mp (mem_of_mem_cancel hm))
      with h | h
    · exact ha.ascending m h
    · exact hb.ascending m h

theorem wellFormed_not {a : Anf} (ha : a.WellFormed) : a.not.WellFormed :=
  wellFormed_xor ha wellFormed_one

theorem wellFormed_and {a b : Anf} (ha : a.WellFormed) (hb : b.WellFormed) :
    (a.and b).WellFormed := by
  unfold and
  split
  · exact wellFormed_zero
  · exact wellFormed_zero
  · exact hb
  · exact ha
  · refine ⟨pairwise_cancel (List.pairwise_mergeSort monomialLe_trans monomialLe_total _), ?_⟩
    intro m hm
    have hproduct : m ∈ products a.monomials b.monomials :=
      (List.mergeSort_perm _ _).mem_iff.mp (mem_of_mem_cancel hm)
    obtain ⟨x, hx, hm⟩ := List.mem_flatMap.mp hproduct
    obtain ⟨y, hy, rfl⟩ := List.mem_map.mp hm
    exact ascending_unionAsc (ha.ascending x hx) (hb.ascending y hy)

theorem wellFormed_or {a b : Anf} (ha : a.WellFormed) (hb : b.WellFormed) :
    (BitLike.or a b).WellFormed :=
  wellFormed_xor (wellFormed_xor ha hb) (wellFormed_and ha hb)

theorem wellFormed_iff {a b : Anf} (ha : a.WellFormed) (hb : b.WellFormed) :
    (BitLike.iff a b).WellFormed :=
  wellFormed_not (wellFormed_xor ha hb)

theorem wellFormed_mux {a b c : Anf} (hc : c.WellFormed) (ha : a.WellFormed)
    (hb : b.WellFormed) : (BitLike.mux c a b).WellFormed := by
  unfold BitLike.mux
  split
  · exact ha
  · exact hb
  · exact wellFormed_xor hb (wellFormed_and hc (wellFormed_xor ha hb))

end Anf

end TermGraph
