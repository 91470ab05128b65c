/-!
# Strictly ascending lists

Finite sets of natural numbers are kept as strictly ascending lists, so that
equal sets are equal lists.  `unionAsc` is their union: it has the elements of
both lists, and it is strictly ascending when both are.  `searchAsc` looks a number
up by halving, which is right on a strictly ascending list only.
-/

namespace TermGraph

/-- Strictly ascending: every element is below all later ones. -/
def Ascending (xs : List Nat) : Prop :=
  xs.Pairwise (· < ·)

/-- The union of two ascending lists, by merging; an element of both lists is
kept once. -/
def unionAsc : List Nat → List Nat → List Nat
  | [], ys => ys
  | x :: xs, [] => x :: xs
  | x :: xs, y :: ys =>
      if x < y then x :: unionAsc xs (y :: ys)
      else if y < x then y :: unionAsc (x :: xs) ys
      else x :: unionAsc xs ys
termination_by xs ys => xs.length + ys.length

/-- Whether a number is in a strictly ascending list, by halving the piece that it can
be in until one element is left. -/
def searchAsc (xs : List Nat) (x : Nat) : Bool :=
  let half := xs.length / 2
  if _ : half = 0 then xs.head? == some x
  else if xs.getD half 0 ≤ x then searchAsc (xs.drop half) x
  else searchAsc (xs.take half) x
termination_by xs.length

theorem mem_unionAsc {a : Nat} {xs ys : List Nat} :
    a ∈ unionAsc xs ys ↔ a ∈ xs ∨ a ∈ ys := by
  fun_induction unionAsc xs ys with
  | case1 ys => simp
  | case2 x xs => simp
  | case3 x xs y ys hlt ih => simp [ih, or_assoc]
  | case4 x xs y ys hlt hgt ih => simp [ih]; grind
  | case5 x xs y ys hlt hgt ih =>
      have hxy : x = y := by omega
      subst hxy
      simp [ih]; grind

theorem ascending_unionAsc {xs ys : List Nat} (hx : Ascending xs) (hy : Ascending ys) :
    Ascending (unionAsc xs ys) := by
  unfold Ascending at *
  fun_induction unionAsc xs ys with
  | case1 ys => exact hy
  | case2 x xs => exact hx
  | case3 x xs y ys hlt ih =>
      refine List.pairwise_cons.2 ⟨fun a ha => ?_, ih (List.pairwise_cons.1 hx).2 hy⟩
      rcases mem_unionAsc.1 ha with ha | ha
      · exact (List.pairwise_cons.1 hx).1 a ha
      · rcases List.mem_cons.1 ha with rfl | ha
        · exact hlt
        · exact Nat.lt_trans hlt ((List.pairwise_cons.1 hy).1 a ha)
  | case4 x xs y ys hlt hgt ih =>
      refine List.pairwise_cons.2 ⟨fun a ha => ?_, ih hx (List.pairwise_cons.1 hy).2⟩
      rcases mem_unionAsc.1 ha with ha | ha
      · rcases List.mem_cons.1 ha with rfl | ha
        · exact hgt
        · exact Nat.lt_trans hgt ((List.pairwise_cons.1 hx).1 a ha)
      · exact (List.pairwise_cons.1 hy).1 a ha
  | case5 x xs y ys hlt hgt ih =>
      have hxy : x = y := by omega
      subst hxy
      refine List.pairwise_cons.2
        ⟨fun a ha => ?_, ih (List.pairwise_cons.1 hx).2 (List.pairwise_cons.1 hy).2⟩
      rcases mem_unionAsc.1 ha with ha | ha
      · exact (List.pairwise_cons.1 hx).1 a ha
      · exact (List.pairwise_cons.1 hy).1 a ha

/-- The elements stand in the order of their places. -/
theorem getElem_le_iff {xs : List Nat} (h : Ascending xs) {i j : Nat} (hi : i < xs.length)
    (hj : j < xs.length) : xs[i] ≤ xs[j] ↔ i ≤ j := by
  have hlt := List.pairwise_iff_getElem.1 h
  constructor
  · intro hle
    by_cases hji : j < i
    · have := hlt j i hj hi hji
      omega
    · omega
  · intro hle
    by_cases hij : i = j
    · subst hij
      exact Nat.le_refl _
    · exact Nat.le_of_lt (hlt i j hi hj (by omega))

/-- Halving finds exactly the elements: the middle says on which side to go on. -/
theorem searchAsc_iff {xs : List Nat} {x : Nat} (h : Ascending xs) :
    searchAsc xs x = true ↔ x ∈ xs := by
  fun_induction searchAsc xs x with
  | case1 xs half hhalf =>
      have hlength : xs.length ≤ 1 := by omega
      match xs, hlength with
      | [], _ => simp
      | [y], _ =>
          rw [List.head?_cons, List.mem_singleton, beq_iff_eq, Option.some.injEq]
          exact eq_comm
  | case2 xs half hhalf hle ih =>
      have hlt : half < xs.length := by omega
      rw [ih (List.Pairwise.sublist (List.drop_sublist half xs) h)]
      constructor
      · exact List.mem_of_mem_drop
      · intro hx
        obtain ⟨i, hi, rfl⟩ := List.mem_iff_getElem.1 hx
        rw [List.getD_eq_getElem?_getD, List.getElem?_eq_getElem hlt, Option.getD_some,
          getElem_le_iff h hlt hi] at hle
        exact List.mem_drop_iff_getElem.2 ⟨i - half, by omega, by simp [Nat.add_sub_cancel' hle]⟩
  | case3 xs half hhalf hgt ih =>
      have hlt : half < xs.length := by omega
      rw [ih (List.Pairwise.sublist (List.take_sublist half xs) h)]
      constructor
      · exact List.mem_of_mem_take
      · intro hx
        obtain ⟨i, hi, rfl⟩ := List.mem_iff_getElem.1 hx
        rw [List.getD_eq_getElem?_getD, List.getElem?_eq_getElem hlt, Option.getD_some,
          getElem_le_iff h hlt hi] at hgt
        exact List.mem_take_iff_getElem.2 ⟨i, by omega, rfl⟩

end TermGraph
