import Mathlib
import TermGraph.Name.Sanitize
import TermGraph.Name.Variant

/-!
# Fresh names are fresh

A variant of a name keeps what stands in front of its trailing digits and adds
one to the number they form.  The numbers of successive variants are therefore
all different, so among the first `n + 1` variants one lies outside any set of
`n` names, and the bounded search finds the first of them.

Sanitised texts and all their variants are output names: words of letters,
digits, underscores and apostrophes.  In particular they have no dot.
-/

namespace TermGraph

/-! ## The number at the end of a name -/

/-- The number that decimal digits form, least significant digit first. -/
def digitsValue : List Char → Nat
  | [] => 0
  | d :: ds => (d.toNat - 48) + 10 * digitsValue ds

/-- The digits at the end of a name, last digit first. -/
def trailingDigits (name : List Char) : List Char :=
  name.reverse.takeWhile Char.isDigit

/-- What stands in front of the digits at the end of a name. -/
def stem (name : List Char) : List Char :=
  (name.reverse.dropWhile Char.isDigit).reverse

theorem isDigit_iff_toNat {c : Char} : c.isDigit = true ↔ 48 ≤ c.toNat ∧ c.toNat ≤ 57 := by
  simp only [Char.isDigit, Bool.and_eq_true, decide_eq_true_eq, ge_iff_le,
    UInt32.le_iff_toNat_le]
  exact Iff.rfl

/-- The digit after a digit other than nine. -/
theorem toNat_succ_digit {d : Char} (hd : d.isDigit = true) (h9 : d ≠ '9') :
    (Char.ofNat (d.toNat + 1)).toNat = d.toNat + 1 ∧ d.toNat < 57 := by
  have hrange := isDigit_iff_toNat.mp hd
  have hne : d.toNat ≠ 57 := by
    intro h
    apply h9
    have h' : d.toNat = '9'.toNat := h
    exact Char.toNat_inj.mp h'
  have hlt : d.toNat < 57 := by omega
  refine ⟨?_, hlt⟩
  rw [Char.toNat_ofNat, if_pos]
  left
  omega

theorem succDigits_isDigit {ds : List Char} (h : ∀ d ∈ ds, d.isDigit = true) :
    ∀ d ∈ succDigits ds, d.isDigit = true := by
  induction ds with
  | nil => simp [succDigits]
  | cons d ds ih =>
      have hd := h d (by simp)
      have hds : ∀ d ∈ ds, d.isDigit = true := fun x hx => h x (by simp [hx])
      by_cases h9 : d = '9'
      · simp only [succDigits, h9, if_true, List.mem_cons, forall_eq_or_imp]
        exact ⟨by decide, ih hds⟩
      · simp only [succDigits, h9, if_false, List.mem_cons, forall_eq_or_imp]
        refine ⟨?_, hds⟩
        obtain ⟨hval, hlt⟩ := toNat_succ_digit hd h9
        rw [isDigit_iff_toNat, hval]
        have := isDigit_iff_toNat.mp hd
        omega

/-- The digits of the next number. -/
theorem digitsValue_succDigits {ds : List Char} (h : ∀ d ∈ ds, d.isDigit = true) :
    digitsValue (succDigits ds) = digitsValue ds + 1 := by
  induction ds with
  | nil => rfl
  | cons d ds ih =>
      have hd := h d (by simp)
      have hds : ∀ d ∈ ds, d.isDigit = true := fun x hx => h x (by simp [hx])
      by_cases h9 : d = '9'
      · simp only [succDigits, h9, if_true, digitsValue, ih hds]
        have h0 : '0'.toNat = 48 := by decide
        have h9' : '9'.toNat = 57 := by decide
        omega
      · simp only [succDigits, h9, if_false, digitsValue]
        obtain ⟨hval, _⟩ := toNat_succ_digit hd h9
        have := isDigit_iff_toNat.mp hd
        omega

theorem trailingDigits_isDigit (name : List Char) :
    ∀ d ∈ trailingDigits name, d.isDigit = true :=
  fun _ hd => List.mem_takeWhile_imp hd

/-- The last characters of the next variant: the digits of the next number, and
then the stem unchanged. -/
theorem reverse_nextChars (name : List Char) :
    (nextChars name).reverse =
      succDigits (trailingDigits name) ++ name.reverse.dropWhile Char.isDigit := by
  simp [nextChars, trailingDigits]

theorem trailingDigits_nextChars (name : List Char) :
    trailingDigits (nextChars name) = succDigits (trailingDigits name) := by
  have hdigits := succDigits_isDigit (trailingDigits_isDigit name)
  rw [trailingDigits, reverse_nextChars, List.takeWhile_append_of_pos hdigits]
  have hrest : (name.reverse.dropWhile Char.isDigit).takeWhile Char.isDigit = [] := by
    have hparts := List.takeWhile_append_dropWhile (p := Char.isDigit)
      (l := name.reverse.dropWhile Char.isDigit)
    rw [List.dropWhile_idempotent] at hparts
    exact List.append_left_eq_self.mp hparts
  rw [hrest, List.append_nil]

/-- A name is its stem and then its trailing digits. -/
theorem stem_append_trailingDigits (name : List Char) :
    stem name ++ (trailingDigits name).reverse = name := by
  unfold stem trailingDigits
  rw [← List.reverse_append, List.takeWhile_append_dropWhile, List.reverse_reverse]

theorem stem_nextChars (name : List Char) : stem (nextChars name) = stem name := by
  have hdigits := succDigits_isDigit (trailingDigits_isDigit name)
  unfold stem
  rw [reverse_nextChars, List.dropWhile_append_of_pos hdigits]
  rw [List.dropWhile_idempotent]

/-- The number at the end of a name; a name without digits has number zero. -/
def suffixNumber (name : String) : Nat :=
  digitsValue (trailingDigits name.toList)

theorem suffixNumber_nextVariant (name : String) :
    suffixNumber (nextVariant name) = suffixNumber name + 1 := by
  unfold suffixNumber nextVariant
  rw [String.toList_ofList, trailingDigits_nextChars,
    digitsValue_succDigits (trailingDigits_isDigit _)]

-- Leading zeros stay while the number fits, and the digits grow by one when it does not.
example : nextVariant "x009" = "x010" ∧ nextVariant "x99" = "x100" := by decide

theorem suffixNumber_iterate (name : String) (k : Nat) :
    suffixNumber (nextVariant^[k] name) = suffixNumber name + k := by
  induction k with
  | zero => rfl
  | succ k ih =>
      rw [Function.iterate_succ_apply', suffixNumber_nextVariant, ih]
      omega

theorem stem_iterate (name : String) (k : Nat) :
    stem (nextVariant^[k] name).toList = stem name.toList := by
  induction k with
  | zero => rfl
  | succ k ih =>
      rw [Function.iterate_succ_apply', nextVariant, String.toList_ofList, stem_nextChars, ih]

/-- No name comes twice in the sequence of variants. -/
theorem iterate_nextVariant_injective (name : String) :
    Function.Injective fun k => nextVariant^[k] name := by
  intro j k h
  have hnum := congrArg suffixNumber h
  simp only [suffixNumber_iterate] at hnum
  omega

/-! ## The search for a free name -/

/-- The search stops at a variant with only taken ones before it, which is free
unless the search has run to its bound. -/
theorem firstFree_eq_iterate (isTaken : String → Bool) (bound : Nat) (name : String) :
    ∃ k, firstFree isTaken bound name = nextVariant^[k] name ∧
      (∀ j < k, isTaken (nextVariant^[j] name) = true) ∧
      (k = bound ∨ isTaken (nextVariant^[k] name) = false) := by
  induction bound generalizing name with
  | zero => exact ⟨0, rfl, by simp, Or.inl rfl⟩
  | succ bound ih =>
      by_cases h : isTaken name = true
      · obtain ⟨k, hk, hbefore, hstop⟩ := ih (nextVariant name)
        refine ⟨k + 1, ?_, ?_, ?_⟩
        · simp only [firstFree, h, if_true, hk]
          rfl
        · intro j hj
          cases j with
          | zero => exact h
          | succ j => exact hbefore j (by omega)
        · rcases hstop with hstop | hstop
          · exact Or.inl (by omega)
          · exact Or.inr hstop
      · refine ⟨0, ?_, by simp, Or.inr (by simpa using h)⟩
        simp [firstFree, h]

/-- A set of `n` names leaves one of the first `n + 1` variants free. -/
theorem exists_variant_not_mem (taken : Std.HashSet String) (base : String) :
    ∃ k ≤ taken.size, nextVariant^[k] base ∉ taken := by
  by_contra hall
  push Not at hall
  let variants := (List.range (taken.size + 1)).map fun k => nextVariant^[k] base
  have hnodup : variants.Nodup :=
    List.Nodup.map (iterate_nextVariant_injective base) List.nodup_range
  have hsub : variants ⊆ taken.toList := by
    intro x hx
    obtain ⟨k, hk, rfl⟩ := List.mem_map.mp hx
    rw [List.mem_range] at hk
    exact Std.HashSet.mem_toList.mpr (hall k (by omega))
  have hlen := (List.subperm_of_subset hnodup hsub).length_le
  rw [Std.HashSet.length_toList] at hlen
  simp [variants] at hlen

/-- A fresh variant is the first variant that is not taken; the bound of the search is
never what stops it. -/
theorem freshVariant_eq_iterate (taken : Std.HashSet String) (base : String) :
    ∃ k ≤ taken.size, freshVariant taken base = nextVariant^[k] base ∧
      nextVariant^[k] base ∉ taken ∧ ∀ j < k, nextVariant^[j] base ∈ taken := by
  obtain ⟨k, hk, hbefore, hstop⟩ := firstFree_eq_iterate taken.contains taken.size base
  have htaken : ∀ j < k, nextVariant^[j] base ∈ taken :=
    fun j hj => Std.HashSet.contains_iff_mem.mp (hbefore j hj)
  obtain ⟨j, hj, hfree⟩ := exists_variant_not_mem taken base
  have hkj : k ≤ j := not_lt.mp fun hlt => hfree (htaken j hlt)
  refine ⟨k, hkj.trans hj, hk, ?_, htaken⟩
  rcases hstop with hbound | hstop
  · rwa [show k = j by omega]
  · intro hmem
    rw [Std.HashSet.contains_iff_mem.mpr hmem] at hstop
    cases hstop

/-- Which variant is fresh depends on the taken names alone, and not on how their set was
built. -/
theorem freshVariant_congr {taken taken' : Std.HashSet String}
    (h : ∀ x, x ∈ taken' ↔ x ∈ taken) (base : String) :
    freshVariant taken' base = freshVariant taken base := by
  obtain ⟨k, -, hk, hfree, hbefore⟩ := freshVariant_eq_iterate taken base
  obtain ⟨k', -, hk', hfree', hbefore'⟩ := freshVariant_eq_iterate taken' base
  rw [hk, hk']
  rcases lt_trichotomy k' k with hlt | rfl | hlt
  · exact absurd ((h _).mpr (hbefore k' hlt)) hfree'
  · rfl
  · exact absurd ((h _).mp (hbefore' k hlt)) hfree

/-- A fresh variant is not taken. -/
theorem freshVariant_not_mem (taken : Std.HashSet String) (base : String) :
    freshVariant taken base ∉ taken := by
  obtain ⟨k, -, hk, hfree, -⟩ := freshVariant_eq_iterate taken base
  rwa [hk]

/-- A name that is not taken is its own fresh variant. -/
theorem freshVariant_eq_self {taken : Std.HashSet String} {base : String}
    (h : base ∉ taken) : freshVariant taken base = base := by
  have hfree : taken.contains base = false := by
    rw [Bool.eq_false_iff]
    exact fun hmem => h (Std.HashSet.contains_iff_mem.mp hmem)
  unfold freshVariant
  cases taken.size with
  | zero => rfl
  | succ n => simp [firstFree, hfree]

/-- The search for a free name ends at the first variant that is not taken, after no more
steps than there are taken names.  Along the variants no name comes twice, what stands in
front of the trailing digits stays, and the number that they form goes up by one. -/
theorem freshVariant_first_free (taken : Std.HashSet String) (base : String) :
    (∃ k ≤ taken.size, freshVariant taken base = nextVariant^[k] base ∧
        nextVariant^[k] base ∉ taken ∧ ∀ j < k, nextVariant^[j] base ∈ taken) ∧
      (Function.Injective fun k => nextVariant^[k] base) ∧
      ∀ k, stem (nextVariant^[k] base).toList = stem base.toList ∧
        suffixNumber (nextVariant^[k + 1] base) = suffixNumber (nextVariant^[k] base) + 1 := by
  refine ⟨freshVariant_eq_iterate taken base, iterate_nextVariant_injective base,
    fun k => ⟨stem_iterate base k, ?_⟩⟩
  rw [suffixNumber_iterate, suffixNumber_iterate, Nat.add_assoc]

/-! ## Output names -/

/-- A name that can stand in the output as one word. -/
structure IsOutputName (x : String) : Prop where
  isWordChar_of_mem : ∀ c ∈ x.toList, isWordChar c = true
  starts : ∃ c rest, x.toList = c :: rest ∧ isLateChar c = false
  ne_blank : x ≠ "_"

theorem isWordChar_of_isDigit {c : Char} (h : c.isDigit = true) : isWordChar c = true := by
  simp [isWordChar, Char.isAlphanum, h]

theorem isOutputName_sanitize (name : String) : IsOutputName (sanitize name) := by
  have hword : ∀ c ∈ (name.toList.map fun c => if isWordChar c then c else '_'),
      isWordChar c = true := by
    intro c hc
    obtain ⟨d, _, rfl⟩ := List.mem_map.mp hc
    by_cases hd : isWordChar d = true
    · rw [if_pos hd]
      exact hd
    · rw [if_neg hd]
      decide
  have hx : IsOutputName "x" :=
    ⟨by simp; decide, ⟨'x', [], rfl, by decide⟩, by decide⟩
  unfold sanitize sanitizeChars
  split
  · exact hx
  · exact hx
  · rename_i c rest hne heq
    rw [heq] at hword
    split
    · rename_i hlate
      refine ⟨?_, ⟨'x', c :: rest, by simp, by decide⟩, ?_⟩
      · simp only [String.toList_ofList, List.mem_cons, forall_eq_or_imp]
        exact ⟨by decide, hword c (by simp), fun d hd => hword d (by simp [hd])⟩
      · intro h
        have := congrArg String.toList h
        simp at this
    · rename_i hlate
      refine ⟨by simpa using hword, ⟨c, rest, by simp, by simpa using hlate⟩, ?_⟩
      intro h
      have hlist := congrArg String.toList h
      rw [String.toList_ofList] at hlist
      exact hne (List.cons.inj hlist).1 (List.cons.inj hlist).2

theorem succDigits_ne_nil (ds : List Char) : succDigits ds ≠ [] := by
  cases ds with
  | nil => simp [succDigits]
  | cons d ds =>
      simp only [succDigits]
      split <;> simp

theorem isOutputName_nextVariant {x : String} (h : IsOutputName x) :
    IsOutputName (nextVariant x) := by
  obtain ⟨c, rest, hx, hc⟩ := h.starts
  have hsplit : (nextVariant x).toList =
      stem x.toList ++ (succDigits (trailingDigits x.toList)).reverse := by
    simp [nextVariant, nextChars, stem, trailingDigits]
  have hback : x.toList = stem x.toList ++ (trailingDigits x.toList).reverse :=
    (stem_append_trailingDigits x.toList).symm
  have hdigits := succDigits_isDigit (trailingDigits_isDigit x.toList)
  -- The first character is no digit, so it belongs to the stem.
  obtain ⟨rest', hstem⟩ : ∃ rest', stem x.toList = c :: rest' := by
    cases hs : stem x.toList with
    | nil =>
        rw [hs, List.nil_append] at hback
        have hmem : c ∈ trailingDigits x.toList := by
          rw [← List.mem_reverse, ← hback, hx]
          exact List.mem_cons_self
        have hdig := trailingDigits_isDigit _ c hmem
        simp [isLateChar, hdig] at hc
    | cons d rest' =>
        rw [hs, hx] at hback
        exact ⟨rest', by rw [(List.cons.inj hback).1]⟩
  refine ⟨?_, ?_, ?_⟩
  · intro d hd
    rw [hsplit, List.mem_append, List.mem_reverse] at hd
    rcases hd with hd | hd
    · exact h.isWordChar_of_mem d (by rw [hback]; exact List.mem_append_left _ hd)
    · exact isWordChar_of_isDigit (hdigits d hd)
  · exact ⟨c, rest' ++ (succDigits (trailingDigits x.toList)).reverse,
      by rw [hsplit, hstem, List.cons_append], hc⟩
  · intro hblank
    have hlen := congrArg List.length hsplit
    have hone : (nextVariant x).toList.length = 1 := by rw [hblank]; rfl
    have hpos := List.length_pos_iff.mpr (succDigits_ne_nil (trailingDigits x.toList))
    rw [hone, hstem, List.length_append, List.length_reverse, List.length_cons] at hlen
    omega

theorem isOutputName_iterate {x : String} (h : IsOutputName x) (k : Nat) :
    IsOutputName (nextVariant^[k] x) := by
  induction k with
  | zero => exact h
  | succ k ih =>
      rw [Function.iterate_succ_apply']
      exact isOutputName_nextVariant ih

theorem isOutputName_freshVariant (taken : Std.HashSet String) {base : String}
    (h : IsOutputName base) : IsOutputName (freshVariant taken base) := by
  obtain ⟨k, -, hk, -, -⟩ := freshVariant_eq_iterate taken base
  rw [hk]
  exact isOutputName_iterate h k

/-- An output name has no dot. -/
theorem IsOutputName.dot_not_mem {x : String} (h : IsOutputName x) : '.' ∉ x.toList := by
  intro hdot
  have := h.isWordChar_of_mem '.' hdot
  revert this
  decide

end TermGraph
