import Mathlib
import TermGraph.Value.IndexTrie

/-!
# Index tries are finite maps

Zero is kept at the root, and every other number in the part of its last bit under its
half.  Two numbers of one part are equal if their halves are, so setting the value at a
number changes the trie at this number only.  What a trie holds after any insertions, and at
how many indices, then follows by induction on the insertions.
-/

namespace TermGraph

namespace IndexTrie

variable {α : Type}

/-! ## One insertion -/

theorem get?_node (value : Option α) (even odd : IndexTrie α) (n : Nat) :
    (node value even odd).get? n =
      if n = 0 then value else if n % 2 = 0 then even.get? (n / 2) else odd.get? (n / 2) :=
  rfl

theorem size_node (value : Option α) (even odd : IndexTrie α) :
    (node value even odd).size = value.toList.length + even.size + odd.size :=
  rfl

theorem insert_node (value : Option α) (even odd : IndexTrie α) (n : Nat) (a : α) :
    (node value even odd).insert n a =
      if n = 0 then node (some a) even odd
      else if n % 2 = 0 then node value (even.insert (n / 2) a) odd
      else node value even (odd.insert (n / 2) a) := by
  rw [insert]
  split <;> rfl

theorem insert_empty (n : Nat) (a : α) :
    (empty : IndexTrie α).insert n a = (node none empty empty).insert n a := by
  rw [insert, insert_node]
  split <;> rfl

/-- Induction on a trie and a number together, as insertion goes down: zero stays at the
root, any other number goes on with its half into the part of its last bit, and an empty
trie counts as a root without values. -/
theorem induct {P : IndexTrie α → Nat → Prop}
    (empty : ∀ n, P (node none .empty .empty) n → P .empty n)
    (zero : ∀ value even odd, P (node value even odd) 0)
    (even : ∀ value even odd n, n ≠ 0 → n % 2 = 0 → P even (n / 2) → P (node value even odd) n)
    (odd : ∀ value even odd n, n % 2 = 1 → P odd (n / 2) → P (node value even odd) n)
    (t : IndexTrie α) (n : Nat) : P t n := by
  induction n using Nat.strong_induction_on generalizing t with
  | _ n ih =>
      have hnode (value : Option α) (evens odds : IndexTrie α) : P (node value evens odds) n := by
        rcases Nat.eq_zero_or_pos n with rfl | hn
        · exact zero value evens odds
        · have hhalf : n / 2 < n := Nat.div_lt_self hn Nat.one_lt_two
          rcases Nat.mod_two_eq_zero_or_one n with hbit | hbit
          · exact even value evens odds n hn.ne' hbit (ih _ hhalf evens)
          · exact odd value evens odds n hbit (ih _ hhalf odds)
      cases t with
      | empty => exact empty n (hnode none .empty .empty)
      | node value evens odds => exact hnode value evens odds

/-- Only the index of an insertion changes its value: two numbers of one part are equal if
their halves are. -/
theorem get?_insert (t : IndexTrie α) (n : Nat) (a : α) (m : Nat) :
    (t.insert n a).get? m = if m = n then some a else t.get? m := by
  induction t, n using induct generalizing m with
  | empty n h =>
      rw [insert_empty, h]
      simp [get?]
  | zero value even odd =>
      rw [insert_node, if_pos rfl]
      by_cases hm : m = 0 <;> simp [get?_node, hm]
  | even value even odd n hn hbit h =>
      rw [insert_node, if_neg hn, if_pos hbit, get?_node, get?_node, h]
      split_ifs <;> first | rfl | omega
  | odd value even odd n hbit h =>
      rw [insert_node, if_neg (by omega), if_neg (by omega), get?_node, get?_node, h]
      split_ifs <;> first | rfl | omega

/-- A value is replaced where there is one, and added where there is none. -/
theorem size_insert (t : IndexTrie α) (n : Nat) (a : α) :
    (t.insert n a).size = if (t.get? n).isSome then t.size else t.size + 1 := by
  induction t, n using induct with
  | empty n h =>
      rw [insert_empty, h]
      simp [get?, size]
  | zero value even odd =>
      rw [insert_node, if_pos rfl, get?_node, if_pos rfl, size_node, size_node]
      cases value with
      | none => simp; omega
      | some b => simp
  | even value even odd n hn hbit h =>
      rw [insert_node, if_neg hn, if_pos hbit, get?_node, if_neg hn, if_pos hbit, size_node,
        size_node, h]
      split <;> omega
  | odd value even odd n hbit h =>
      have hn : n ≠ 0 := by omega
      have hodd : ¬n % 2 = 0 := by omega
      rw [insert_node, if_neg hn, if_neg hodd, get?_node, if_neg hn, if_neg hodd, size_node,
        size_node, h]
      split <;> omega

/-! ## Any insertions -/

/-- The trie after some insertions, first insertion first. -/
def ofEntries (entries : List (Nat × α)) : IndexTrie α :=
  entries.foldl (fun t p => t.insert p.1 p.2) empty

theorem ofEntries_concat (entries : List (Nat × α)) (n : Nat) (a : α) :
    ofEntries (entries ++ [(n, a)]) = (ofEntries entries).insert n a := by
  simp [ofEntries]

/-- An index has the value that has been inserted last. -/
theorem get?_ofEntries (entries : List (Nat × α)) (m : Nat) :
    (ofEntries entries).get? m = entries.reverse.lookup m := by
  induction entries using List.reverseRecOn with
  | nil => rfl
  | append_singleton entries p ih =>
      obtain ⟨n, a⟩ := p
      rw [ofEntries_concat, get?_insert, ih, List.reverse_append, List.reverse_singleton,
        List.singleton_append, List.lookup_cons]
      by_cases h : m = n
      · subst h
        rw [if_pos rfl, beq_self_eq_true]
      · rw [if_neg h, beq_false_of_ne h]

/-- An index has a value if something has been inserted at it. -/
theorem isSome_get?_ofEntries {entries : List (Nat × α)} {m : Nat} :
    ((ofEntries entries).get? m).isSome = true ↔ m ∈ entries.map (·.1) := by
  rw [get?_ofEntries, List.lookup_isSome_iff]
  simp only [List.mem_reverse, beq_iff_eq, List.mem_map, @eq_comm _ m]

theorem size_ofEntries (entries : List (Nat × α)) :
    (ofEntries entries).size = (entries.map (·.1)).toFinset.card := by
  induction entries using List.reverseRecOn with
  | nil => rfl
  | append_singleton entries p ih =>
      obtain ⟨n, a⟩ := p
      have hkeys : ((entries ++ [(n, a)]).map (·.1)).toFinset =
          Insert.insert n (entries.map (·.1)).toFinset := by
        ext m
        simp
      rw [ofEntries_concat, size_insert, hkeys, ih]
      split
      · rename_i hsome
        rw [Finset.insert_eq_of_mem (List.mem_toFinset.mpr (isSome_get?_ofEntries.mp hsome))]
      · rename_i hnone
        rw [Finset.card_insert_of_notMem]
        exact fun hmem => hnone (isSome_get?_ofEntries.mpr (List.mem_toFinset.mp hmem))

/-- An index trie is a finite map: after any insertions an index has the value inserted last
at it, there are as many values as different indices, and the trie is empty exactly if there
was no insertion. -/
theorem ofEntries_exact (entries : List (Nat × α)) :
    (∀ n, (ofEntries entries).get? n = entries.reverse.lookup n) ∧
      (ofEntries entries).size = (entries.map (·.1)).toFinset.card ∧
      ((ofEntries entries).isEmpty = true ↔ entries = []) := by
  refine ⟨get?_ofEntries entries, size_ofEntries entries, ?_⟩
  rw [isEmpty, decide_eq_true_iff, size_ofEntries, Finset.card_eq_zero, List.toFinset_eq_empty_iff,
    List.map_eq_nil_iff]

end IndexTrie

end TermGraph
