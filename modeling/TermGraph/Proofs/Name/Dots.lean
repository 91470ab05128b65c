import Mathlib
import TermGraph.Name.Ident
import TermGraph.Target.Reserved

/-!
# Parts between dots

Cutting a text at its dots and joining the parts again.
-/

namespace TermGraph

@[simp] theorem splitDots_nil : splitDots [] = [[]] := rfl

theorem splitDots_ne_nil (l : List Char) : splitDots l ≠ [] := by
  cases l with
  | nil => simp
  | cons c rest =>
      rw [splitDots]
      split <;> [simp; (split <;> simp)]

theorem splitDots_cons (c : Char) (rest : List Char) :
    ∃ part parts, splitDots rest = part :: parts ∧
      splitDots (c :: rest) = if c = '.' then [] :: part :: parts else (c :: part) :: parts := by
  obtain ⟨part, parts, h⟩ := List.exists_cons_of_ne_nil (splitDots_ne_nil rest)
  exact ⟨part, parts, h, by rw [splitDots, h]⟩

theorem splitDots_of_not_mem {l : List Char} (h : '.' ∉ l) : splitDots l = [l] := by
  induction l with
  | nil => rfl
  | cons c rest ih =>
      obtain ⟨part, parts, hrest, heq⟩ := splitDots_cons c rest
      rw [ih fun hmem => h (List.mem_cons_of_mem _ hmem)] at hrest
      cases hrest
      rw [heq, if_neg]
      rintro rfl
      exact h List.mem_cons_self

/-- No reserved word has a dot. -/
theorem dot_not_mem_of_isReserved {name : String} (h : Target.isReserved name = true) :
    '.' ∉ name.toList := by
  have hnodot : ∀ w ∈ Target.reservedWords, '.' ∉ w.toList := by decide
  exact hnodot name (by simpa [Target.isReserved] using h)

theorem exists_part_of_mem {l : List Char} {c : Char} (h : c ∈ l) (hc : c ≠ '.') :
    ∃ part ∈ splitDots l, c ∈ part := by
  induction l with
  | nil => cases h
  | cons d rest ih =>
      obtain ⟨part, parts, hrest, heq⟩ := splitDots_cons d rest
      rw [heq]
      rw [hrest] at ih
      rcases List.mem_cons.mp h with rfl | hmem
      · rw [if_neg hc]
        exact ⟨c :: part, List.mem_cons_self, List.mem_cons_self⟩
      · obtain ⟨p, hp, hcp⟩ := ih hmem
        split
        · exact ⟨p, List.mem_cons_of_mem _ hp, hcp⟩
        · rcases List.mem_cons.mp hp with rfl | hp
          · exact ⟨d :: p, List.mem_cons_self, List.mem_cons_of_mem _ hcp⟩
          · exact ⟨p, List.mem_cons_of_mem _ hp, hcp⟩

/-- A text is cut at the dot between two other texts. -/
theorem splitDots_append_dot (front back : List Char) :
    splitDots (front ++ '.' :: back) = splitDots front ++ splitDots back := by
  induction front with
  | nil =>
      obtain ⟨part, parts, hback, heq⟩ := splitDots_cons '.' back
      rw [List.nil_append, heq, if_pos rfl, hback]
      rfl
  | cons c front ih =>
      obtain ⟨part, parts, hfront, heq⟩ := splitDots_cons c front
      obtain ⟨part', parts', hall, heq'⟩ := splitDots_cons c (front ++ '.' :: back)
      rw [ih, hfront] at hall
      cases hall
      rw [List.cons_append, heq', heq]
      split <;> rfl

/-- Cutting gives back the parts that were joined. -/
theorem splitDots_joinDots {parts : List String} (hne : parts ≠ [])
    (hdots : ∀ p ∈ parts, '.' ∉ p.toList) :
    splitDots (joinDots parts).toList = parts.map String.toList := by
  induction parts with
  | nil => exact absurd rfl hne
  | cons p parts ih =>
      obtain ⟨hp, hparts⟩ := List.forall_mem_cons.mp hdots
      cases parts with
      | nil => simpa [joinDots] using splitDots_of_not_mem hp
      | cons q parts =>
          have hrest := ih (by simp) hparts
          have htext : (joinDots (p :: q :: parts)).toList =
              p.toList ++ '.' :: (joinDots (q :: parts)).toList := by
            simp [joinDots, String.intercalate_cons_cons]
          rw [htext, splitDots_append_dot, splitDots_of_not_mem hp, hrest]
          rfl

end TermGraph
