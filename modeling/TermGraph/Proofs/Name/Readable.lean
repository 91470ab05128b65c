import Mathlib
import TermGraph.Proofs.Name.Dots

/-!
# Names as they are written

A text is the dotted text of exactly one list of parts without dots.  So a module name and
an identifier are read back from their texts as they are, as long as they have the parts
that their readers ask for, and the readers accept nothing but such texts.

Texts are cut by `List.splitOn` here, which is what `splitDots` computes.
-/

namespace TermGraph

/-! ## Cutting and joining -/

theorem splitDots_eq_splitOn (l : List Char) : splitDots l = l.splitOn '.' := by
  induction l with
  | nil => rfl
  | cons c rest ih =>
      obtain ⟨part, parts, hrest, hcons⟩ := splitDots_cons c rest
      rw [ih] at hrest
      rw [hcons, List.splitOn_cons_eq_if_modifyHead, ← hrest]
      simp [hrest]

theorem not_mem_of_mem_splitDots {l part : List Char} (h : part ∈ splitDots l) : '.' ∉ part := by
  induction l generalizing part with
  | nil =>
      rw [splitDots_nil, List.mem_singleton] at h
      simp [h]
  | cons c rest ih =>
      obtain ⟨first, parts, hrest, hcons⟩ := splitDots_cons c rest
      rw [hrest] at ih
      have hfirst : '.' ∉ first := ih List.mem_cons_self
      rw [hcons] at h
      split at h
      · rcases List.mem_cons.mp h with rfl | hmem
        · simp
        · exact ih hmem
      · rename_i hc
        rcases List.mem_cons.mp h with rfl | hmem
        · simpa [hfirst] using Ne.symm hc
        · exact ih (List.mem_cons_of_mem _ hmem)

/-- Joining gives back the text that was cut. -/
theorem joinDots_splitDots (s : String) :
    joinDots ((splitDots s.toList).map String.ofList) = s := by
  have hparts : ((splitDots s.toList).map String.ofList).map String.toList =
      s.toList.splitOn '.' := by
    rw [List.map_map, ← splitDots_eq_splitOn]
    simp [Function.comp_def]
  rw [← String.toList_inj, joinDots, String.toList_intercalate, hparts]
  exact List.intercalate_splitOn '.'

/-- A last part stands behind a dot. -/
theorem joinDots_concat {parts : List String} (hne : parts ≠ []) (last : String) :
    joinDots (parts ++ [last]) = joinDots parts ++ "." ++ last := by
  induction parts with
  | nil => exact absurd rfl hne
  | cons part parts ih =>
      cases parts with
      | nil => simp [joinDots, String.intercalate_cons_cons]
      | cons next parts =>
          simp only [joinDots, List.cons_append, String.intercalate_cons_cons] at ih ⊢
          rw [ih (List.cons_ne_nil _ _)]
          simp only [String.append_assoc]

/-- A text that can stand between dots. -/
structure IsPart (s : String) : Prop where
  ne_empty : s ≠ ""
  dot_not_mem : '.' ∉ s.toList

theorem isPart_ofList {s : List Char} {part : List Char} (h : part ∈ splitDots s)
    (hne : part ≠ []) : IsPart (String.ofList part) where
  ne_empty := by simpa using hne
  dot_not_mem := by simpa using not_mem_of_mem_splitDots h

/-- A text is the dotted text of a list of parts exactly if these are what it is cut into. -/
theorem joinDots_eq_iff {parts : List String} (hne : parts ≠ []) (hparts : ∀ p ∈ parts, IsPart p)
    {s : String} : joinDots parts = s ↔ splitDots s.toList = parts.map String.toList := by
  constructor
  · rintro rfl
    exact splitDots_joinDots hne fun p hp => (hparts p hp).dot_not_mem
  · intro hsplit
    rw [← joinDots_splitDots s, hsplit, List.map_map]
    simp [Function.comp_def]

/-! ## Module names -/

namespace ModuleName

/-- A module name with at least one component, all of which can stand between dots. -/
structure IsReadable (m : ModuleName) : Prop where
  components_ne_nil : m.components ≠ []
  isPart : ∀ c ∈ m.components, IsPart c

/-- Reading a module name accepts the texts of readable module names and gives these. -/
theorem parse_eq_ok_iff {s : String} {m : ModuleName} :
    parse s = .ok m ↔ m.IsReadable ∧ m.text = s := by
  have hcut := joinDots_splitDots s
  constructor
  · intro h
    simp only [parse] at h
    split at h
    · cases h
    · rename_i hany
      have hne : [] ∉ splitDots s.toList := by simpa using hany
      obtain rfl := Except.ok.inj h
      refine ⟨⟨by simpa using splitDots_ne_nil _, ?_⟩, hcut⟩
      intro c hc
      obtain ⟨part, hpart, rfl⟩ := List.mem_map.mp hc
      exact isPart_ofList hpart (ne_of_mem_of_not_mem hpart hne)
  · rintro ⟨hm, htext⟩
    have hsplit := (joinDots_eq_iff hm.components_ne_nil hm.isPart).mp htext
    have hany : ¬(m.components.map String.toList).any List.isEmpty = true := by
      intro hany
      obtain ⟨c, hc, hempty⟩ : ∃ c ∈ m.components, c = "" := by simpa using hany
      exact (hm.isPart c hc).ne_empty hempty
    simp only [parse, hsplit, if_neg hany]
    simp [Function.comp_def]

end ModuleName

/-! ## Identifiers -/

namespace Ident

/-- An identifier with a readable module and a name that can stand behind a dot. -/
structure IsReadable (i : Ident) : Prop where
  module : i.module.IsReadable
  name : IsPart i.name

/-- The parts of an identifier, the name last. -/
def parts (i : Ident) : List String :=
  i.module.components ++ [i.name]

theorem IsReadable.isPart {i : Ident} (h : i.IsReadable) : ∀ p ∈ i.parts, IsPart p := by
  intro p hp
  rcases List.mem_append.mp hp with hmem | hmem
  · exact h.module.isPart p hmem
  · exact (List.mem_singleton.mp hmem) ▸ h.name

theorem IsReadable.text_eq {i : Ident} (h : i.IsReadable) : i.text = joinDots i.parts :=
  (joinDots_concat h.module.components_ne_nil i.name).symm

theorem IsReadable.splitDots_eq {i : Ident} (h : i.IsReadable) :
    splitDots i.text.toList = i.parts.map String.toList :=
  (joinDots_eq_iff (by simp [parts]) h.isPart).mp h.text_eq.symm

/-- Reading an identifier accepts the texts of readable identifiers and gives these. -/
theorem parse_eq_ok_iff {s : String} {i : Ident} :
    parse s = .ok i ↔ i.IsReadable ∧ i.text = s := by
  constructor
  · intro h
    simp only [parse] at h
    split at h
    · rename_i name part rest hreverse
      split at h
      · cases h
      · rename_i hname
        have hsplit : splitDots s.toList = (part :: rest).reverse ++ [name] := by
          rw [← List.reverse_cons, ← hreverse, List.reverse_reverse]
        cases hmodule : ModuleName.parse (joinDots ((part :: rest).reverse.map String.ofList)) with
        | error err =>
            rw [hmodule] at h
            cases h
        | ok m =>
            rw [hmodule] at h
            obtain rfl := Except.ok.inj h
            obtain ⟨hm, htext⟩ := ModuleName.parse_eq_ok_iff.mp hmodule
            have hpart : IsPart (String.ofList name) :=
              isPart_ofList (by rw [hsplit]; simp) (by simpa using hname)
            refine ⟨⟨hm, hpart⟩, ?_⟩
            rw [text, htext, ← joinDots_concat (by simp), ← joinDots_splitDots s, hsplit,
              List.map_append, List.map_singleton]
    · cases h
  · rintro ⟨hi, rfl⟩
    have hreverse : (splitDots i.text.toList).reverse =
        i.name.toList :: (i.module.components.map String.toList).reverse := by
      rw [hi.splitDots_eq, parts, List.map_append, List.reverse_append]
      rfl
    -- there is a module part, as the module has a component
    obtain ⟨part, rest, hmodule⟩ := List.exists_cons_of_ne_nil
      (l := (i.module.components.map String.toList).reverse)
      (by simpa using hi.module.components_ne_nil)
    have hpath : joinDots ((part :: rest).reverse.map String.ofList) = i.module.text := by
      rw [← hmodule, List.reverse_reverse, List.map_map, ModuleName.text]
      simp [Function.comp_def]
    have hname : i.name.toList.isEmpty = false := by
      simpa using hi.name.ne_empty
    rw [hmodule] at hreverse
    simp only [parse, hreverse, hname, Bool.false_eq_true, if_false, hpath,
      ModuleName.parse_eq_ok_iff.mpr ⟨hi.module, rfl⟩]
    simp

end Ident

/-! ## The format of a text -/

/-- Reading and writing of dotted names with at least so many parts: what is accepted, that
what was read is written as it was, and that what can be read is read as it was written. -/
structure DottedFormat {α : Type} (least : Nat) (readable : α → Prop)
    (parse : String → Except NameError α) (text : α → String) : Prop where
  accepts_iff : ∀ s, (∃ a, parse s = .ok a) ↔
    least ≤ (s.toList.splitOn '.').length ∧ ∀ part ∈ s.toList.splitOn '.', part ≠ []
  text_of_parse : ∀ s a, parse s = .ok a → text a = s
  parse_text : ∀ a, readable a → parse (text a) = .ok a
  text_inj : ∀ a b, readable a → readable b → (text a = text b ↔ a = b)

section

variable {α : Type} {least : Nat} {readable : α → Prop} {parse : String → Except NameError α}
  {text : α → String}

/-- A reader that accepts the texts of readable names has the format if the parts of these
are the lists of parts that are long enough. -/
theorem DottedFormat.of_parts (parts : α → List String)
    (hparse : ∀ s a, parse s = .ok a ↔ readable a ∧ text a = s)
    (hparts : ∀ a, readable a → least ≤ (parts a).length ∧ (∀ p ∈ parts a, IsPart p) ∧
      splitDots (text a).toList = (parts a).map String.toList)
    (hname : ∀ ps : List String, least ≤ ps.length → (∀ p ∈ ps, IsPart p) →
      ∃ a, readable a ∧ text a = joinDots ps) :
    DottedFormat least readable parse text where
  accepts_iff s := by
    rw [← splitDots_eq_splitOn]
    constructor
    · rintro ⟨a, ha⟩
      obtain ⟨hread, rfl⟩ := (hparse s a).mp ha
      obtain ⟨hlen, hpart, hsplit⟩ := hparts a hread
      rw [hsplit, List.length_map]
      refine ⟨hlen, fun part hmem => ?_⟩
      obtain ⟨p, hp, rfl⟩ := List.mem_map.mp hmem
      simpa using (hpart p hp).ne_empty
    · rintro ⟨hlen, hne⟩
      obtain ⟨a, hread, htext⟩ := hname ((splitDots s.toList).map String.ofList)
        (by simpa using hlen) fun p hp => by
          obtain ⟨part, hmem, rfl⟩ := List.mem_map.mp hp
          exact isPart_ofList hmem (hne part hmem)
      exact ⟨a, (hparse s a).mpr ⟨hread, htext.trans (joinDots_splitDots s)⟩⟩
  text_of_parse s a h := ((hparse s a).mp h).2
  parse_text a h := (hparse (text a) a).mpr ⟨h, rfl⟩
  text_inj a b ha hb := by
    refine ⟨fun htext => ?_, fun h => h ▸ rfl⟩
    have hread : parse (text b) = .ok a := (hparse (text b) a).mpr ⟨ha, htext⟩
    exact Except.ok.inj (hread.symm.trans ((hparse (text b) b).mpr ⟨hb, rfl⟩))

end

theorem ModuleName.dottedFormat :
    DottedFormat 1 ModuleName.IsReadable ModuleName.parse ModuleName.text := by
  refine .of_parts ModuleName.components (fun s m => parse_eq_ok_iff) ?_ ?_
  · intro m hm
    exact ⟨List.length_pos_of_ne_nil hm.components_ne_nil, hm.isPart,
      (joinDots_eq_iff hm.components_ne_nil hm.isPart).mp rfl⟩
  · intro ps hlen hps
    exact ⟨⟨ps⟩, ⟨List.ne_nil_of_length_pos hlen, hps⟩, rfl⟩

theorem Ident.dottedFormat : DottedFormat 2 Ident.IsReadable Ident.parse Ident.text := by
  refine .of_parts Ident.parts (fun s i => parse_eq_ok_iff) ?_ ?_
  · intro i hi
    have hlen := List.length_pos_of_ne_nil hi.module.components_ne_nil
    exact ⟨by simp only [parts, List.length_append, List.length_singleton]; omega,
      hi.isPart, hi.splitDots_eq⟩
  · intro ps hlen hps
    have hne : ps ≠ [] := List.ne_nil_of_length_pos (by omega)
    obtain ⟨front, last, rfl⟩ : ∃ front last, ps = front ++ [last] :=
      ⟨_, _, (List.dropLast_append_getLast hne).symm⟩
    have hfront : front ≠ [] := by
      rintro rfl
      simp at hlen
    exact ⟨⟨⟨front⟩, last⟩,
      ⟨⟨hfront, fun c hc => hps c (List.mem_append_left _ hc)⟩, hps last (by simp)⟩,
      (joinDots_concat hfront last).symm⟩

/-- Identifiers and module names are written and read in the same format, identifiers with
at least two parts and module names with at least one. -/
theorem names_have_dotted_format :
    DottedFormat 2 Ident.IsReadable Ident.parse Ident.text ∧
      DottedFormat 1 ModuleName.IsReadable ModuleName.parse ModuleName.text :=
  ⟨Ident.dottedFormat, ModuleName.dottedFormat⟩

end TermGraph
