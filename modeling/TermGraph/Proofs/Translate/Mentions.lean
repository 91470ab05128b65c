import Mathlib
import TermGraph.Proofs.Term.Occurrences

/-!
# The constants that a target tree refers to

A target tree is built from some of the positions of a term: a full conditional shows
neither its type nor its partial applications, a vector literal shows its elements only, and
a recursor shows one case for each constructor.  A constant is shown by its name, so nothing
is shown of its type and its body.

Applications and chains of binders are translated as a whole, perhaps in several pieces
where a function or the rest of a chain has a name of its own.  What the pieces show is all
that the term shows.
-/

namespace TermGraph

namespace Store

/-- The positions of a node that its target tree is built from. -/
def shownParts (s : Store) : Node TermId → List TermId
  | .recursor _ params motive order cases =>
      params ++ motive :: order.filterMap fun ctor =>
        (cases.find? fun p => p.1 = ctor).map (·.2)
  | n => s.renderedChildren n

/-- A term shows another one through positions of positions. -/
def Shows (s : Store) : TermId → TermId → Prop :=
  Relation.ReflTransGen fun id c => c ∈ s.shownParts (s.node id)

/-- The target tree of a term refers to a constant of an identifier. -/
def Mentions (s : Store) (id : TermId) (ident : Ident) : Prop :=
  ∃ c ty body, s.Shows id c ∧ s.node c = .constant ident ty body

/-- The constants that a term mentions all belong to a set. -/
def Covered (s : Store) (F : Ident → Prop) (id : TermId) : Prop :=
  ∀ ident, s.Mentions id ident → F ident

variable {s : Store} {F : Ident → Prop}

theorem shownParts_subset (n : Node TermId) : s.shownParts n ⊆ s.renderedChildren n := by
  cases n with
  | recursor i params motive order cases =>
      intro c hc
      simp only [shownParts, List.mem_append, List.mem_cons, List.mem_filterMap,
        Option.map_eq_some_iff] at hc
      rcases hc with hc | hc | ⟨ctor, hctor, p, hp, rfl⟩
      · simp [renderedChildren, hc]
      · simp [renderedChildren, hc]
      · obtain rfl : p.1 = ctor := by simpa using List.find?_some hp
        simp only [renderedChildren, List.mem_append, List.mem_cons, List.mem_map,
          List.mem_filter, List.contains_iff_mem]
        exact Or.inr (Or.inr ⟨p, ⟨List.mem_of_find?_eq_some hp, hctor⟩, rfl⟩)
  | _ => exact List.Subset.refl _

/-- What is shown is reached. -/
theorem Shows.reaches {id c : TermId} (h : s.Shows id c) : s.Reaches id c := by
  induction h with
  | refl => exact .refl id
  | tail _ hc ih =>
      obtain ⟨d, hd⟩ := strictlyWithin_of_mem_renderedChildren (shownParts_subset _ hc)
      exact ih.trans hd.1.reaches

/-- A term mentions itself, if it is a constant, and what its positions mention. -/
theorem covered_iff {id : TermId} : s.Covered F id ↔
    (∀ ident ty body, s.node id = .constant ident ty body → F ident) ∧
      ∀ c ∈ s.shownParts (s.node id), s.Covered F c := by
  constructor
  · intro h
    refine ⟨fun ident ty body hnode => h ident ⟨id, ty, body, .refl, hnode⟩,
      fun c hc ident hm => ?_⟩
    obtain ⟨c', ty, body, hshows, hnode⟩ := hm
    exact h ident ⟨c', ty, body, .head hc hshows, hnode⟩
  · rintro ⟨hself, hparts⟩ ident ⟨c, ty, body, hshows, hnode⟩
    rcases Relation.ReflTransGen.cases_head hshows with rfl | ⟨b, hb, hrest⟩
    · exact hself ident ty body hnode
    · exact hparts b hb ident ⟨c, ty, body, hrest, hnode⟩

/-- A constant mentions itself only. -/
theorem covered_constant {id : TermId} {ident : Ident} {ty : TermId} {body : Option TermId}
    (hnode : s.node id = .constant ident ty body) (h : F ident) : s.Covered F id := by
  refine covered_iff.mpr ⟨fun ident' ty' body' hnode' => ?_, ?_⟩
  · rw [hnode] at hnode'
    cases hnode'
    exact h
  · rw [hnode]
    intro c hc
    cases hc

/-! ## Applications -/

/-- A spine that may stop at some functions is the whole spine, or it stops at one of them,
and the whole spine goes on from there. -/
theorem spine_eq_or_extends (stop : TermId → Bool) (id : TermId) :
    s.spine id = s.spineUntil stop id ∨ stop (s.spineUntil stop id).1 = true ∧
      s.spine id = ((s.spine (s.spineUntil stop id).1).1,
        (s.spine (s.spineUntil stop id).1).2 ++ (s.spineUntil stop id).2) := by
  have hnone : ∀ c < id, (fun _ => false) c = true → stop c = true := by simp
  rcases spineUntil_eq_or_extends (s := s) hnone with heq | ⟨hstop, -, hextends⟩
  · exact Or.inl heq
  · exact Or.inr ⟨hstop, hextends.trans (spineOnto_eq_append _ _ _)⟩

theorem isConditional_iff {head : TermId} :
    s.isConditional head = true ↔ s.node head = .global (.prelude "ite") := by
  rw [isConditional, decide_eq_true_eq, asGlobal?]
  split
  · rename_i ident hnode
    simp [hnode]
  · rename_i hnot
    exact ⟨fun h => (by cases h), fun h => absurd h (hnot _)⟩

/-- A conditional with all of its arguments. -/
def isFullConditional (s : Store) (id : TermId) : Bool :=
  s.isConditional (s.spine id).1 && 4 ≤ (s.spine id).2.length

theorem shownParts_app {id f a : TermId} (hnode : s.node id = .app f a) :
    s.shownParts (s.node id) =
      if s.isFullConditional id then (s.spine id).2.drop 1 else [f, a] := by
  simp only [hnode, shownParts, renderedChildren, isFullConditional, spine_app hnode,
    List.length_append, List.length_singleton]

/-- The function of an application that is not a full conditional is not one either: it has
the same head and fewer arguments. -/
theorem not_isFullConditional_fn {id f a : TermId} (hnode : s.node id = .app f a)
    (h : ¬s.isFullConditional id = true) : ¬s.isFullConditional f = true := by
  simp only [isFullConditional, spine_app hnode, List.length_append, Bool.and_eq_true,
    decide_eq_true_eq, not_and] at h ⊢
  intro hhead
  have := h hhead
  omega

/-- The head of an application is not one. -/
theorem node_spine_ne_app (id : TermId) (f a : TermId) : s.node (s.spine id).1 ≠ .app f a := by
  induction id using app_induction (s := s) with
  | app hnode ih =>
      rw [spine_app hnode]
      exact ih
  | other hnot =>
      rw [spine_of_not_app hnot]
      exact hnot f a

/-- What an application mentions, by its head and its arguments. -/
theorem covered_iff_spine (id : TermId) : s.Covered F id ↔
    if s.isFullConditional id then ∀ b ∈ (s.spine id).2.drop 1, s.Covered F b
    else s.Covered F (s.spine id).1 ∧ ∀ b ∈ (s.spine id).2, s.Covered F b := by
  induction id using app_induction (s := s) with
  | @app id f a hnode ih =>
      have hself : s.Covered F id ↔ ∀ c ∈ s.shownParts (s.node id), s.Covered F c := by
        rw [covered_iff]
        simp [hnode]
      rw [hself, shownParts_app hnode]
      by_cases hfull : s.isFullConditional id = true
      · simp [hfull]
      · rw [if_neg (not_isFullConditional_fn hnode hfull)] at ih
        simp [hfull, ih, spine_app hnode, or_imp, forall_and, and_assoc]
  | other hnot => simp [isFullConditional, spine_of_not_app hnot]

/-- An application mentions nothing else than its pieces do, wherever it is cut. -/
theorem covered_of_spineUntil (stop : TermId → Bool) {id : TermId}
    (hhead : s.Covered F (s.spineUntil stop id).1)
    (hargs : ∀ b ∈ (s.spineUntil stop id).2, s.Covered F b) : s.Covered F id := by
  rw [covered_iff_spine]
  have hfewer : ∀ c < id, (fun _ => false : TermId → Bool) c = true → stop c = true := by simp
  rcases spineUntil_eq_or_extends (s := s) hfewer with heq | ⟨-, -, hextends⟩
  · -- Nothing is cut off.
    rw [spine, heq]
    split
    · exact fun b hb => hargs b (List.mem_of_mem_drop hb)
    · exact ⟨hhead, hargs⟩
  · generalize s.spineUntil stop id = cut at hhead hargs hextends
    obtain ⟨head, args⟩ := cut
    dsimp only at hhead hargs hextends
    have hspine : s.spine id = ((s.spine head).1, (s.spine head).2 ++ args) := by
      rw [spine, hextends, spineOnto_eq_append, spine]
    rw [covered_iff_spine] at hhead
    by_cases hcut : s.isFullConditional head = true
    · -- The head is a full conditional already, and more arguments keep it one.
      rw [if_pos hcut] at hhead
      simp only [isFullConditional, Bool.and_eq_true, decide_eq_true_eq] at hcut
      have hfull : s.isFullConditional id = true := by
        simp only [isFullConditional, hspine, hcut.1, List.length_append, Bool.true_and,
          decide_eq_true_eq]
        omega
      rw [if_pos hfull, hspine, List.drop_append_of_le_length (by omega)]
      intro b hb
      rcases List.mem_append.mp hb with hb | hb
      · exact hhead b hb
      · exact hargs b hb
    · rw [if_neg hcut] at hhead
      have hall : ∀ b ∈ (s.spine id).2, s.Covered F b := by
        rw [hspine]
        intro b hb
        rcases List.mem_append.mp hb with hb | hb
        · exact hhead.2 b hb
        · exact hargs b hb
      split
      · exact fun b hb => hall b (List.mem_of_mem_drop hb)
      · rw [hspine] at hall ⊢
        exact ⟨hhead.1, hall⟩

/-- A full conditional mentions what its arguments after the type mention. -/
theorem covered_of_conditional {stop : TermId → Bool} {id head ty c t e : TermId}
    {rest : List TermId} (hspine : s.spineUntil stop id = (head, ty :: c :: t :: e :: rest))
    (hhead : s.node head = .global (.prelude "ite"))
    (h : ∀ b ∈ c :: t :: e :: rest, s.Covered F b) : s.Covered F id := by
  have hwhole : s.spine id = (head, ty :: c :: t :: e :: rest) := by
    rcases spineUntil_app_or_eq (s := s) stop id with ⟨f, a, hnode⟩ | heq
    · rw [hspine, hhead] at hnode
      cases hnode
    · rw [← heq, hspine]
  have hfull : s.isFullConditional id = true := by
    simp [isFullConditional, hwhole, isConditional_iff.mpr hhead]
  rw [covered_iff_spine, if_pos hfull, hwhole]
  exact h

/-! ## Chains of binders -/

/-- The types of a chain and what follows them are older than the type. -/
theorem lt_of_piLayers {id ty b : TermId} {x : String} (hnode : s.node id = .pi x ty b)
    (stop : TermId → Bool) :
    (∀ l ∈ (s.piLayers stop id).1, l.type < id) ∧ (s.piLayers stop id).2 < id :=
  (s.chain_piLayers stop id).lt (by simp [piLayers_of_node hnode])

/-- The types of a chain and what follows them are older than the function. -/
theorem lt_of_lamLayers {id ty b : TermId} {x : String} (hnode : s.node id = .lam x ty b)
    (stop : TermId → Bool) :
    (∀ l ∈ (s.lamLayers stop id).1, l.type < id) ∧ (s.lamLayers stop id).2 < id :=
  (s.chain_lamLayers stop id).lt (by simp [lamLayers_of_node hnode])

theorem shownParts_of_binds {k : ChainKind} {id : TermId} {l : Layer} (h : s.Binds k id l) :
    s.shownParts (s.node id) = [l.type, l.body] := by
  cases h with
  | pi h | lam h => rw [h]; rfl

/-- A node mentions what the types of a chain that starts at it and what follows them
mention. -/
theorem covered_of_chain {k : ChainKind} {stop : TermId → Bool} {id last : TermId}
    {layers : List Layer} (h : s.Chain k stop id layers last)
    (htypes : ∀ l ∈ layers, s.Covered F l.type) (hlast : s.Covered F last) : s.Covered F id := by
  induction h with
  | nil => exact hlast
  | @cons id last l layers _ hl _ ih =>
      obtain ⟨htype, htypes⟩ := List.forall_mem_cons.mp htypes
      rw [covered_iff, shownParts_of_binds hl]
      refine ⟨?_, by simpa using ⟨htype, ih htypes hlast⟩⟩
      cases hl with
      | pi h | lam h => simp [h]

/-- A type mentions what its chain mentions. -/
theorem covered_of_piChain (ty : TermId) (htypes : ∀ d ∈ (s.piChain ty).1.map (·.2), s.Covered F d)
    (hlast : s.Covered F (s.piChain ty).2) : s.Covered F ty := by
  refine covered_of_chain (s.chain_piLayers (fun _ => false) ty) (fun l hl => htypes l.type ?_) hlast
  simp only [piChain, List.map_map]
  exact List.mem_map_of_mem hl

/-! ## Definitions -/

/-- The terms that the definition of a name is built from.  Where the binders of the body
become parameters, they have the types that the type gives them. -/
def definitionParts (s : Store) (ty body : TermId) : List TermId :=
  let (pis, _) := s.piChain ty
  let (lams, inner) := s.lamChain body
  if pis.isEmpty || pis.length ≠ lams.length then [ty, body] else [ty, inner]

/-- The terms that the declaration of a constant is built from. -/
def declarationParts (s : Store) (ty : TermId) : Option TermId → List TermId
  | some body => s.definitionParts ty body
  | none => [ty]

theorem le_of_mem_definitionParts {ty body c : TermId} (hc : c ∈ s.definitionParts ty body) :
    c ≤ ty ∨ c ≤ body := by
  have hinner := (within_lamChain s body).2.reaches.le
  simp only [definitionParts] at hc
  split at hc <;> simp only [List.mem_cons, List.not_mem_nil, or_false] at hc
  · exact hc.imp le_of_eq le_of_eq
  · exact hc.imp le_of_eq fun h => h.trans_le hinner

theorem lt_of_mem_declarationParts {ty limit c : TermId} {body : Option TermId}
    (hlt : ∀ p ∈ ty :: body.toList, p < limit) (hc : c ∈ s.declarationParts ty body) :
    c < limit := by
  have hty := hlt ty (by simp)
  cases body with
  | none => simpa [declarationParts, ← List.mem_singleton.mp hc] using hty
  | some body =>
      have hbody := hlt body (by simp)
      exact (le_of_mem_definitionParts hc).elim hty.trans_le' hbody.trans_le'

end Store

end TermGraph
