import Mathlib
import TermGraph.Proofs.Translate.Entered
import TermGraph.Proofs.Translate.Lifting
import TermGraph.Proofs.Translate.Marks

/-!
# Sharing is not unfolded

A translation that leaves a mark at each node shows how often nodes are translated.  Within
a unit, a node is translated no more often than it is entered, since every position that a
node hands on is entered from there.  So a shared subterm is translated once, unless it is
part of something that is shared as well but has to be repeated at each of its uses.
-/

namespace TermGraph

open Target Store

/-! ## Positions that are handed on -/

namespace Store

/-- The recursors that a term reaches list each constructor once. -/
def ListsConstructorsOnce (s : Store) (top : TermId) : Prop :=
  ∀ c datatype params motive order cases, s.Reaches top c →
    s.node c = .recursor datatype params motive order cases → order.Nodup

section Handed

variable {s : Store} {named : TermId → Bool} {w : TermId → Nat}
  (hopen : ∀ c, named c = false → ((s.renderedChildren (s.node c)).map w).sum ≤ w c)

include hopen

/-- What a chain of binders hands on is entered from its first node. -/
theorem sum_chain_le {k : ChainKind} {id last : TermId} {layers : List Layer}
    (h : s.Chain k named id layers last) :
    ((layers.map (·.type) ++ [last]).map w).sum ≤ w id := by
  induction h with
  | nil => simp
  | @cons id last l layers hname hl _ ih =>
      have hself := hopen id hname
      have hchildren : s.renderedChildren (s.node id) = [l.type, l.body] := by
        cases hl with
        | pi h | lam h => rw [h]; rfl
      rw [hchildren] at hself
      simp only [List.map_cons, List.map_nil, List.sum_cons, List.sum_nil,
        List.cons_append] at hself ⊢
      omega

/-- What the spine of an application other than a full conditional hands on is entered from
the application. -/
theorem sum_spineUntil_le (id : TermId) : ∀ {f a : TermId}, s.node id = .app f a →
    ¬s.isFullConditional id = true →
      w (s.spineUntil named id).1 + ((s.spineUntil named id).2.map w).sum ≤ w f + w a := by
  -- The spine goes on in the function, which is not a full conditional either.
  induction id using app_induction (s := s) with
  | other hnot => exact fun hnode _ => absurd hnode (hnot _ _)
  | @app id f a hnode ih =>
      intro _ _ hself hfull
      cases hnode.symm.trans hself
      rw [spineUntil_app hnode]
      split
      · simp
      · rename_i hname
        have hfun : w (s.spineUntil named f).1 + ((s.spineUntil named f).2.map w).sum ≤ w f := by
          by_cases happ : ∃ g b, s.node f = .app g b
          · obtain ⟨g, b, hnode'⟩ := happ
            have hnot := not_isFullConditional_fn hnode hfull
            have hself := hopen f (by simpa using hname)
            have hparts := shownParts_app hnode'
            rw [hnode', if_neg hnot] at hparts
            rw [hnode', show s.renderedChildren (.app g b) = [g, b] from hparts] at hself
            exact (ih hnode' hnot).trans (by simpa using hself)
          · simp [spineUntil_of_not_app fun g b hnode' => happ ⟨g, b, hnode'⟩]
        simp only [List.map_append, List.map_cons, List.map_nil, List.sum_append, List.sum_cons,
          List.sum_nil]
        omega

/-- What an application hands on is entered from it. -/
theorem sum_handedByApp_le (hnamed : ∀ c, named c = true → w c = 0) {id f a : TermId}
    (hnode : s.node id = .app f a) :
    ((s.handedByApp named id).map w).sum ≤ ((s.renderedChildren (s.node id)).map w).sum := by
  have hrendered : s.renderedChildren (s.node id) =
      if s.isFullConditional id then (s.spine id).2.drop 1 else [f, a] := by
    rw [← shownParts_app hnode, hnode]
    rfl
  have hspine := sum_spineUntil_le hopen id hnode
  have hcut := spine_eq_or_extends (s := s) named id
  have happ := spineUntil_app_or_eq (s := s) named id
  rw [hrendered]
  unfold handedByApp
  generalize s.spineUntil named id = cut at hspine hcut happ ⊢
  obtain ⟨head, args⟩ := cut
  dsimp only at hspine hcut happ ⊢
  have hdrop : ((args.drop 1).map w).sum ≤ (args.map w).sum := by
    cases args <;> simp
  by_cases hfull : s.isFullConditional id = true
  · rw [if_pos hfull]
    rcases happ with ⟨g, b, hhead⟩ | heq
    · -- The spine ends in a named function, which has the type of the conditional.
      obtain ⟨hstop, hwhole⟩ := hcut.resolve_left fun heq =>
        node_spine_ne_app id g b (by rw [heq]; exact hhead)
      have hne : (s.spine head).2 ≠ [] := spineUntil_ne_nil hhead _
      obtain ⟨first, rest, hargs⟩ := List.exists_cons_of_ne_nil hne
      rw [hhead, hwhole, hargs]
      simp [hnamed head hstop]
    · -- The whole conditional.
      rw [← heq]
      rw [isFullConditional, ← heq] at hfull
      simp only [Bool.and_eq_true, decide_eq_true_eq] at hfull
      obtain ⟨hcond, hfour⟩ := hfull
      rw [isConditional_iff.mp hcond]
      simp [hfour]
  · have hle := hspine hfull
    rw [if_neg hfull]
    simp only [List.map_cons, List.map_nil, List.sum_cons, List.sum_nil, Nat.add_zero]
    split
    · split <;> omega
    · omega
    · rw [List.map_cons, List.sum_cons]
      exact hle

omit hopen in
/-- Different constructors have different cases. -/
theorem sum_firstCases_le (cases : List (Ident × TermId)) {order : List Ident}
    (horder : order.Nodup) :
    ((order.filterMap fun ctor => (cases.find? fun p => p.1 = ctor).map (·.2)).map w).sum ≤
      (((cases.filter fun p => order.contains p.1).map (·.2)).map w).sum := by
  have hfilter : ∀ order : List Ident,
      (((cases.filter fun p => order.contains p.1).map (·.2)).map w).sum =
        (cases.map fun p => if p.1 ∈ order then w p.2 else 0).sum := by
    intro order
    induction cases with
    | nil => rfl
    | cons p cases ih =>
        rw [List.filter_cons, List.map_cons, List.sum_cons, ← ih]
        by_cases hp : p.1 ∈ order <;> simp [hp]
  rw [hfilter]
  clear hfilter
  -- No later constructor shows the cases of the first one again.
  induction order with
  | nil => simp
  | cons ctor order ih =>
      obtain ⟨hnew, horder⟩ := List.nodup_cons.mp horder
      have hsplit : (cases.map fun p => if p.1 ∈ ctor :: order then w p.2 else 0).sum =
          (cases.map fun p => if p.1 = ctor then w p.2 else 0).sum +
            (cases.map fun p => if p.1 ∈ order then w p.2 else 0).sum := by
        rw [← List.sum_map_add]
        refine congrArg List.sum (List.map_congr_left fun p _ => ?_)
        by_cases hp : p.1 = ctor
        · simp [hp, hnew]
        · simp [hp]
      rw [hsplit, List.filterMap_cons]
      have hrest := ih horder
      cases hfind : cases.find? fun p => p.1 = ctor with
      | none =>
          simp only [Option.map_none]
          omega
      | some p =>
          have hctor : p.1 = ctor := by simpa using List.find?_some hfind
          have hone : w p.2 ≤ (cases.map fun p => if p.1 = ctor then w p.2 else 0).sum := by
            have hmem := List.mem_map_of_mem (f := fun p : Ident × TermId =>
              if p.1 = ctor then w p.2 else 0) (List.mem_of_find?_eq_some hfind)
            rw [if_pos hctor] at hmem
            exact List.single_le_sum (by simp) _ hmem
          simp only [Option.map_some, List.map_cons, List.sum_cons]
          omega

/-- What a node hands on is entered from it. -/
theorem sum_handed_le (hnamed : ∀ c, named c = true → w c = 0) {top id : TermId}
    (horder : s.ListsConstructorsOnce top) (hreach : s.Reaches top id) :
    ((s.handed named id).map w).sum ≤ ((s.renderedChildren (s.node id)).map w).sum := by
  unfold handed
  cases hnode : s.node id with
  | app f a => simpa [hnode] using sum_handedByApp_le hopen hnamed hnode
  | lam x ty b =>
      have hbody := sum_chain_le hopen (s.chain_lamTail named b)
      simp only [lamLayers_of_node hnode, renderedChildren, Node.children,
        Node.childrenWithDepth, List.map_cons, List.map_nil, List.sum_cons, List.sum_nil,
        List.cons_append, Nat.add_zero]
      exact Nat.add_le_add_left hbody _
  | pi x ty b =>
      have hbody := sum_chain_le hopen (s.chain_piTail named b)
      simp only [piLayers_of_node hnode, renderedChildren, Node.children,
        Node.childrenWithDepth, List.map_cons, List.map_nil, List.sum_cons, List.sum_nil,
        List.cons_append, Nat.add_zero]
      exact Nat.add_le_add_left hbody _
  | recursor datatype params motive order cases =>
      have hcases := sum_firstCases_le (w := w) cases
        (horder id datatype params motive order cases hreach hnode)
      simp only [shownParts, renderedChildren, List.map_append, List.map_cons, List.sum_append,
        List.sum_cons] at hcases ⊢
      omega
  | _ => exact le_rfl

end Handed

/-- What a node hands on is entered for the positions that it holds. -/
theorem sum_entered_handed_le {s : Store} {top id : TermId}
    (horder : s.ListsConstructorsOnce top) (hreach : s.Reaches top id)
    (named : TermId → Bool) (n : TermId) :
    ((s.handed named id).map fun c => (s.enteredAt named c).count n).sum ≤
      ((s.renderedChildren (s.node id)).map fun c => (s.enteredAt named c).count n).sum := by
  refine sum_handed_le (fun c hc => ?_) (fun c hc => ?_) horder hreach
  · have hself : s.enteredAt named c = s.entered named c := if_neg (by simp [hc])
    rw [hself, count_entered_eq]
    exact Nat.le_add_left _ _
  · rw [enteredAt, if_pos hc, List.count_nil]

end Store

/-! ## Runs that mark the nodes they translate -/

/-- The structural form of a node, with a mark at each node of its unit that is
translated.  Constants are declared without marks, since their declarations are units of
their own. -/
def Config.markedNode (cfg : Config) (s : Store) (scope : Scope) (id : TermId) : Emit Expr := do
  modify (Emission.push (Emission.mark id))
  let render (scope : Scope) (c : TermId) : Emit Expr :=
    if _ : c < id then cfg.markedNode s scope c else return default
  let (head, args) := s.spineUntil scope.isShared id
  match s.node head with
  | .constant ident ty body => do
      declareConstant cfg s (cfg.translateNode s) ident ty body
      translateIdent cfg render scope ident args
  | _ => translateStep cfg s render scope id
termination_by id

/-- What marks the parts of a node. -/
def Config.markedBelow (cfg : Config) (s : Store) (id : TermId) : Render :=
  fun scope c => if _ : c < id then cfg.markedNode s scope c else pure default

section Marked

variable {cfg : Config} {s : Store} {n top : TermId} {α : Type} {m m' : Emit α} {w : Nat}
  {Q : α → Prop}

theorem traces_mark (h : Traces n m m' w Q) (id : TermId) :
    Traces n m (do modify (Emission.push (Emission.mark id)); m')
      ((if id = n then 1 else 0) + w) Q := by
  intro e e' he
  rw [Emit.exec_bind, Emit.exec_modify]
  obtain ⟨hvalue, hcode, hmarks, hpost⟩ := h e _ (he.push_mark id)
  rw [Emission.marks_push_mark] at hmarks
  exact ⟨hvalue, hcode, hmarks.trans_eq (Nat.add_assoc _ _ _), hpost⟩

/-- A node that starts with a constant is the constant applied to arguments. -/
theorem translateStep_of_constant {render : Render} {scope : Scope} {id head : TermId}
    {args : List TermId} (hspine : s.spineUntil scope.isShared id = (head, args))
    {ident : Ident} {ty : TermId} {body : Option TermId}
    (hnode : s.node head = .constant ident ty body) :
    translateStep cfg s render scope id =
      translateConstant cfg s render scope ident ty body args := by
  by_cases happ : ∃ f a, s.node id = .app f a
  · obtain ⟨f, a, hid⟩ := happ
    rw [translateStep, hid]
    dsimp only
    rw [translateApp, hspine]
    dsimp only
    rw [hnode]
  · rw [spineUntil_of_not_app fun f a hid => happ ⟨f, a, hid⟩] at hspine
    cases hspine
    rw [translateStep, hnode]

theorem Config.markedNode_eq (cfg : Config) (s : Store) (scope : Scope) (id : TermId) :
    cfg.markedNode s scope id = (do
      modify (Emission.push (Emission.mark id))
      match s.node (s.spineUntil scope.isShared id).1 with
      | .constant ident ty body => do
          declareConstant cfg s (cfg.translateNode s) ident ty body
          translateIdent cfg (cfg.markedBelow s id) scope ident
            (s.spineUntil scope.isShared id).2
      | _ => translateStep cfg s (cfg.markedBelow s id) scope id) := by
  rw [markedNode]
  rfl

theorem Config.markedNode_of_not_app {id : TermId} (happ : ∀ f a, s.node id ≠ .app f a)
    (hconst : ∀ ident ty body, s.node id ≠ .constant ident ty body) (scope : Scope) :
    cfg.markedNode s scope id = (do
      modify (Emission.push (Emission.mark id))
      translateStep cfg s (cfg.markedBelow s id) scope id) := by
  rw [markedNode_eq, spineUntil_of_not_app happ]
  split
  · rename_i ident ty body hnode
    exact absurd hnode (hconst ident ty body)
  · rfl

/-- The places of a spine stand inside its term. -/
theorem within_spineUntil (scope : Scope) (id : TermId) :
    (s.spineUntil scope.isShared id).1 ≤ id ∧
      s.Reaches id (s.spineUntil scope.isShared id).1 ∧
      ∀ a ∈ (s.spineUntil scope.isShared id).2, a < id ∧ s.Reaches id a := by
  by_cases happ : ∃ f a, s.node id = .app f a
  · obtain ⟨f, a, hnode⟩ := happ
    obtain ⟨hhead, hargs⟩ := strictlyWithin_spineUntil hnode scope.isShared
    exact ⟨le_of_lt hhead.2, hhead.1.reaches, fun b hb => ⟨(hargs b hb).2, (hargs b hb).1.reaches⟩⟩
  · rw [spineUntil_of_not_app fun f a hid => happ ⟨f, a, hid⟩]
    exact ⟨le_rfl, .refl id, by simp⟩

/-- The parts of a constant at the head of a term stand inside the term. -/
theorem within_constant {scope : Scope} {id : TermId} (hreach : s.Reaches top id)
    {ident : Ident} {ty : TermId} {body : Option TermId}
    (hnode : s.node (s.spineUntil scope.isShared id).1 = .constant ident ty body) :
    ∀ c ∈ ty :: body.toList, c < id ∧ s.Reaches top c := by
  intro c hc
  obtain ⟨hle, hhead, -⟩ := within_spineUntil (s := s) scope id
  refine ⟨(lt_of_node_constant hnode c hc).trans_le hle, hreach.trans (hhead.trans ?_)⟩
  exact reaches_of_mem_children (mem_children_of_node_constant hnode c hc)

/-- What is added for a position is what is entered for it. -/
theorem weight_entered (s : Store) (n : TermId) (named : TermId → Bool) :
    weight (fun named c => (s.entered named c).count n) named =
      fun c => (s.enteredAt named c).count n := by
  funext c
  unfold weight enteredAt
  split <;> rfl

section Nodes

variable (hflags : s.Unflagged top)

include hflags

/-- A node does the same whatever the comments, and leaves none of its own. -/
theorem traces_translateNode (id : TermId) (hreach : s.Reaches top id) (scope : Scope) :
    Traces n (cfg.translateNode s scope id) (cfg.translateNode s scope id) 0
      fun _ => True := by
  induction id using Nat.strong_induction_on generalizing scope with
  | _ id ih =>
      have hrender : ∀ scope, ∀ c < id, s.Reaches top c →
          Traces n (cfg.renderBelow s id scope c) (cfg.renderBelow s id scope c) 0
            fun _ => True := by
        intro scope c hc hcreach
        rw [renderBelow_eq hc]
        exact ih c hc hcreach scope
      obtain ⟨-, -, hargs⟩ := within_spineUntil (s := s) scope id
      rw [translateNode_eq]
      by_cases hconst : ∃ ident ty body,
          s.node (s.spineUntil scope.isShared id).1 = .constant ident ty body
      · obtain ⟨ident, ty, body, hnode⟩ := hconst
        rw [translateStep_of_constant rfl hnode]
        refine traces_bind_quiet
          (traces_declareConstant hrender hflags (within_constant hreach hnode)) fun _ _ => ?_
        exact (traces_ident (W := fun _ _ => 0) hrender scope ident fun a ha =>
          ⟨(hargs a ha).1, hreach.trans (hargs a ha).2⟩).mono (sum_map_weight_zero _ _).le
      · exact (traces_step (W := fun _ _ => 0) hrender hflags scope rfl hreach
          fun ident ty body h => hconst ⟨ident, ty, body, h⟩).mono (sum_map_weight_zero _ _).le

/-- With marks, a node does the same apart from these, and it leaves no more marks of a
node than the node is entered. -/
theorem traces_markedNode (horder : s.ListsConstructorsOnce top) (id : TermId)
    (hreach : s.Reaches top id) (scope : Scope) :
    Traces n (cfg.translateNode s scope id) (cfg.markedNode s scope id)
      ((s.entered scope.isShared id).count n) fun _ => True := by
  induction id using Nat.strong_induction_on generalizing scope with
  | _ id ih =>
      have hrender : ∀ scope, ∀ c < id, s.Reaches top c →
          Traces n (cfg.renderBelow s id scope c) (cfg.markedBelow s id scope c)
            ((s.entered scope.isShared c).count n) fun _ => True := by
        intro scope c hc hcreach
        rw [renderBelow_eq hc, Config.markedBelow, dif_pos hc]
        exact ih c hc hcreach scope
      have hquiet : ∀ scope, ∀ c < id, s.Reaches top c →
          Traces n (cfg.renderBelow s id scope c) (cfg.translateNode s scope c) 0
            fun _ => True := by
        intro scope c hc hcreach
        rw [renderBelow_eq hc]
        exact traces_translateNode hflags c hcreach scope
      obtain ⟨-, -, hargs⟩ := within_spineUntil (s := s) scope id
      have hhanded := sum_entered_handed_le horder hreach scope.isShared n
      rw [translateNode_eq, Config.markedNode_eq, count_entered_eq]
      refine traces_mark (Traces.mono ?_ hhanded) id
      rw [← weight_entered]
      by_cases hconst : ∃ ident ty body,
          s.node (s.spineUntil scope.isShared id).1 = .constant ident ty body
      · obtain ⟨ident, ty, body, hnode⟩ := hconst
        rw [translateStep_of_constant rfl hnode, hnode]
        -- The declaration is a unit of its own.
        refine traces_bind_quiet
          (traces_declareConstant hquiet hflags (within_constant hreach hnode)) fun _ _ => ?_
        refine (traces_ident (W := fun named c => (s.entered named c).count n) hrender scope
          ident fun a ha => ⟨(hargs a ha).1, hreach.trans (hargs a ha).2⟩).mono ?_
        by_cases happ : ∃ f a, s.node id = .app f a
        · obtain ⟨f, a, hid⟩ := happ
          simp only [handed, hid, handedByApp, hnode, le_refl]
        · simp [spineUntil_of_not_app fun f a hid => happ ⟨f, a, hid⟩]
      · split
        · rename_i ident ty body hnode
          exact absurd ⟨ident, ty, body, hnode⟩ hconst
        · exact traces_step hrender hflags scope rfl hreach
            fun ident ty body h => hconst ⟨ident, ty, body, h⟩

end Nodes

end Marked

/-! ## Units -/

/-- Whether a node is neither a sort nor a recursor. -/
def Node.isPlain {α : Type} : Node α → Bool
  | .sort _ _ | .recursor _ _ _ _ _ => false
  | _ => true

/-- Nothing is asked of nodes other than sorts and recursors. -/
theorem unflagged_of_isPlain {s : Store} {top : TermId}
    (h : ∀ c < top + 1, (s.node c).isPlain = true) :
    s.Unflagged top ∧ s.ListsConstructorsOnce top := by
  constructor
  · intro c level flags hreach hnode
    have hplain := h c (Nat.lt_succ_of_le hreach.le)
    rw [hnode] at hplain
    cases hplain
  · intro c datatype params motive order cases hreach hnode
    have hplain := h c (Nat.lt_succ_of_le hreach.le)
    rw [hnode] at hplain
    cases hplain

/-- A function that returns a pair of an open term with itself. -/
def openPart : Store :=
  ofNodes [.unit, .pair 0 0, .bound 0, .pair 2 1, .unitType, .pair 3 3, .lam "y" 4 5]

theorem openPart_node : openPart.node 0 = .unit ∧ openPart.node 1 = .pair 0 0 ∧
    openPart.node 2 = .bound 0 ∧ openPart.node 3 = .pair 2 1 ∧ openPart.node 4 = .unitType ∧
    openPart.node 5 = .pair 3 3 ∧ openPart.node 6 = .lam "y" 4 5 :=
  ⟨rfl, rfl, rfl, rfl, rfl, rfl, rfl⟩

theorem openPart_namedTerms : untreated.namedTerms openPart 6 = [] := by
  obtain ⟨h0, h1, h2, h3, h4, h5, h6⟩ := openPart_node
  have hsize : openPart.size = 7 := rfl
  have hshould : untreated.shouldName openPart 0 = false ∧
      untreated.shouldName openPart 3 = false := by decide +kernel
  refine sharedTermsBy_eq (by simp) fun t => ?_
  simp [hsize, tally, tallyOne, h0, h1, h2, h3, h4, h5, h6, renderedChildren, Node.children,
    Node.childrenWithDepth, Std.HashMap.getElem?_insert]
  grind

/-- The identifier of a template with two holes. -/
def templateIdent : Ident :=
  ⟨⟨["M"]⟩, "m"⟩

/-- The configuration with a template for one identifier. -/
def templated : Config :=
  ⟨⟨["Main"]⟩, .ofList [(templateIdent, .expand 2 (.list [.hole 0, .hole 1]))], .default⟩

/-- Two applications that have an application in common that lacks an argument. -/
def unsaturatedPart : Store :=
  ofNodes [.unit, .pair 0 0, .global templateIdent, .app 2 1, .nat 1, .app 3 4, .nat 2,
    .app 3 6, .pair 5 7]

theorem unsaturatedPart_node : unsaturatedPart.node 0 = .unit ∧
    unsaturatedPart.node 1 = .pair 0 0 ∧ unsaturatedPart.node 2 = .global templateIdent ∧
    unsaturatedPart.node 3 = .app 2 1 ∧ unsaturatedPart.node 4 = .nat 1 ∧
    unsaturatedPart.node 5 = .app 3 4 ∧ unsaturatedPart.node 6 = .nat 2 ∧
    unsaturatedPart.node 7 = .app 3 6 ∧ unsaturatedPart.node 8 = .pair 5 7 :=
  ⟨rfl, rfl, rfl, rfl, rfl, rfl, rfl, rfl, rfl⟩

theorem templated_useSite :
    templated.table.useSite templateIdent = .expand 2 (.list [.hole 0, .hole 1]) := by
  simp [templated, TreatmentTable.ofList, TreatmentTable.insert, TreatmentTable.useSite,
    TreatmentTable.find?, Treatment.expand]

theorem unsaturatedPart_spine : unsaturatedPart.spine 2 = (2, []) ∧
    unsaturatedPart.spine 3 = (2, [1]) ∧ unsaturatedPart.isConditional 2 = false := by
  obtain ⟨-, -, h2, h3, -⟩ := unsaturatedPart_node
  have hspine : unsaturatedPart.spine 2 = (2, []) := spine_of_not_app (by simp [h2])
  refine ⟨hspine, by rw [spine_app h3, hspine, List.nil_append], ?_⟩
  rw [isConditional, asGlobal?, h2]
  decide

theorem unsaturatedPart_shouldName : templated.shouldName unsaturatedPart 0 = false ∧
    templated.shouldName unsaturatedPart 3 = false := by
  obtain ⟨h0, h1, h2, h3, h4, h5, h6, h7, h8⟩ := unsaturatedPart_node
  obtain ⟨hspine2, hspine3, hcond⟩ := unsaturatedPart_spine
  have hmemo : unsaturatedPart.isMemoizable 0 = false := by
    simp [isMemoizable, Node.isTrivial, h0]
  have hite : templateIdent ≠ .prelude "ite" := by decide
  simp [Config.shouldName, hmemo, hspine3, Config.neededArgs, h2, hite, templated_useSite]

theorem unsaturatedPart_namedTerms : templated.namedTerms unsaturatedPart 8 = [] := by
  obtain ⟨h0, h1, h2, h3, h4, h5, h6, h7, h8⟩ := unsaturatedPart_node
  obtain ⟨hspine2, hspine3, hcond⟩ := unsaturatedPart_spine
  have hsize : unsaturatedPart.size = 9 := rfl
  have hshould := unsaturatedPart_shouldName
  refine sharedTermsBy_eq (by simp) fun t => ?_
  simp [hsize, tally, tallyOne, h0, h1, h2, h3, h4, h5, h6, h7, h8, renderedChildren, hspine2,
    hspine3, hcond, Node.children, Node.childrenWithDepth, Std.HashMap.getElem?_insert]
  grind

/-- The pair inside the open term is translated at both uses of that term. -/
theorem openPart_marks :
    ((translateLifted untreated openPart (untreated.markedNode openPart)
      (Scope.ofUnit untreated .empty openPart [6]) 6).exec .empty).2.marks 1 =
      Emission.empty.marks 1 + 2 := by
  obtain ⟨h0, h1, h2, h3, h4, h5, h6⟩ := openPart_node
  have hclasses : constraintClasses (sortFlags openPart 4) = [] := by
    rw [sortFlags, piChain_of_not (by simp [h4]), h4]
    rfl
  have hlayers : ∀ stop, openPart.lamLayers stop 6 = ([⟨"y", 4, 5⟩], 5) := fun stop => by
    rw [lamLayers_of_node h6, lamTail, lamLayers_of_not (by simp [h5]), ite_self]
  simp [translateLifted, openPart_namedTerms, Scope.ofUnit, translateTerm,
    Config.markedNode_of_not_app, Config.markedBelow, translateStep, h0, h1, h2, h3, h4, h5,
    h6, translateLam, hlayers, bindParams, bindNamed, hclasses, hypotheses, Scope.fresh,
    Scope.bind, Scope.local?, translateNamed, translateTerms, Emit.exec_bind,
    Emission.marks_push_mark, -bind_pure_comp]

/-- The argument that is already there is translated for both applications. -/
theorem unsaturatedPart_marks :
    ((translateLifted templated unsaturatedPart (templated.markedNode unsaturatedPart)
      (Scope.ofUnit templated .empty unsaturatedPart [8]) 8).exec .empty).2.marks 1 =
      Emission.empty.marks 1 + 2 := by
  obtain ⟨h0, h1, h2, h3, h4, h5, h6, h7, h8⟩ := unsaturatedPart_node
  have hite : templateIdent ≠ .prelude "ite" := by decide
  have hspine : ∀ stop : TermId → Bool, stop 3 = false →
      unsaturatedPart.spineUntil stop 5 = (2, [1, 4]) ∧
        unsaturatedPart.spineUntil stop 7 = (2, [1, 6]) := fun stop hstop => by
    have h2' : ∀ f a, unsaturatedPart.node 2 ≠ .app f a := by simp [h2]
    rw [spineUntil_app h5, spineUntil_app h7, spineUntil_app h3, spineUntil_of_not_app h2']
    simp [hstop]
  simp [translateLifted, unsaturatedPart_namedTerms, Scope.ofUnit, translateTerm,
    Config.markedNode_of_not_app, Config.markedNode_eq templated unsaturatedPart _ 5,
    Config.markedNode_eq templated unsaturatedPart _ 7, Config.markedBelow, translateStep,
    h0, h1, h2, h4, h5, h6, h7, h8, translateApp, hspine, Scope.isShared, hite,
    translateIdent, templated_useSite, translateNamed, translateTerms, Emit.exec_bind,
    Emission.marks_push_mark, -bind_pure_comp]

end TermGraph
