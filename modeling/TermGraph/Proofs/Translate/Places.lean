import Mathlib
import TermGraph.Proofs.Translate.Ledger

/-!
# Terms that can be translated

Whether a translation succeeds depends neither on names nor on the order in which terms
are met, as long as no identifier belongs to two constants.  What counts is which places
the translation comes to: a node, the number of binders around it, and the number of
arguments that follow it.  A term fits its place when nothing stands in the way at any
place that the translation comes to from there.

The places that are counted to find shared subterms are among them.  So what is shared in
a term that fits also fits, outside all binders and without arguments behind it.
-/

namespace TermGraph

open Target Store

/-- A place where a term is translated: the term, the number of binders around it, and the
number of arguments that follow it. -/
structure Place where
  id : TermId
  depth : Nat
  args : Nat

namespace Store

variable (s : Store)

/-- The positions of a node other than an application that its target tree is built from,
each with the number of binders between. -/
def shownPlaces : Node TermId → List (TermId × Nat)
  | .free _ _ | .constant _ _ _ => []
  | .array _ elems => elems.map (·, 0)
  | n@(.recursor _ _ _ _ _) => (s.shownParts n).map (·, 0)
  | n => n.childrenWithDepth

/-- The places where the declaration of a constant starts.  Where the binders of the body
become parameters, what follows them stands under as many binders. -/
def unitPlaces (ty : TermId) : Option TermId → List Place
  | none => [⟨ty, 0, 0⟩]
  | some body =>
      let (pis, _) := s.piChain ty
      let (lams, inner) := s.lamChain body
      if pis.isEmpty || pis.length ≠ lams.length then [⟨ty, 0, 0⟩, ⟨body, 0, 0⟩]
      else [⟨ty, 0, 0⟩, ⟨inner, pis.length, 0⟩]

/-- The recursors that a term reaches have at most one case for each constructor. -/
def ListsCasesOnce (top : TermId) : Prop :=
  ∀ c datatype params motive order cases, s.Reaches top c →
    s.node c = .recursor datatype params motive order cases → (cases.map (·.1)).Nodup

end Store

namespace Config

variable (cfg : Config) (s : Store) (known : Ident → Bool)

/-- The number of arguments that a reference to an identifier needs. -/
def minArgs (ident : Ident) : Nat :=
  match cfg.table.useSite ident with
  | .expand arity _ => arity
  | _ => 0

/-- The places where the definition of an identifier is translated, if it is emitted. -/
def declaredPlaces (ident : Ident) (ty : TermId) (body : Option TermId) : List Place :=
  match cfg.defSite? ident with
  | some .preserve | some (.rename _) => s.unitPlaces ty body
  | _ => []

/-- The places that a translation comes to next. -/
def nextPlaces (p : Place) : List Place :=
  match s.node p.id with
  | .app f a =>
      if s.isFullConditional p.id then ((s.spine p.id).2.drop 1).map (⟨·, p.depth, 0⟩)
      else [⟨f, p.depth, p.args + 1⟩, ⟨a, p.depth, 0⟩]
  | .constant ident ty body =>
      if known ident then [] else cfg.declaredPlaces s ident ty body
  | n => (s.shownPlaces n).map fun c => ⟨c.1, p.depth + c.2, 0⟩

/-- Nothing stands in the way of a translation at a place itself. -/
def Admits (p : Place) : Prop :=
  match s.node p.id with
  | .bound i => i < p.depth
  | .global ident => cfg.minArgs ident ≤ p.args
  | .constant ident _ _ =>
      cfg.minArgs ident ≤ p.args ∧ (known ident = false → (cfg.defSite? ident).isSome)
  | .data ident params rest | .ctor ident params rest =>
      cfg.minArgs ident ≤ (params ++ rest).length
  | .recursor datatype _ _ order cases =>
      (counterpart? cfg datatype).isSome ∧
        (cfg.options.strictEliminators = true → ∀ ctor ∈ order, ∃ p ∈ cases, p.1 = ctor)
  | .fix _ _ _ => False
  | _ => True

/-- Nothing stands in the way at any place that a translation comes to. -/
def Fits (p : Place) : Prop :=
  ∀ q, Relation.ReflTransGen (fun p q => q ∈ cfg.nextPlaces s known p) p q →
    cfg.Admits s known q

/-- Terms that fit one after the other, each under the binders before it. -/
def FitsAlong : Nat → List TermId → Prop
  | _, [] => True
  | depth, id :: rest => cfg.Fits s known ⟨id, depth, 0⟩ ∧ FitsAlong (depth + 1) rest

/-- Nothing stands in the way of the definition of an identifier. -/
def CanProvide (ident : Ident) (ty : TermId) (body : Option TermId) : Prop :=
  (cfg.defSite? ident).isSome ∧
    ∀ p ∈ cfg.declaredPlaces s ident ty body, cfg.Fits s known p

end Config

section Fits

variable {cfg : Config} {s : Store} {known : Ident → Bool} {id d n : Nat}

/-- A term fits if nothing stands in the way at its place and at those that follow. -/
theorem fits_iff {p : Place} : cfg.Fits s known p ↔
    cfg.Admits s known p ∧ ∀ q ∈ cfg.nextPlaces s known p, cfg.Fits s known q := by
  constructor
  · exact fun h => ⟨h p .refl, fun q hq r hr => h r (.head hq hr)⟩
  · rintro ⟨hself, hnext⟩ q hq
    rcases Relation.ReflTransGen.cases_head hq with rfl | ⟨r, hr, hrest⟩
    · exact hself
    · exact hnext r hr q hrest

/-! ## References -/

theorem fits_global {ident : Ident} (hnode : s.node id = .global ident) :
    cfg.Fits s known ⟨id, d, n⟩ ↔ cfg.minArgs ident ≤ n := by
  rw [fits_iff]
  simp [Config.Admits, Config.nextPlaces, hnode, shownPlaces, Node.childrenWithDepth]

theorem fits_constant {ident : Ident} {ty : TermId} {body : Option TermId}
    (hnode : s.node id = .constant ident ty body) : cfg.Fits s known ⟨id, d, n⟩ ↔
      cfg.minArgs ident ≤ n ∧ (known ident = true ∨ cfg.CanProvide s known ident ty body) := by
  rw [fits_iff]
  simp only [Config.Admits, Config.nextPlaces, hnode, Config.CanProvide]
  cases known ident <;> simp [and_assoc]

/-! ## Applications -/

theorem fits_app {f a : TermId} (hnode : s.node id = .app f a) :
    cfg.Fits s known ⟨id, d, n⟩ ↔
      if s.isFullConditional id then ∀ b ∈ (s.spine id).2.drop 1, cfg.Fits s known ⟨b, d, 0⟩
      else cfg.Fits s known ⟨f, d, n + 1⟩ ∧ cfg.Fits s known ⟨a, d, 0⟩ := by
  rw [fits_iff]
  simp only [Config.Admits, Config.nextPlaces, hnode]
  split
  · simp only [true_and, List.forall_mem_map]
  · simp

/-- An application fits if its head does, with all arguments behind it, and all arguments
do. -/
theorem fits_iff_spine (id d n : Nat) : cfg.Fits s known ⟨id, d, n⟩ ↔
    if s.isFullConditional id then ∀ b ∈ (s.spine id).2.drop 1, cfg.Fits s known ⟨b, d, 0⟩
    else cfg.Fits s known ⟨(s.spine id).1, d, (s.spine id).2.length + n⟩ ∧
      ∀ b ∈ (s.spine id).2, cfg.Fits s known ⟨b, d, 0⟩ := by
  induction id using app_induction (s := s) generalizing n with
  | @app id f a hnode ih =>
      rw [fits_app hnode]
      by_cases hfull : s.isFullConditional id = true
      · simp [hfull]
      · have hfun := ih (n + 1)
        rw [if_neg (not_isFullConditional_fn hnode hfull)] at hfun
        have hlength : (s.spine f).2.length + (n + 1) = (s.spine f).2.length + 1 + n := by omega
        rw [if_neg hfull, if_neg hfull, hfun, spine_app hnode, hlength]
        simp [or_imp, forall_and, and_assoc]
  | other hnot => simp [isFullConditional, spine_of_not_app hnot]

/-- Where a head needs no more than some arguments, any number of them from there on is as
good as these. -/
theorem fits_head_iff {head m k : Nat} (hhead : ∀ f a, s.node head ≠ .app f a)
    (hm : (∀ ident, s.node head = .global ident → cfg.minArgs ident ≤ m) ∧
      ∀ ident ty body, s.node head = .constant ident ty body → cfg.minArgs ident ≤ m)
    (hk : m ≤ k) : cfg.Fits s known ⟨head, d, k⟩ ↔ cfg.Fits s known ⟨head, d, m⟩ := by
  rw [fits_iff, fits_iff (p := ⟨head, d, m⟩)]
  obtain ⟨hglobal, hconstant⟩ := hm
  refine and_congr ?_ ?_
  · unfold Config.Admits
    dsimp only
    split <;> simp_all <;> omega
  · unfold Config.nextPlaces
    dsimp only
    split <;> simp_all

/-! ## Terms that may get a name -/

theorem isTrivial_of_shouldName (h : cfg.shouldName s id = true) :
    (s.node id).isTrivial = false := by
  simp only [Config.shouldName, isMemoizable, Bool.and_eq_true, Bool.not_eq_true'] at h
  exact h.1.1

/-- A term that may get a name and is an application has all arguments that its head
needs. -/
theorem neededArgs_le_of_shouldName (h : cfg.shouldName s id = true) :
    (s.spine id).2 = [] ∨ cfg.neededArgs s (s.spine id).1 ≤ (s.spine id).2.length := by
  simp only [Config.shouldName, Bool.and_eq_true, Bool.or_eq_true, List.isEmpty_iff,
    decide_eq_true_eq] at h
  exact h.2

/-- A term without arguments is its own head. -/
theorem spine_of_args_eq_nil (hargs : (s.spine id).2 = []) : (s.spine id).1 = id := by
  by_cases happ : ∃ f a, s.node id = .app f a
  · obtain ⟨f, a, hnode⟩ := happ
    simp [spine_app hnode] at hargs
  · rw [spine_of_not_app fun f a hnode => happ ⟨f, a, hnode⟩]

/-- A conditional that may get a name has all of its arguments. -/
theorem isFullConditional_of_shouldName (h : cfg.shouldName s id = true)
    (hhead : s.isConditional (s.spine id).1 = true) : s.isFullConditional id = true := by
  have hnode := isConditional_iff.mp hhead
  rcases neededArgs_le_of_shouldName h with hargs | hargs
  · rw [spine_of_args_eq_nil hargs] at hnode
    have htrivial := isTrivial_of_shouldName h
    rw [hnode] at htrivial
    cases htrivial
  · have hfour : 4 ≤ cfg.neededArgs s (s.spine id).1 := by
      simp [Config.neededArgs, hnode]
    simpa [isFullConditional, hhead] using hfour.trans hargs

theorem minArgs_le_neededArgs {head : TermId} {ident : Ident}
    (hnode : s.node head = .global ident ∨ ∃ ty body, s.node head = .constant ident ty body) :
    cfg.minArgs ident ≤ cfg.neededArgs s head := by
  unfold Config.minArgs
  cases hsite : cfg.table.useSite ident with
  | preserve => exact Nat.zero_le _
  | rename module name explicit => exact Nat.zero_le _
  | expand arity template =>
      rcases hnode with hnode | ⟨ty, body, hnode⟩
      · simp only [Config.neededArgs, hnode, hsite]
        split
        · exact le_max_right 4 arity
        · exact le_rfl
      · simp only [Config.neededArgs, hnode, hsite, le_refl]

/-- A term that may get a name has all arguments that its head needs. -/
theorem minArgs_le_of_shouldName (h : cfg.shouldName s id = true) :
    (∀ ident, s.node (s.spine id).1 = .global ident →
      cfg.minArgs ident ≤ (s.spine id).2.length) ∧
    ∀ ident ty body, s.node (s.spine id).1 = .constant ident ty body →
      cfg.minArgs ident ≤ (s.spine id).2.length := by
  rcases neededArgs_le_of_shouldName h with hargs | hargs
  · have htrivial := isTrivial_of_shouldName h
    rw [spine_of_args_eq_nil hargs]
    constructor
    · intro ident hnode
      simp [hnode, Node.isTrivial] at htrivial
    · intro ident ty body hnode
      simp [hnode, Node.isTrivial] at htrivial
  · constructor
    · exact fun ident hnode => (minArgs_le_neededArgs (Or.inl hnode)).trans hargs
    · exact fun ident ty body hnode =>
        (minArgs_le_neededArgs (Or.inr ⟨ty, body, hnode⟩)).trans hargs

/-- For a term that may get a name it makes no difference whether arguments follow. -/
theorem fits_args_of_shouldName (h : cfg.shouldName s id = true) :
    cfg.Fits s known ⟨id, d, n⟩ ↔ cfg.Fits s known ⟨id, d, 0⟩ := by
  rw [fits_iff_spine, fits_iff_spine id d 0]
  split
  · exact Iff.rfl
  · exact and_congr_left' (fits_head_iff (node_spine_ne_app id)
      (minArgs_le_of_shouldName h) (Nat.le_add_right _ n))

/-- Where a function with a name fits, an application of it fits if the further arguments
do. -/
theorem fits_iff_of_cut {head : TermId} {args : List TermId}
    (hspine : s.spine id = ((s.spine head).1, (s.spine head).2 ++ args))
    (hname : cfg.shouldName s head = true) (hhead : cfg.Fits s known ⟨head, d, 0⟩) :
    cfg.Fits s known ⟨id, d, 0⟩ ↔ ∀ a ∈ args, cfg.Fits s known ⟨a, d, 0⟩ := by
  rw [fits_iff_spine] at hhead ⊢
  by_cases hcut : s.isFullConditional head = true
  · have hfour : 4 ≤ (s.spine head).2.length := by
      simp only [isFullConditional, Bool.and_eq_true, decide_eq_true_eq] at hcut
      exact hcut.2
    have hfull : s.isFullConditional id = true := by
      simp only [isFullConditional, Bool.and_eq_true, decide_eq_true_eq, hspine,
        List.length_append] at hcut ⊢
      exact ⟨hcut.1, by omega⟩
    rw [if_pos hcut] at hhead
    rw [if_pos hfull, hspine, List.drop_append_of_le_length (by omega)]
    simp only [List.mem_append, or_imp, forall_and]
    exact and_iff_right hhead
  · -- The conditional is not the head, or else it would have all of its arguments.
    have hnot : ¬s.isConditional (s.spine head).1 = true :=
      fun h => hcut (isFullConditional_of_shouldName hname h)
    have hfull : ¬s.isFullConditional id = true := by
      simp only [isFullConditional, Bool.and_eq_true, hspine]
      exact fun h => hnot h.1
    rw [if_neg hcut] at hhead
    rw [if_neg hfull, hspine, List.length_append,
      fits_head_iff (node_spine_ne_app head) (minArgs_le_of_shouldName hname) (by omega)]
    simp only [List.mem_append, or_imp, forall_and]
    exact ⟨fun h => h.2.2, fun h => ⟨hhead.1, hhead.2, h⟩⟩

/-! ## Chains of binders -/

theorem fits_iff_binds {k : ChainKind} {l : Layer} (h : s.Binds k id l) :
    cfg.Fits s known ⟨id, d, n⟩ ↔
      cfg.Fits s known ⟨l.type, d, 0⟩ ∧ cfg.Fits s known ⟨l.body, d + 1, 0⟩ := by
  rw [fits_iff]
  cases h with
  | pi h | lam h =>
      simp [Config.Admits, Config.nextPlaces, h, shownPlaces, Node.childrenWithDepth]

/-- A node fits if the types of a chain that starts at it do, and what follows them. -/
theorem fits_iff_chain {k : ChainKind} {stop : TermId → Bool} {last : TermId}
    {layers : List Layer} (h : s.Chain k stop id layers last) (d : Nat) :
    cfg.Fits s known ⟨id, d, 0⟩ ↔
      cfg.FitsAlong s known d (layers.map (·.type)) ∧
        cfg.Fits s known ⟨last, d + layers.length, 0⟩ := by
  induction h generalizing d with
  | nil => simp [Config.FitsAlong]
  | cons _ hl _ ih =>
      rw [fits_iff_binds hl, ih]
      simp [Config.FitsAlong, and_assoc, Nat.add_assoc, Nat.add_comm 1]

/-- A type fits if the types of its chain do, and what follows them. -/
theorem fits_iff_piChain (ty d : Nat) : cfg.Fits s known ⟨ty, d, 0⟩ ↔
    cfg.FitsAlong s known d ((s.piChain ty).1.map (·.2)) ∧
      cfg.Fits s known ⟨(s.piChain ty).2, d + (s.piChain ty).1.length, 0⟩ := by
  rw [fits_iff_chain (s.chain_piLayers (fun _ => false) ty)]
  simp [piChain, Function.comp_def]

/-! ## Closed terms -/

theorem strictlyWithin_of_mem_shownPlaces {c k : Nat}
    (h : (c, k) ∈ s.shownPlaces (s.node id)) : s.StrictlyWithin id k c := by
  have hpart : (c, k) ∈ (s.node id).childrenWithDepth → s.StrictlyWithin id k c :=
    strictlyWithin_part
  unfold shownPlaces at h
  cases hnode : s.node id with
  | free x ty => simp [hnode] at h
  | constant ident ty body => simp [hnode] at h
  | array ty elems =>
      rw [hnode] at h hpart
      exact hpart (List.mem_cons_of_mem _ h)
  | recursor datatype params motive order cases =>
      rw [hnode] at h hpart
      refine hpart ?_
      simp only [shownParts, List.map_append, List.map_cons, List.mem_append, List.mem_cons,
        List.mem_map, List.mem_filterMap, Option.map_eq_some_iff] at h
      simp only [Node.childrenWithDepth, List.mem_append, List.mem_cons, List.mem_map]
      rcases h with h | h | ⟨_, ⟨ctor, -, p, hp, rfl⟩, h⟩
      · exact Or.inl h
      · exact Or.inr (Or.inl h)
      · exact Or.inr (Or.inr ⟨p, List.mem_of_find?_eq_some hp, h⟩)
  | _ =>
      rw [hnode] at h hpart
      exact hpart h

/-- The indices that are loose in a place inside a term are bound there if those of the
term are bound around it. -/
theorem Store.StrictlyWithin.lt_of_mem_looseVars {c k : Nat} (h : s.StrictlyWithin id k c)
    (hbound : ∀ i ∈ s.looseVars id, i < d) : ∀ i ∈ s.looseVars c, i < d + k := by
  intro i hi
  by_contra hge
  obtain ⟨j, rfl⟩ : ∃ j, i = j + k := ⟨i - k, by omega⟩
  have := hbound j (h.1.mem_looseVars hi)
  omega

/-- A term that fits also fits under other binders, as long as these bind its variables. -/
theorem fits_of_bound (id : TermId) : ∀ {d n d' : Nat}, cfg.Fits s known ⟨id, d, n⟩ →
    (∀ i ∈ s.looseVars id, i < d') → cfg.Fits s known ⟨id, d', n⟩ := by
  induction id using Nat.strong_induction_on with
  | _ id ih =>
      intro d n d' h hbound
      have hinside : ∀ {c k m}, s.StrictlyWithin id k c → cfg.Fits s known ⟨c, d + k, m⟩ →
          cfg.Fits s known ⟨c, d' + k, m⟩ := fun hc hfits =>
        ih _ hc.2 hfits (hc.lt_of_mem_looseVars hbound)
      cases hnode : s.node id with
      | app f a =>
          obtain ⟨hf, ha⟩ := strictlyWithin_app hnode
          obtain ⟨-, hargs⟩ := strictlyWithin_spineUntil hnode fun _ => false
          rw [fits_app hnode] at h ⊢
          split at h
          · rename_i hfull
            rw [if_pos hfull]
            exact fun b hb => hinside (hargs b (List.mem_of_mem_drop hb)) (h b hb)
          · rename_i hfull
            rw [if_neg hfull]
            exact ⟨hinside hf h.1, hinside ha h.2⟩
      | constant ident ty body =>
          rw [fits_constant hnode] at h ⊢
          exact h
      | bound i =>
          rw [fits_iff]
          simpa [Config.Admits, Config.nextPlaces, hnode, shownPlaces, Node.childrenWithDepth]
            using hbound i (by simp [looseVars_of_node_bound hnode])
      | _ =>
          have hplaces : ∀ c ∈ s.shownPlaces (s.node id), s.StrictlyWithin id c.2 c.1 :=
            fun c hc => strictlyWithin_of_mem_shownPlaces hc
          rw [fits_iff] at h ⊢
          simp only [Config.Admits, Config.nextPlaces, hnode, List.forall_mem_map] at h hplaces ⊢
          exact ⟨h.1, fun c hc => hinside (hplaces c hc) (h.2 c hc)⟩

/-! ## Shared subterms -/

/-- Where no constructor has two cases, a recursor shows all positions that count. -/
theorem exists_mem_shownPlaces {m : Node TermId} {c : TermId}
    (hcases : ∀ datatype params motive order cases,
      m = .recursor datatype params motive order cases → (cases.map (·.1)).Nodup)
    (happ : ∀ f a, m ≠ .app f a) (hc : c ∈ s.renderedChildren m) :
    ∃ k, (c, k) ∈ s.shownPlaces m := by
  cases m with
  | app f a => exact absurd rfl (happ f a)
  | free x ty => simp [renderedChildren] at hc
  | constant ident ty body => simp [renderedChildren] at hc
  | array ty elems => exact ⟨0, List.mem_map_of_mem (f := (·, 0)) hc⟩
  | recursor datatype params motive order cases =>
      have hnodup := hcases _ _ _ _ _ rfl
      refine ⟨0, List.mem_map_of_mem (f := (·, 0)) ?_⟩
      simp only [renderedChildren, List.mem_append, List.mem_cons, List.mem_map,
        List.mem_filter, List.contains_iff_mem] at hc
      simp only [shownParts, List.mem_append, List.mem_cons, List.mem_filterMap,
        Option.map_eq_some_iff]
      rcases hc with hc | hc | ⟨p, ⟨hp, hctor⟩, rfl⟩
      · exact Or.inl hc
      · exact Or.inr (Or.inl hc)
      · refine Or.inr (Or.inr ⟨p.1, hctor, p, ?_, rfl⟩)
        -- Another case for the constructor would have to be the same one.
        obtain ⟨q, hq⟩ : ∃ q, (cases.find? fun q => q.1 = p.1) = some q :=
          Option.isSome_iff_exists.mp (List.find?_isSome.mpr ⟨p, hp, by simp⟩)
        have hkey : q.1 = p.1 := by simpa using List.find?_some hq
        rw [hq, List.inj_on_of_nodup_map hnodup (List.mem_of_find?_eq_some hq) hp hkey]
  | _ =>
      obtain ⟨⟨c, k⟩, hp, rfl⟩ := List.mem_map.mp hc
      exact ⟨k, hp⟩

/-- What is shared in a term that fits also fits, outside all binders and without arguments
behind it. -/
theorem fits_of_mem_namedTerms {root t : TermId} (hcases : s.ListsCasesOnce root)
    (hroot : cfg.Fits s known ⟨root, d, n⟩) (ht : t ∈ cfg.namedTerms s root) (d' : Nat) :
    cfg.Fits s known ⟨t, d', 0⟩ := by
  have hshared : (s.Reaches root t ∧ ∃ d n, cfg.Fits s known ⟨t, d, n⟩) ∧
      cfg.shouldName s t = true := by
    refine of_mem_sharedTermsBy
      (Q := fun t => s.Reaches root t ∧ ∃ d n, cfg.Fits s known ⟨t, d, n⟩)
      ⟨.refl root, d, n, hroot⟩ ?_ ht
    rintro id ⟨hreach, d, n, hfits⟩ c hc
    obtain ⟨k, hwithin⟩ := strictlyWithin_of_mem_renderedChildren hc
    refine ⟨hreach.trans hwithin.1.reaches, ?_⟩
    by_cases happ : ∃ f a, s.node id = .app f a
    · obtain ⟨f, a, hnode⟩ := happ
      rw [fits_app hnode] at hfits
      have hparts := shownParts_app hnode
      rw [hnode] at hc hparts
      rw [show s.renderedChildren (.app f a) = _ from hparts] at hc
      split at hc
      · rename_i hfull
        rw [if_pos hfull] at hfits
        exact ⟨d, 0, hfits c hc⟩
      · rename_i hfull
        rw [if_neg hfull] at hfits
        rcases List.mem_pair.mp hc with rfl | rfl
        · exact ⟨d, n + 1, hfits.1⟩
        · exact ⟨d, 0, hfits.2⟩
    · obtain ⟨k, hk⟩ := exists_mem_shownPlaces
        (fun datatype params motive order cases h =>
          hcases id datatype params motive order cases hreach h)
        (fun f a h => happ ⟨f, a, h⟩) hc
      -- The position counts, so it does not belong to a constant.
      have hnext : (⟨c, d + k, 0⟩ : Place) ∈ cfg.nextPlaces s known ⟨id, d, n⟩ := by
        unfold Config.nextPlaces
        dsimp only
        split
        · rename_i f a hnode
          exact absurd ⟨f, a, hnode⟩ happ
        · rename_i ident ty body hnode
          simp [hnode, shownPlaces] at hk
        · exact List.mem_map_of_mem (f := fun c : TermId × Nat => (⟨c.1, d + c.2, 0⟩ : Place)) hk
      exact ⟨d + k, 0, (fits_iff.mp hfits).2 _ hnext⟩
  obtain ⟨⟨-, d₀, n₀, hfits⟩, hname⟩ := hshared
  refine fits_of_bound t ((fits_args_of_shouldName hname).mp hfits) fun i hi => ?_
  simp [Config.looseVars_of_shouldName hname] at hi

end Fits

end TermGraph
