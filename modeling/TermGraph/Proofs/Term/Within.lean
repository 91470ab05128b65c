import Mathlib
import TermGraph.Proofs.Term.LooseVars

/-!
# Places inside a term

`Within id d c` says that `c` stands somewhere in `id` under `d` of its binders.
A variable that is loose in `c` then is loose in `id` too, `d` lower.  Heads and
arguments of an application stand under no binder, and the types of a chain each
under the binders before it.
-/

namespace TermGraph

namespace Store

variable {s : Store}

/-! ## Places -/

/-- A part of a part and so on of a term, with the number of binders of the term
around it. -/
inductive Within (s : Store) (id : TermId) : Nat → TermId → Prop where
  | self : Within s id 0 id
  | part {d e : Nat} {c p : TermId} (h : Within s id d c)
      (hp : (p, e) ∈ (s.node c).childrenWithDepth) : Within s id (d + e) p

theorem Within.of_part {id p : TermId} {e : Nat}
    (h : (p, e) ∈ (s.node id).childrenWithDepth) : s.Within id e p := by
  have := Within.part .self h
  rwa [Nat.zero_add] at this

theorem Within.trans {a b c : TermId} {d e : Nat} (hab : s.Within a d b)
    (hbc : s.Within b e c) : s.Within a (d + e) c := by
  induction hbc with
  | self => exact hab
  | part _ hp ih => exact Nat.add_assoc _ _ _ ▸ .part ih hp

theorem Within.reaches {id c : TermId} {d : Nat} (h : s.Within id d c) : s.Reaches id c := by
  induction h with
  | self => exact .refl _
  | part _ hp ih => exact ih.trans (reaches_of_mem_children (Node.mem_children_of_mem hp))

theorem Within.mem_looseVars {id c : TermId} {d i : Nat} (h : s.Within id d c)
    (hi : i + d ∈ s.looseVars c) : i ∈ s.looseVars id := by
  induction h generalizing i with
  | self => exact hi
  | part _ hp ih =>
      refine ih (mem_looseVars_of_part hp ?_)
      rwa [Nat.add_assoc]

/-- A place strictly inside a term: at least one part down. -/
def StrictlyWithin (s : Store) (id : TermId) (d : Nat) (c : TermId) : Prop :=
  s.Within id d c ∧ c < id

theorem strictlyWithin_part {id p : TermId} {e : Nat}
    (h : (p, e) ∈ (s.node id).childrenWithDepth) : s.StrictlyWithin id e p :=
  ⟨.of_part h, s.lt_of_mem_children (Node.mem_children_of_mem h)⟩

theorem StrictlyWithin.below {id c limit top : TermId} {d : Nat} (h : s.StrictlyWithin id d c)
    (hid : id ≤ limit ∧ s.Reaches top id) : c < limit ∧ s.Reaches top c :=
  ⟨h.2.trans_le hid.1, hid.2.trans h.1.reaches⟩

theorem StrictlyWithin.trans {a b c : TermId} {d e : Nat} (hab : s.StrictlyWithin a d b)
    (hbc : s.Within b e c) : s.StrictlyWithin a (d + e) c :=
  ⟨hab.1.trans hbc, lt_of_le_of_lt hbc.reaches.le hab.2⟩

/-! ## Applications -/

theorem strictlyWithin_app {id f a : TermId} (h : s.node id = .app f a) :
    s.StrictlyWithin id 0 f ∧ s.StrictlyWithin id 0 a :=
  ⟨strictlyWithin_part (by simp [h, Node.childrenWithDepth]),
    strictlyWithin_part (by simp [h, Node.childrenWithDepth])⟩

/-- Induction along the functions of applications. -/
@[elab_as_elim]
theorem app_induction {motive : TermId → Prop}
    (app : ∀ {id f a : TermId}, s.node id = .app f a → motive f → motive id)
    (other : ∀ {id : TermId}, (∀ f a, s.node id ≠ .app f a) → motive id) (id : TermId) :
    motive id := by
  induction id using Nat.strong_induction_on with
  | _ id ih =>
      by_cases happ : ∃ f a, s.node id = .app f a
      · obtain ⟨f, a, hnode⟩ := happ
        exact app hnode (ih f (s.lt_of_node_app hnode))
      · exact other fun f a hnode => happ ⟨f, a, hnode⟩

theorem spineOnto_app {id f a : TermId} (hnode : s.node id = .app f a) (stop : TermId → Bool)
    (args : List TermId) :
    s.spineOnto stop id args =
      if stop f then (f, a :: args) else s.spineOnto stop f (a :: args) := by
  rw [spineOnto]
  split
  case h_2 hnot => exact absurd hnode (hnot f a)
  case h_1 f' a' hnode' =>
    obtain ⟨rfl, rfl⟩ : f' = f ∧ a' = a := by simpa [hnode'] using hnode
    rfl

theorem spineOnto_of_not_app {id : TermId} (hnot : ∀ f a, s.node id ≠ .app f a)
    (stop : TermId → Bool) (args : List TermId) : s.spineOnto stop id args = (id, args) := by
  rw [spineOnto]
  split
  case h_1 f a hnode => exact absurd hnode (hnot f a)
  case h_2 => rfl

/-- The head and the arguments that a spine collects stand in its term. -/
theorem within_spineOnto (stop : TermId → Bool) (id : TermId) :
    ∀ args : List TermId, s.Within id 0 (s.spineOnto stop id args).1 ∧
      ∀ a ∈ (s.spineOnto stop id args).2, a ∈ args ∨ s.Within id 0 a := by
  induction id using app_induction (s := s) with
  | other hnot =>
      intro args
      rw [spineOnto_of_not_app hnot]
      exact ⟨.self, fun a ha => Or.inl ha⟩
  | @app id f a hnode ih =>
      intro args
      obtain ⟨hf, ha⟩ := strictlyWithin_app hnode
      rw [spineOnto_app hnode]
      split
      · refine ⟨hf.1, fun b hb => ?_⟩
        rcases List.mem_cons.mp hb with rfl | hb
        · exact Or.inr ha.1
        · exact Or.inl hb
      · obtain ⟨hhead, hargs⟩ := ih (a :: args)
        refine ⟨hf.1.trans hhead, fun b hb => ?_⟩
        rcases hargs b hb with hb | hb
        · rcases List.mem_cons.mp hb with rfl | hb
          · exact Or.inr ha.1
          · exact Or.inl hb
        · exact Or.inr (hf.1.trans hb)

theorem strictlyWithin_spineUntil {id f a : TermId} (h : s.node id = .app f a)
    (stop : TermId → Bool) :
    s.StrictlyWithin id 0 (s.spineUntil stop id).1 ∧
      ∀ b ∈ (s.spineUntil stop id).2, s.StrictlyWithin id 0 b := by
  obtain ⟨hf, ha⟩ := strictlyWithin_app h
  rw [spineUntil, spineOnto_app h]
  split
  · exact ⟨hf, by simpa using ha⟩
  · obtain ⟨hhead, hargs⟩ := within_spineOnto stop f [a]
    refine ⟨hf.trans hhead, fun b hb => ?_⟩
    rcases hargs b hb with hb | hb
    · rw [List.mem_singleton.mp hb]
      exact ha
    · exact hf.trans hb

/-- Where a spine stops depends on older nodes only. -/
theorem spineOnto_congr {stop stop' : TermId → Bool} (id : TermId) :
    (∀ i < id, stop i = stop' i) → ∀ args : List TermId,
      s.spineOnto stop id args = s.spineOnto stop' id args := by
  induction id using app_induction (s := s) with
  | other hnot => simp [spineOnto_of_not_app hnot]
  | @app id f a hnode ih =>
      intro h args
      have hf := s.lt_of_node_app hnode
      rw [spineOnto_app hnode, spineOnto_app hnode, h f hf, ih fun i hi => h i (hi.trans hf)]

theorem spineUntil_congr {stop stop' : TermId → Bool} {id : TermId}
    (h : ∀ i < id, stop i = stop' i) : s.spineUntil stop id = s.spineUntil stop' id :=
  spineOnto_congr id h []

/-- The arguments given to a spine stay behind those that it collects. -/
theorem spineOnto_eq_append (stop : TermId → Bool) (id : TermId) :
    ∀ args : List TermId, s.spineOnto stop id args =
      ((s.spineUntil stop id).1, (s.spineUntil stop id).2 ++ args) := by
  induction id using app_induction (s := s) with
  | other hnot => simp [spineUntil, spineOnto_of_not_app hnot]
  | @app id f a hnode ih =>
      intro args
      rw [spineUntil, spineOnto_app hnode, spineOnto_app hnode]
      split
      · rfl
      · rw [ih (a :: args), ih [a], List.append_assoc, List.singleton_append]

theorem spineUntil_app {id f a : TermId} (hnode : s.node id = .app f a)
    (stop : TermId → Bool) :
    s.spineUntil stop id =
      if stop f then (f, [a]) else ((s.spineUntil stop f).1, (s.spineUntil stop f).2 ++ [a]) := by
  rw [spineUntil, spineOnto_app hnode, spineOnto_eq_append]

theorem spine_app {id f a : TermId} (hnode : s.node id = .app f a) :
    s.spine id = ((s.spine f).1, (s.spine f).2 ++ [a]) :=
  spineUntil_app hnode _

theorem spineUntil_of_not_app {id : TermId} (hnot : ∀ f a, s.node id ≠ .app f a)
    (stop : TermId → Bool) : s.spineUntil stop id = (id, []) :=
  spineOnto_of_not_app hnot stop []

theorem spine_of_not_app {id : TermId} (hnot : ∀ f a, s.node id ≠ .app f a) :
    s.spine id = (id, []) :=
  spineUntil_of_not_app hnot _

/-- A term whose spine collects arguments is the application to the last of them. -/
theorem spine_eq_append {id head a : TermId} {args : List TermId}
    (h : s.spine id = (head, args ++ [a])) :
    ∃ f, s.node id = .app f a ∧ s.spine f = (head, args) := by
  by_cases happ : ∃ f b, s.node id = .app f b
  · obtain ⟨f, b, hnode⟩ := happ
    rw [spine_app hnode, Prod.mk.injEq] at h
    obtain ⟨hhead, hargs⟩ := h
    obtain ⟨hargs, hlast⟩ := List.append_inj' hargs rfl
    exact ⟨f, by rw [hnode, List.singleton_inj.mp hlast], Prod.ext hhead hargs⟩
  · rw [spine_of_not_app fun f b hnode => happ ⟨f, b, hnode⟩] at h
    simp at h

/-- A spine that stops early ends in an application. -/
theorem spineUntil_app_or_eq (stop : TermId → Bool) (id : TermId) :
    (∃ f a, s.node (s.spineUntil stop id).1 = .app f a) ∨ s.spineUntil stop id = s.spine id := by
  induction id using app_induction (s := s) with
  | other hnot => exact Or.inr (by rw [spineUntil_of_not_app hnot, spine_of_not_app hnot])
  | @app id f a hnode ih =>
      rw [spineUntil_app hnode, spine_app hnode]
      split
      · by_cases happ : ∃ f' a', s.node f = .app f' a'
        · exact Or.inl happ
        · rw [spine_of_not_app fun f' a' hnode' => happ ⟨f', a', hnode'⟩]
          exact Or.inr rfl
      · exact ih.imp_right fun heq => by rw [heq]

/-- A spine that may stop at fewer functions goes on from where the other one stops. -/
theorem spineUntil_eq_or_extends {stop stop' : TermId → Bool} {id : TermId}
    (hsub : ∀ c < id, stop' c = true → stop c = true) :
    s.spineUntil stop' id = s.spineUntil stop id ∨
      stop (s.spineUntil stop id).1 = true ∧ stop' (s.spineUntil stop id).1 = false ∧
        s.spineUntil stop' id =
          s.spineOnto stop' (s.spineUntil stop id).1 (s.spineUntil stop id).2 := by
  suffices h : ∀ args, s.spineOnto stop' id args = s.spineOnto stop id args ∨
      stop (s.spineOnto stop id args).1 = true ∧ stop' (s.spineOnto stop id args).1 = false ∧
        s.spineOnto stop' id args =
          s.spineOnto stop' (s.spineOnto stop id args).1 (s.spineOnto stop id args).2 from h []
  induction id using app_induction (s := s) with
  | other hnot => simp [spineOnto_of_not_app hnot]
  | @app id f a hnode ih =>
      intro args
      have hf := s.lt_of_node_app hnode
      rw [spineOnto_app hnode, spineOnto_app hnode]
      cases hstop' : stop' f with
      | true => simp [hsub f hf hstop']
      | false =>
          cases hstop : stop f with
          | true => simp [hstop, hstop']
          | false => simpa using ih (fun c hc => hsub c (hc.trans hf)) (a :: args)

/-- A spine of an application collects an argument. -/
theorem spineUntil_ne_nil {id f a : TermId} (h : s.node id = .app f a)
    (stop : TermId → Bool) : (s.spineUntil stop id).2 ≠ [] := by
  rw [spineUntil_app h]
  split <;> simp

/-! ## Chains of binders -/

/-- The two kinds of nodes that chains of binders are made of: function types and functions. -/
inductive ChainKind where
  | pi
  | lam

/-- A node of a kind binds the variable of a layer in front of a body. -/
inductive Binds (s : Store) : ChainKind → TermId → Layer → Prop where
  | pi {id ty b : TermId} {x : String} (h : s.node id = .pi x ty b) : Binds s .pi id ⟨x, ty, b⟩
  | lam {id ty b : TermId} {x : String} (h : s.node id = .lam x ty b) :
      Binds s .lam id ⟨x, ty, b⟩

/-- The layers of a chain that starts at a node, and what follows them.  The chain may end
anywhere, but it goes through no node where `stop` holds. -/
inductive Chain (s : Store) (k : ChainKind) (stop : TermId → Bool) :
    TermId → List Layer → TermId → Prop where
  | nil (id : TermId) : Chain s k stop id [] id
  | cons {id last : TermId} {l : Layer} {layers : List Layer} (hgo : stop id = false)
      (hl : s.Binds k id l) (rest : Chain s k stop l.body layers last) :
      Chain s k stop id (l :: layers) last

section Chains

variable {k : ChainKind} {stop : TermId → Bool} {id last : TermId} {l : Layer}
  {layers : List Layer}

theorem Binds.childrenWithDepth (h : s.Binds k id l) :
    (s.node id).childrenWithDepth = [(l.type, 0), (l.body, 1)] := by
  cases h with
  | pi h | lam h => rw [h]; rfl

theorem Binds.strictlyWithin_type (h : s.Binds k id l) : s.StrictlyWithin id 0 l.type :=
  strictlyWithin_part (by simp [h.childrenWithDepth])

theorem Binds.strictlyWithin_body (h : s.Binds k id l) : s.StrictlyWithin id 1 l.body :=
  strictlyWithin_part (by simp [h.childrenWithDepth])

/-- A type of a chain stands under the binders before it, and what follows the
chain under all of them. -/
theorem Chain.within (h : s.Chain k stop id layers last) :
    (∀ (j : Nat) (l : Layer), layers[j]? = some l → s.StrictlyWithin id j l.type) ∧
      s.Within id layers.length last := by
  induction h with
  | nil id => exact ⟨by simp, .self⟩
  | @cons id last l layers _ hl _ ih =>
      refine ⟨fun j l' hl' => ?_, ?_⟩
      · cases j with
        | zero =>
            cases hl'
            exact hl.strictlyWithin_type
        | succ j =>
            rw [Nat.add_comm j 1]
            exact hl.strictlyWithin_body.trans (ih.1 j l' hl').1
      · rw [List.length_cons, Nat.add_comm]
        exact hl.strictlyWithin_body.1.trans ih.2

/-- A chain with binders stands strictly inside its first node. -/
theorem Chain.strictlyWithin (h : s.Chain k stop id layers last) (hne : layers ≠ []) :
    (∀ (j : Nat) (l : Layer), layers[j]? = some l → s.StrictlyWithin id j l.type) ∧
      s.StrictlyWithin id layers.length last := by
  refine ⟨h.within.1, h.within.2, ?_⟩
  cases h with
  | nil => exact absurd rfl hne
  | cons _ hl rest => exact rest.within.2.reaches.le.trans_lt hl.strictlyWithin_body.2

/-- The types of a chain and what follows them are older than its first node. -/
theorem Chain.lt (h : s.Chain k stop id layers last) (hne : layers ≠ []) :
    (∀ l ∈ layers, l.type < id) ∧ last < id := by
  obtain ⟨htypes, hlast⟩ := h.strictlyWithin hne
  refine ⟨fun l hl => ?_, hlast.2⟩
  obtain ⟨j, hj⟩ := List.getElem?_of_mem hl
  exact (htypes j l hj).2

theorem Chain.unstopped (h : s.Chain k stop id layers last) :
    s.Chain k (fun _ => false) id layers last := by
  induction h with
  | nil id => exact .nil id
  | cons _ hl _ ih => exact .cons rfl hl ih

end Chains

/-! ## Chains of function types -/

theorem strictlyWithin_pi {id ty b : TermId} {x : String} (h : s.node id = .pi x ty b) :
    s.StrictlyWithin id 0 ty ∧ s.StrictlyWithin id 1 b :=
  ⟨(Binds.pi h).strictlyWithin_type, (Binds.pi h).strictlyWithin_body⟩

/-- The part of a chain of function types that starts at a body. -/
def piTail (s : Store) (stop : TermId → Bool) (b : TermId) : List Layer × TermId :=
  if stop b then ([], b) else s.piLayers stop b

theorem piLayers_of_node {id ty b : TermId} {x : String} (h : s.node id = .pi x ty b)
    (stop : TermId → Bool) :
    s.piLayers stop id = (⟨x, ty, b⟩ :: (s.piTail stop b).1, (s.piTail stop b).2) := by
  rw [piLayers]
  split
  case h_2 hnot => exact absurd h (hnot x ty b)
  case h_1 x' ty' b' hnode =>
    obtain ⟨rfl, rfl, rfl⟩ : x' = x ∧ ty' = ty ∧ b' = b := by simpa [hnode] using h
    unfold piTail
    split <;> rfl

theorem piLayers_of_not {id : TermId} (h : ∀ x ty b, s.node id ≠ .pi x ty b)
    (stop : TermId → Bool) : s.piLayers stop id = ([], id) := by
  rw [piLayers]
  split
  case h_1 x ty b hnode => exact absurd hnode (h x ty b)
  case h_2 => rfl

theorem piChain_of_node {id ty b : TermId} {x : String} (h : s.node id = .pi x ty b) :
    s.piChain id = ((x, ty) :: (s.piChain b).1, (s.piChain b).2) := by
  rw [piChain, piLayers_of_node h]
  simp [piTail, piChain]

theorem piChain_of_not {id : TermId} (h : ∀ x ty b, s.node id ≠ .pi x ty b) :
    s.piChain id = ([], id) := by
  rw [piChain, piLayers_of_not h]
  rfl

theorem chain_piTail (s : Store) (stop : TermId → Bool) (b : TermId) :
    s.Chain .pi stop b (s.piTail stop b).1 (s.piTail stop b).2 := by
  induction b using Nat.strong_induction_on with
  | _ b ih =>
      unfold piTail
      split
      · exact .nil b
      · next hgo =>
          by_cases hpi : ∃ x ty b', s.node b = .pi x ty b'
          · obtain ⟨x, ty, b', hnode⟩ := hpi
            rw [piLayers_of_node hnode]
            exact .cons (by simpa using hgo) (.pi hnode) (ih b' (s.lt_of_node_pi hnode))
          · rw [piLayers_of_not fun x ty b' h => hpi ⟨x, ty, b', h⟩]
            exact .nil b

theorem chain_piLayers (s : Store) (stop : TermId → Bool) (id : TermId) :
    s.Chain .pi (fun _ => false) id (s.piLayers stop id).1 (s.piLayers stop id).2 := by
  by_cases hpi : ∃ x ty b, s.node id = .pi x ty b
  · obtain ⟨x, ty, b, hnode⟩ := hpi
    rw [piLayers_of_node hnode]
    exact .cons rfl (.pi hnode) (s.chain_piTail stop b).unstopped
  · rw [piLayers_of_not fun x ty b h => hpi ⟨x, ty, b, h⟩]
    exact .nil id

theorem strictlyWithin_piLayers {id ty b : TermId} {x : String}
    (hnode : s.node id = .pi x ty b) (stop : TermId → Bool) :
    (∀ (j : Nat) (l : Layer), (s.piLayers stop id).1[j]? = some l →
      s.StrictlyWithin id j l.type) ∧
      s.StrictlyWithin id (s.piLayers stop id).1.length (s.piLayers stop id).2 :=
  (s.chain_piLayers stop id).strictlyWithin (by simp [piLayers_of_node hnode])

/-! ## Chains of functions -/

theorem strictlyWithin_lam {id ty b : TermId} {x : String} (h : s.node id = .lam x ty b) :
    s.StrictlyWithin id 0 ty ∧ s.StrictlyWithin id 1 b :=
  ⟨(Binds.lam h).strictlyWithin_type, (Binds.lam h).strictlyWithin_body⟩

/-- The part of a chain of functions that starts at a body. -/
def lamTail (s : Store) (stop : TermId → Bool) (b : TermId) : List Layer × TermId :=
  if stop b then ([], b) else s.lamLayers stop b

theorem lamLayers_of_node {id ty b : TermId} {x : String} (h : s.node id = .lam x ty b)
    (stop : TermId → Bool) :
    s.lamLayers stop id = (⟨x, ty, b⟩ :: (s.lamTail stop b).1, (s.lamTail stop b).2) := by
  rw [lamLayers]
  split
  case h_2 hnot => exact absurd h (hnot x ty b)
  case h_1 x' ty' b' hnode =>
    obtain ⟨rfl, rfl, rfl⟩ : x' = x ∧ ty' = ty ∧ b' = b := by simpa [hnode] using h
    unfold lamTail
    split <;> rfl

theorem lamLayers_of_not {id : TermId} (h : ∀ x ty b, s.node id ≠ .lam x ty b)
    (stop : TermId → Bool) : s.lamLayers stop id = ([], id) := by
  rw [lamLayers]
  split
  case h_1 x ty b hnode => exact absurd hnode (h x ty b)
  case h_2 => rfl

theorem lamChain_of_node {id ty b : TermId} {x : String} (h : s.node id = .lam x ty b) :
    s.lamChain id = ((x, ty) :: (s.lamChain b).1, (s.lamChain b).2) := by
  rw [lamChain, lamLayers_of_node h]
  simp [lamTail, lamChain]

theorem lamChain_of_not {id : TermId} (h : ∀ x ty b, s.node id ≠ .lam x ty b) :
    s.lamChain id = ([], id) := by
  rw [lamChain, lamLayers_of_not h]
  rfl

theorem chain_lamTail (s : Store) (stop : TermId → Bool) (b : TermId) :
    s.Chain .lam stop b (s.lamTail stop b).1 (s.lamTail stop b).2 := by
  induction b using Nat.strong_induction_on with
  | _ b ih =>
      unfold lamTail
      split
      · exact .nil b
      · next hgo =>
          by_cases hlam : ∃ x ty b', s.node b = .lam x ty b'
          · obtain ⟨x, ty, b', hnode⟩ := hlam
            rw [lamLayers_of_node hnode]
            exact .cons (by simpa using hgo) (.lam hnode) (ih b' (s.lt_of_node_lam hnode))
          · rw [lamLayers_of_not fun x ty b' h => hlam ⟨x, ty, b', h⟩]
            exact .nil b

theorem chain_lamLayers (s : Store) (stop : TermId → Bool) (id : TermId) :
    s.Chain .lam (fun _ => false) id (s.lamLayers stop id).1 (s.lamLayers stop id).2 := by
  by_cases hlam : ∃ x ty b, s.node id = .lam x ty b
  · obtain ⟨x, ty, b, hnode⟩ := hlam
    rw [lamLayers_of_node hnode]
    exact .cons rfl (.lam hnode) (s.chain_lamTail stop b).unstopped
  · rw [lamLayers_of_not fun x ty b h => hlam ⟨x, ty, b, h⟩]
    exact .nil id

theorem strictlyWithin_lamLayers {id ty b : TermId} {x : String}
    (hnode : s.node id = .lam x ty b) (stop : TermId → Bool) :
    (∀ (j : Nat) (l : Layer), (s.lamLayers stop id).1[j]? = some l →
      s.StrictlyWithin id j l.type) ∧
      s.StrictlyWithin id (s.lamLayers stop id).1.length (s.lamLayers stop id).2 :=
  (s.chain_lamLayers stop id).strictlyWithin (by simp [lamLayers_of_node hnode])

theorem within_piChain (s : Store) (id : TermId) :
    (∀ (j : Nat) (p : String × TermId), (s.piChain id).1[j]? = some p →
      s.StrictlyWithin id j p.2) ∧
      s.Within id (s.piChain id).1.length (s.piChain id).2 := by
  obtain ⟨htypes, hlast⟩ := (s.chain_piLayers (fun _ => false) id).within
  refine ⟨fun j p hp => ?_, ?_⟩
  · simp only [piChain, List.getElem?_map, Option.map_eq_some_iff] at hp
    obtain ⟨l, hl, rfl⟩ := hp
    exact htypes j l hl
  · simpa only [piChain, List.length_map] using hlast

theorem within_lamChain (s : Store) (id : TermId) :
    (∀ (j : Nat) (p : String × TermId), (s.lamChain id).1[j]? = some p →
      s.StrictlyWithin id j p.2) ∧
      s.Within id (s.lamChain id).1.length (s.lamChain id).2 := by
  obtain ⟨htypes, hlast⟩ := (s.chain_lamLayers (fun _ => false) id).within
  refine ⟨fun j p hp => ?_, ?_⟩
  · simp only [lamChain, List.getElem?_map, Option.map_eq_some_iff] at hp
    obtain ⟨l, hl, rfl⟩ := hp
    exact htypes j l hl
  · simpa only [lamChain, List.length_map] using hlast

end Store

end TermGraph
