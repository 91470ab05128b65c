import Mathlib
import TermGraph.Proofs.Term.FreeVariables
import TermGraph.Proofs.Translate.Again
import TermGraph.Proofs.Translate.Entered
import TermGraph.Proofs.Value.Fields

/-!
# Translating records with fields in any order

Records are translated field by field in ascending order of the names, so two records that have
the same fields in different orders are the same computation: they emit the same declarations in
the same order, and come to the same term or to the same error.  Before that the translator looks
at the whole term twice, for the names in use and for shared subterms.  Neither look tells the
two records apart.
-/

namespace TermGraph

open Target Store

variable {cfg : Config} {s : Store} {id id' : TermId} {fields fields' : List (String × TermId)}

/-! ## Nodes -/

theorem translateFields_congr {render render' : Render} {scope : Scope} (cons nil : String)
    {fields : List (String × TermId)}
    (h : ∀ p ∈ fields, render scope p.2 = render' scope p.2) :
    translateFields render scope cons nil fields =
      translateFields render' scope cons nil fields := by
  induction fields with
  | nil => rfl
  | cons p rest ih =>
      obtain ⟨hp, hrest⟩ := List.forall_mem_cons.mp h
      rw [translateFields, translateFields, translateTerm, translateTerm, hp, ih hrest]

/-- At every place of a term, the two records are translated by the same computation. -/
theorem Store.Reorders.translateNode_eq (h : s.Reorders id id' fields fields') (cfg : Config)
    (scope : Scope) : cfg.translateNode s scope id = cfg.translateNode s scope id' := by
  have hrecord (cons nil : String) :
      translateRecord (cfg.renderBelow s id) scope cons nil fields =
        translateRecord (cfg.renderBelow s id') scope cons nil fields' := by
    rw [translateRecord, translateRecord, Value.mergeSort_eq_of_perm h.names h.perm]
    refine translateFields_congr cons nil fun p hp => ?_
    have hp' : p ∈ fields' := List.mem_mergeSort.mp hp
    rw [renderBelow_eq (h.lt (h.perm.mem_iff.mpr hp')), renderBelow_eq (h.symm.lt hp')]
  rw [TermGraph.translateNode_eq, TermGraph.translateNode_eq, translateStep, translateStep]
  rcases h.nodes with ⟨hnode, hnode'⟩ | ⟨hnode, hnode'⟩ <;> rw [hnode, hnode'] <;>
    exact hrecord _ _

/-! ## Units -/

/-- A unit that has the same names in use starts in the same way. -/
theorem Scope.level_ofUnit {same : Prop} {roots roots' : List TermId} (e : Emission)
    (h : ∀ x, x ∈ cfg.namesInUse s roots' ↔ x ∈ cfg.namesInUse s roots) :
    Scope.Level same (Scope.ofUnit cfg e s roots) (Scope.ofUnit cfg e s roots') where
  shared := by simp only [Scope.ofUnit]
  depth := by simp only [Scope.depth, Scope.ofUnit]
  agrees := fun _ => ⟨by simp only [Scope.ofUnit], fun x => by simp [Scope.ofUnit, h x]⟩

theorem mem_namesInUse_iff {root : TermId} {x : String} :
    x ∈ cfg.namesInUse s [root] ↔ x ∈ cfg.rootsOfNode (s.node root) ∨
      ∃ c ∈ (s.node root).children, ∃ p ∈ s.positions c, x ∈ cfg.rootsOfNode (s.node p) := by
  simp only [Config.namesInUse, preorder_eq_eraseDups, positions_eq s root, List.mem_flatMap,
    List.mem_eraseDups, List.mem_cons]
  constructor
  · rintro ⟨p, rfl | ⟨c, hc, hp⟩, hx⟩
    · exact .inl hx
    · exact .inr ⟨c, hc, p, hp, hx⟩
  · rintro (hx | ⟨c, hc, p, hp, hx⟩)
    · exact ⟨root, .inl rfl, hx⟩
    · exact ⟨p, .inr ⟨c, hc, hp⟩, hx⟩

theorem Store.Reorders.mem_namesInUse (h : s.Reorders id id' fields fields') (x : String) :
    x ∈ cfg.namesInUse s [id'] ↔ x ∈ cfg.namesInUse s [id] := by
  have hroots : cfg.rootsOfNode (s.node id) = [] ∧ cfg.rootsOfNode (s.node id') = [] := by
    rcases h.nodes with ⟨hnode, hnode'⟩ | ⟨hnode, hnode'⟩ <;> rw [hnode, hnode'] <;>
      exact ⟨rfl, rfl⟩
  rw [mem_namesInUse_iff, mem_namesInUse_iff, hroots.1, hroots.2]
  simp only [h.children_perm.mem_iff]

theorem Store.Reorders.namedTerms_eq (h : s.Reorders id id' fields fields') (cfg : Config) :
    cfg.namedTerms s id = cfg.namedTerms s id' := by
  have hrendered : (s.renderedChildren (s.node id)).Perm (s.renderedChildren (s.node id')) := by
    have hchildren := h.children_perm
    rcases h.nodes with ⟨hnode, hnode'⟩ | ⟨hnode, hnode'⟩ <;> rw [hnode, hnode'] at hchildren ⊢ <;>
      exact hchildren
  exact sharedTermsBy_eq_of_perm (fun _ _ hc => lt_of_mem_renderedChildren hc) rfl hrendered _

theorem translateTerm_of_not_mem {render : Render} {scope : Scope} (h : id ∉ scope.shared) :
    translateTerm render scope id = render scope id := by
  rw [translateTerm, Std.HashMap.getElem?_eq_none h]

/-- As terms of their own, the two records are translated by the same computation as well. -/
theorem Store.Reorders.translateLifted_eq (h : s.Reorders id id' fields fields') {scope : Scope}
    (hscope : ∀ k, k ∉ scope.shared) :
    translateLifted cfg s (cfg.translateNode s) scope id =
      translateLifted cfg s (cfg.translateNode s) scope id' := by
  -- Neither record is among the subterms with names, which are older than either of them.
  have hterm {scope' : Scope} (hshared : ∀ k ∈ scope'.shared, k ∈ cfg.namedTerms s id) :
      translateTerm (cfg.translateNode s) scope' id =
        translateTerm (cfg.translateNode s) scope' id' := by
    have hroot {root : TermId} (hmem : root ∈ cfg.namedTerms s root) : False :=
      lt_irrefl root (lt_of_mem_sharedTermsBy (fun _ _ hc => lt_of_mem_renderedChildren hc) rfl
        hmem)
    rw [translateTerm_of_not_mem fun hid => hroot (hshared id hid),
      translateTerm_of_not_mem fun hid => hroot (h.namedTerms_eq cfg ▸ hshared id' hid),
      h.translateNode_eq]
  unfold translateLifted
  rw [h.namedTerms_eq cfg] at hterm ⊢
  generalize cfg.namedTerms s id' = ids at hterm ⊢
  dsimp only
  split
  · exact hterm fun k hk => absurd hk (hscope k)
  · refine congrArg (_ >>= ·) (funext fun bindings => ?_)
    rw [hterm fun k hk => ?_]
    rcases Scope.of_mem_share hk with hk | ⟨p, hp, rfl⟩
    · rw [Scope.shared_freshMany] at hk
      exact absurd hk (hscope k)
    · exact (List.of_mem_zip hp).1

/-- The names that scopes hold are all that tells them apart. -/
theorem translateLifted_congr {scope scope' : Scope} (h : Scope.Level True scope scope')
    (root : TermId) : translateLifted cfg s (cfg.translateNode s) scope' root =
      translateLifted cfg s (cfg.translateNode s) scope root := by
  have hrender : ∀ {scope scope'}, Scope.Level True scope scope' →
      ∀ {c}, s.Enclosed False (root + 1) scope.depth c →
        Alike False (cfg.translateNode s scope c) (cfg.translateNode s scope' c)
          (EqualIf True) := by
    intro scope scope' h c _
    exact alike_translateNode c h
  have hlifted : Alike False (translateLifted cfg s (cfg.translateNode s) scope root)
      (translateLifted cfg s (cfg.translateNode s) scope' root) (EqualIf True) :=
    rel_lifted (J := alike False) hrender h ⟨Nat.lt_succ_self root, False.elim⟩
  exact funext (Alike.exec_eq hlifted)

/-- From every emission, the two records are translated in a unit of their own by the same
computation. -/
theorem Store.Reorders.translateRoot_eq (h : s.Reorders id id' fields fields') (cfg : Config) :
    cfg.translateRoot s id = cfg.translateRoot s id' := by
  refine congrArg (get >>= ·) (funext fun e => ?_)
  rw [translateLifted_congr (Scope.level_ofUnit e h.symm.mem_namesInUse),
    h.translateLifted_eq fun k => ?_]
  exact Std.HashMap.not_mem_empty

/-- So the session goes on alike. -/
theorem Store.Reorders.translate_eq (h : s.Reorders id id' fields fields') (cfg : Config)
    (e : Emission) : cfg.translate s id e = cfg.translate s id' e := by
  rw [Config.translate, Config.translate, Config.termWithDeclarations,
    Config.termWithDeclarations, h.translateRoot_eq]

end TermGraph
