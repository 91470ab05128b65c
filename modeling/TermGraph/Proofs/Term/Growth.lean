import Mathlib
import TermGraph.Proofs.Term.Unfold

/-!
# How a store grows

A store changes only by taking in nodes, one behind the other, so whatever is stored
stays as it is.  A computation that is put together from such steps grows the store
too; for lifting this is an induction on the lifted term, whose parts are lifted on the
way.
-/

namespace TermGraph

namespace Store

/-- Everything that is stored in `s` is stored in `s'` under the same identity. -/
structure Extends (s s' : Store) : Prop where
  size_le : s.size ≤ s'.size
  node_eq : ∀ id < s.size, s'.node id = s.node id
  looseVars_eq : ∀ id < s.size, s'.looseVars id = s.looseVars id

theorem Extends.refl (s : Store) : s.Extends s :=
  ⟨le_rfl, fun _ _ => rfl, fun _ _ => rfl⟩

theorem Extends.trans {a b c : Store} (hab : a.Extends b) (hbc : b.Extends c) : a.Extends c where
  size_le := le_trans hab.size_le hbc.size_le
  node_eq id hid :=
    (hbc.node_eq id (lt_of_lt_of_le hid hab.size_le)).trans (hab.node_eq id hid)
  looseVars_eq id hid :=
    (hbc.looseVars_eq id (lt_of_lt_of_le hid hab.size_le)).trans (hab.looseVars_eq id hid)

theorem extends_push (s : Store) (n : Node TermId) (known : ∀ c ∈ n.children, c < s.nodes.size)
    (new : s.index[n]? = none) : s.Extends (s.push n known new) := by
  have hkeep : ∀ {α : Type} (xs : Array α) (x d : α) {id : Nat}, id < xs.size →
      (xs.push x).getD id d = xs.getD id d := by
    intro α xs x d id hid
    rw [Array.getD_eq_getD_getElem?, Array.getD_eq_getD_getElem?, Array.getElem?_push_lt hid,
      Array.getElem?_eq_getElem hid]
  refine ⟨?_, fun id hid => ?_, fun id hid => ?_⟩
  · rw [size, size, push, Array.size_push]
    exact Nat.le_succ _
  · rw [node, node, push]
    exact hkeep _ _ _ hid
  · rw [looseVars, looseVars, push]
    exact hkeep _ _ _ (s.size_loose ▸ hid)

end Store

namespace Build

variable {α β : Type}

/-- A computation that only adds nodes. -/
def Grows (m : Build α) : Prop :=
  ∀ s : Store, s.Extends (m s).2

theorem grows_pure (a : α) : Grows (pure a) :=
  fun s => .refl s

theorem grows_get : Grows (get : Build Store) :=
  fun s => .refl s

theorem grows_bind {m : Build α} {f : α → Build β} (hm : Grows m) (hf : ∀ a, Grows (f a)) :
    Grows (m >>= f) :=
  fun s => (hm s).trans (hf (m s).1 (m s).2)

theorem grows_intern (n : Node TermId) : Grows (intern n) := by
  intro s
  unfold intern
  split
  · exact .refl s
  · rename_i new
    split
    · rename_i known
      exact s.extends_push n known new
    · exact .refl s

/-- A node that is not stored and whose parts are goes behind the others. -/
theorem intern_eq_push {s : Store} {n : Node TermId} (known : ∀ c ∈ n.children, c < s.nodes.size)
    (new : n ∉ s.nodes.toList) :
    intern n s = (s.size, s.push n known (Store.index_eq_none new)) := by
  unfold intern
  split
  · rename_i id hid
    rw [Store.index_eq_none new] at hid
    cases hid
  · rw [dif_pos known]
    rfl

theorem grows_mapM {f : α → Build β} (hf : ∀ a, Grows (f a)) (as : List α) :
    Grows (as.mapM f) := by
  induction as with
  | nil => exact grows_pure []
  | cons a as ih =>
      rw [List.mapM_cons]
      exact grows_bind (hf a) fun _ => grows_bind ih fun _ => grows_pure _

theorem grows_foldlM {f : β → α → Build β} (hf : ∀ b a, Grows (f b a)) (as : List α) (b : β) :
    Grows (as.foldlM f b) := by
  induction as generalizing b with
  | nil => exact grows_pure b
  | cons a as ih => exact grows_bind (hf b a) ih

/-- Rebuilding a layer grows the store if rebuilding each part does. -/
theorem grows_traverse {f : Nat → TermId → Build TermId} (hf : ∀ d c, Grows (f d c))
    (n : Node TermId) : Grows (n.traverse f) := by
  have hnamed : ∀ {γ : Type} (ps : List (γ × TermId)),
      Grows (ps.mapM fun p => do return (p.1, ← f 0 p.2)) :=
    fun ps => grows_mapM (fun p => grows_bind (hf 0 p.2) fun _ => grows_pure _) ps
  have hlist : ∀ cs : List TermId, Grows (cs.mapM (f 0)) := grows_mapM (hf 0)
  cases n with
  | global i | bound i | sort l fl | nat k | string t | bool b | unit | unitType =>
      exact grows_pure _
  | constant i ty body =>
      cases body with
      | none => exact grows_bind (hf 0 ty) fun _ => grows_pure _
      | some b => exact grows_bind (hf 0 ty) fun _ => grows_bind (hf 0 b) fun _ => grows_pure _
  | free x a | pairLeft a | pairRight a | proj a x =>
      exact grows_bind (hf 0 a) fun _ => grows_pure _
  | app a b | pair a b | pairType a b =>
      exact grows_bind (hf 0 a) fun _ => grows_bind (hf 0 b) fun _ => grows_pure _
  | recordType fs | record fs => exact grows_bind (hnamed fs) fun _ => grows_pure _
  | array ty es =>
      exact grows_bind (hf 0 ty) fun _ => grows_bind (hlist es) fun _ => grows_pure _
  | data i ps xs | ctor i ps xs =>
      exact grows_bind (hlist ps) fun _ => grows_bind (hlist xs) fun _ => grows_pure _
  | recursor i ps mo order cs =>
      exact grows_bind (hlist ps) fun _ => grows_bind (hf 0 mo) fun _ =>
        grows_bind (hnamed cs) fun _ => grows_pure _
  | lam x ty b | pi x ty b | fix x ty b =>
      exact grows_bind (hf 0 ty) fun _ => grows_bind (hf 1 b) fun _ => grows_pure _
  | letIn x ty v b =>
      exact grows_bind (hf 0 ty) fun _ => grows_bind (hf 0 v) fun _ =>
        grows_bind (hf 1 b) fun _ => grows_pure _

/-- Lifting grows the store, by induction on the lifted term. -/
theorem grows_liftAbove (amount : Nat) (id : TermId) :
    ∀ cutoff, Grows (liftAbove amount cutoff id) := by
  induction id using Nat.strong_induction_on with
  | _ id ih =>
      intro cutoff
      rw [liftAbove]
      refine grows_bind grows_get fun s => ?_
      split
      · exact grows_pure id
      · split
        · exact grows_intern _
        · refine grows_bind (grows_traverse (fun d c => ?_) _) fun n => grows_intern n
          split
          · rename_i hlt
            exact ih c hlt _
          · exact grows_pure c

theorem grows_lift (id : TermId) (amount : Nat) : Grows (lift id amount) :=
  grows_liftAbove amount id 0

/-! ## Calls -/

/-- A way to build terms; every other one takes in a single node. -/
inductive Call where
  | intern (n : Node TermId)
  | prelude (name : String)
  | applyAll (fn : TermId) (args : List TermId)
  | applyPrelude (name : String) (args : List TermId)
  | arrow (source target : TermId)
  | boolType
  | natType
  | vecType (length : Nat) (elem : TermId)
  | wordType (width : Nat)
  | wordLit (width value : Nat)
  | lift (id : TermId) (amount : Nat)

/-- What a call does. -/
def Call.build : Call → Build TermId
  | intern n => TermGraph.intern n
  | prelude name => Build.prelude name
  | applyAll fn args => Build.applyAll fn args
  | applyPrelude name args => Build.applyPrelude name args
  | arrow source target => Build.arrow source target
  | boolType => Build.boolType
  | natType => Build.natType
  | vecType length elem => Build.vecType length elem
  | wordType width => Build.wordType width
  | wordLit width value => Build.wordLit width value
  | lift id amount => TermGraph.lift id amount

theorem grows_applyAll (fn : TermId) (args : List TermId) : Grows (applyAll fn args) :=
  grows_foldlM (fun _ _ => grows_intern _) args fn

theorem grows_applyPrelude (name : String) (args : List TermId) :
    Grows (applyPrelude name args) :=
  grows_bind (grows_intern _) fun fn => grows_applyAll fn args

theorem grows_vecType (length : Nat) (elem : TermId) : Grows (vecType length elem) :=
  grows_bind (grows_intern _) fun length => grows_applyPrelude "Vec" [length, elem]

theorem Call.grows (c : Call) : Grows c.build := by
  cases c with
  | intern n => exact grows_intern n
  | prelude name => exact grows_intern _
  | applyAll fn args => exact grows_applyAll fn args
  | applyPrelude name args => exact grows_applyPrelude name args
  | arrow source target => exact grows_bind (grows_lift target 1) fun _ => grows_intern _
  | boolType => exact grows_intern _
  | natType => exact grows_intern _
  | vecType length elem => exact grows_vecType length elem
  | wordType width => exact grows_bind (grows_intern _) fun bool => grows_vecType width bool
  | wordLit width value =>
      exact grows_bind (grows_intern _) fun _ =>
        grows_bind (grows_mapM (fun _ => grows_intern _) _) fun _ => grows_intern _
  | lift id amount => exact grows_lift id amount

end Build

namespace Store

/-- The store after some calls, one after the other. -/
def after (s : Store) (calls : List Build.Call) : Store :=
  calls.foldl (fun s c => (c.build s).2) s

theorem extends_after (s : Store) (calls : List Build.Call) : s.Extends (s.after calls) := by
  induction calls generalizing s with
  | nil => exact .refl s
  | cons c calls ih => exact (c.grows s).trans (ih _)

/-- Maximal sharing.  After any calls parts are older than their nodes, no two nodes have
the same tree, and further calls leave every node and its loose variables as they are. -/
theorem sharing_maximal (calls : List Build.Call) :
    (∀ id, ∀ c ∈ ((empty.after calls).node id).children, c < id) ∧
      (∀ i j, i < (empty.after calls).size → j < (empty.after calls).size →
        (empty.after calls).unfold i = (empty.after calls).unfold j → i = j) ∧
      ∀ more id, id < (empty.after calls).size →
        (empty.after (calls ++ more)).node id = (empty.after calls).node id ∧
          (empty.after (calls ++ more)).looseVars id = (empty.after calls).looseVars id := by
  refine ⟨fun id c hc => lt_of_mem_children _ hc, fun i j hi hj h => eq_of_unfold_eq hi hj h,
    fun more id hid => ?_⟩
  have hsplit : empty.after (calls ++ more) = (empty.after calls).after more := List.foldl_append
  have hext := (empty.after calls).extends_after more
  rw [hsplit]
  exact ⟨hext.node_eq id hid, hext.looseVars_eq id hid⟩

/-- Calls that store the unit value and the pair of it with itself. -/
def pairCalls : List Build.Call :=
  [.intern .unit, .intern (.pair 0 0)]

/-- The store after these calls. -/
def pairStore : Store :=
  (empty.push .unit (by decide) (index_eq_none (by decide))).push (.pair 0 0)
    (by decide) (index_eq_none (by decide))

theorem after_pairCalls : empty.after pairCalls = pairStore := by
  have hunit := Build.intern_eq_push (s := empty) (n := .unit) (by decide) (by decide)
  have hpair := Build.intern_eq_push
    (s := empty.push .unit (by decide) (index_eq_none (by decide))) (n := .pair 0 0)
    (by decide) (by decide)
  simp only [after, pairCalls, List.foldl_cons, List.foldl_nil, Build.Call.build, hunit, hpair]
  rfl

/-- The two trees differ, and the pair is where it was after it has been stored again and
lifted. -/
theorem sharing_maximal_pair :
    0 < (empty.after pairCalls).size ∧ 1 < (empty.after pairCalls).size ∧
      (empty.after pairCalls).unfold 0 ≠ (empty.after pairCalls).unfold 1 ∧
      (empty.after (pairCalls ++ [.intern (.pair 0 0), .lift 1 1])).node 1 = .pair 0 0 := by
  obtain ⟨-, hinjective, hkept⟩ := sharing_maximal pairCalls
  have hsize : (empty.after pairCalls).size = 2 := by
    rw [after_pairCalls]
    rfl
  have h0 : 0 < (empty.after pairCalls).size := by omega
  have h1 : 1 < (empty.after pairCalls).size := by omega
  refine ⟨h0, h1, fun h => absurd (hinjective 0 1 h0 h1 h) (by decide), ?_⟩
  rw [(hkept [.intern (.pair 0 0), .lift 1 1] 1 h1).1, after_pairCalls]
  rfl

end Store

end TermGraph
