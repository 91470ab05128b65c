import Mathlib
import TermGraph.Proofs.Target.Resolve
import TermGraph.Term.Store

/-!
# Binders around a place, seen from both sides

The binders around a place of a term and the binders around its translation do
not match one to one: a binder of the term may have no name, a hypothesis has a
name without a binder of the term, and the name of a shared subterm has neither.
A context lists all of them, innermost first, and says for a bound variable and
for a shared subterm which of the names is meant.
-/

namespace TermGraph

/-- A binder around a place of a term or around its translation. -/
inductive Slot where
  /-- A binder of the term that has a name. -/
  | named
  /-- A binder of the term that has none. -/
  | unnamed
  /-- A name without a binder of the term. -/
  | extra
  /-- The name of a shared subterm. -/
  | lifted (id : TermId)
  deriving DecidableEq, Repr

/-- The binders around a place, innermost first. -/
abbrev Context : Type :=
  List Slot

namespace Context

/-- The number, among the names, of the name of a bound variable. -/
def local? : Context → Nat → Option Nat
  | [], _ => none
  | .named :: _, 0 => some 0
  | .unnamed :: _, 0 => none
  | .named :: rest, i + 1 => (local? rest i).map (· + 1)
  | .unnamed :: rest, i + 1 => local? rest i
  | .extra :: rest, i | .lifted _ :: rest, i => (local? rest i).map (· + 1)

/-- The number, among the names, of the name of a shared subterm. -/
def lifted? : Context → TermId → Option Nat
  | [], _ => none
  | .lifted t :: rest, id => if t = id then some 0 else (lifted? rest id).map (· + 1)
  | .unnamed :: rest, id => lifted? rest id
  | .named :: rest, id | .extra :: rest, id => (lifted? rest id).map (· + 1)

/-- Whether a subterm has a name. -/
def isLifted (ctx : Context) (id : TermId) : Bool :=
  (ctx.lifted? id).isSome

/-- Whether a bound variable belongs to a binder without a name. -/
def isUnnamed : Context → Nat → Bool
  | [], _ => false
  | .named :: _, 0 => false
  | .unnamed :: _, 0 => true
  | .named :: rest, i + 1 | .unnamed :: rest, i + 1 => isUnnamed rest i
  | .extra :: rest, i | .lifted _ :: rest, i => isUnnamed rest i

/-- No variable of a list belongs to a binder without a name. -/
def Covers (ctx : Context) (vars : List Nat) : Prop :=
  ∀ i ∈ vars, ctx.isUnnamed i = false

/-- The names of a context, and the names of the binders of the term, where a
blank stands for a missing one. -/
inductive Spelled : Context → List String → List String → Prop where
  | nil : Spelled [] [] []
  | named {ctx names env} (x : String) (h : Spelled ctx names env) :
      Spelled (.named :: ctx) (x :: names) (x :: env)
  | unnamed {ctx names env} (h : Spelled ctx names env) :
      Spelled (.unnamed :: ctx) names ("_" :: env)
  | extra {ctx names env} (x : String) (h : Spelled ctx names env) :
      Spelled (.extra :: ctx) (x :: names) env
  | lifted {ctx names env} (id : TermId) (x : String) (h : Spelled ctx names env) :
      Spelled (.lifted id :: ctx) (x :: names) env

variable {ctx : Context} {names env : List String}

/-- A variable of a binder with a name refers to that name. -/
theorem Spelled.local?_eq (h : Spelled ctx names env) {i : Nat} {x : String}
    (hx : env[i]? = some x) (hi : ctx.isUnnamed i = false) :
    ∃ k, ctx.local? i = some k ∧ names[k]? = some x := by
  induction h generalizing i with
  | nil => simp at hx
  | named y _ ih =>
      cases i with
      | zero => exact ⟨0, rfl, hx⟩
      | succ i =>
          obtain ⟨k, hk, hn⟩ := ih hx hi
          exact ⟨k + 1, by simp [local?, hk], hn⟩
  | unnamed _ ih =>
      cases i with
      | zero => cases hi
      | succ i => exact ih hx hi
  | extra y _ ih =>
      obtain ⟨k, hk, hn⟩ := ih hx hi
      exact ⟨k + 1, by simp [local?, hk], hn⟩
  | lifted t y _ ih =>
      obtain ⟨k, hk, hn⟩ := ih hx hi
      exact ⟨k + 1, by simp [local?, hk], hn⟩

/-- A variable that refers to a name belongs to a binder. -/
theorem Spelled.exists_of_local? (h : Spelled ctx names env) {i k : Nat}
    (hk : ctx.local? i = some k) : ∃ x, env[i]? = some x := by
  induction h generalizing i k with
  | nil => cases hk
  | named y _ ih =>
      cases i with
      | zero => exact ⟨y, rfl⟩
      | succ i =>
          obtain ⟨j, hj, _⟩ := Option.map_eq_some_iff.mp hk
          exact ih hj
  | unnamed _ ih =>
      cases i with
      | zero => cases hk
      | succ i => exact ih hk
  | extra y _ ih | lifted t y _ ih =>
      obtain ⟨j, hj, _⟩ := Option.map_eq_some_iff.mp hk
      exact ih hj

/-- A shared subterm with a place in the context has a name. -/
theorem Spelled.lifted?_lt (h : Spelled ctx names env) {id : TermId} {k : Nat}
    (hk : ctx.lifted? id = some k) : k < names.length := by
  induction h generalizing k with
  | nil => cases hk
  | unnamed _ ih => exact ih hk
  | named y _ ih | extra y _ ih =>
      obtain ⟨j, hj, rfl⟩ := Option.map_eq_some_iff.mp hk
      exact Nat.succ_lt_succ (ih hj)
  | lifted t y _ ih =>
      rw [lifted?] at hk
      split at hk
      · cases hk
        exact Nat.succ_pos _
      · obtain ⟨j, hj, rfl⟩ := Option.map_eq_some_iff.mp hk
        exact Nat.succ_lt_succ (ih hj)

/-- The name of a shared subterm, if it has one. -/
def liftedName? (ctx : Context) (names : List String) (id : TermId) : Option String :=
  (ctx.lifted? id).bind (names[·]?)

theorem liftedName?_named (x : String) (id : TermId) :
    liftedName? (.named :: ctx) (x :: names) id = liftedName? ctx names id := by
  unfold liftedName?
  rw [lifted?]
  cases ctx.lifted? id <;> simp

theorem liftedName?_extra (x : String) (id : TermId) :
    liftedName? (.extra :: ctx) (x :: names) id = liftedName? ctx names id := by
  unfold liftedName?
  rw [lifted?]
  cases ctx.lifted? id <;> simp

theorem liftedName?_lifted (t id : TermId) (x : String) :
    liftedName? (.lifted t :: ctx) (x :: names) id =
      if t = id then some x else liftedName? ctx names id := by
  unfold liftedName?
  rw [lifted?]
  split
  · rfl
  · cases ctx.lifted? id <;> simp

theorem liftedName?_eq_some {id : TermId} {x : String}
    (hx : liftedName? ctx names id = some x) :
    ∃ k, ctx.lifted? id = some k ∧ names[k]? = some x :=
  Option.bind_eq_some_iff.mp hx

theorem liftedName?_eq_none (h : Spelled ctx names env) {id : TermId}
    (hx : liftedName? ctx names id = none) : ctx.lifted? id = none := by
  cases hk : ctx.lifted? id with
  | none => rfl
  | some k =>
      have hlt := h.lifted?_lt hk
      rw [liftedName?, hk, Option.bind_some, List.getElem?_eq_getElem hlt] at hx
      cases hx

/-- A name that stands in for a binder of the term until its hypotheses are
named becomes the name of that binder. -/
theorem Spelled.promote {m : Nat} {x : String} :
    ∀ {names : List String}, Spelled (List.replicate m .extra ++ .extra :: ctx) names env →
      names[m]? = some x →
      Spelled (List.replicate m .extra ++ .named :: ctx) names (x :: env) := by
  induction m with
  | zero =>
      intro names h hx
      cases h with
      | extra y h =>
          cases hx
          exact .named _ h
  | succ m ih =>
      intro names h hx
      cases h with
      | extra y h => exact .extra y (ih h hx)

theorem lifted?_promote (m : Nat) (id : TermId) :
    lifted? (List.replicate m .extra ++ .named :: ctx) id =
      lifted? (List.replicate m .extra ++ .extra :: ctx) id := by
  induction m with
  | zero => rfl
  | succ m ih => simp only [List.replicate_succ, List.cons_append, lifted?, ih]

/-! ## Covered variables -/

theorem isUnnamed_replicate_extra (m i : Nat) :
    isUnnamed (List.replicate m .extra ++ ctx) i = isUnnamed ctx i := by
  induction m with
  | zero => rfl
  | succ m ih => simpa only [List.replicate_succ, List.cons_append, isUnnamed] using ih

/-! ## Contexts inside contexts -/

/-- The number of names. -/
def width : Context → Nat
  | [] => 0
  | .unnamed :: rest => width rest
  | .named :: rest | .extra :: rest | .lifted _ :: rest => width rest + 1

/-- The number of binders of the term. -/
def depth : Context → Nat
  | [] => 0
  | .named :: rest | .unnamed :: rest => depth rest + 1
  | .extra :: rest | .lifted _ :: rest => depth rest

theorem local?_lt {i k : Nat} (h : ctx.local? i = some k) : k < ctx.width := by
  induction ctx generalizing i k with
  | nil => cases h
  | cons slot rest ih =>
      cases slot with
      | named =>
          cases i with
          | zero =>
              cases h
              exact Nat.succ_pos _
          | succ i =>
              obtain ⟨j, hj, rfl⟩ := Option.map_eq_some_iff.mp h
              exact Nat.succ_lt_succ (ih hj)
      | unnamed =>
          cases i with
          | zero => cases h
          | succ i => exact ih h
      | extra | lifted t =>
          obtain ⟨j, hj, rfl⟩ := Option.map_eq_some_iff.mp h
          exact Nat.succ_lt_succ (ih hj)

theorem lifted?_lt {id k : Nat} (h : ctx.lifted? id = some k) : k < ctx.width := by
  induction ctx generalizing k with
  | nil => cases h
  | cons slot rest ih =>
      cases slot with
      | unnamed => exact ih h
      | named | extra =>
          obtain ⟨j, hj, rfl⟩ := Option.map_eq_some_iff.mp h
          exact Nat.succ_lt_succ (ih hj)
      | lifted t =>
          rw [lifted?] at h
          split at h
          · cases h
            exact Nat.succ_pos _
          · obtain ⟨j, hj, rfl⟩ := Option.map_eq_some_iff.mp h
            exact Nat.succ_lt_succ (ih hj)

/-- A variable of an inner binder. -/
theorem local?_append_of_lt (q outer : Context) {i : Nat} (h : i < q.depth) :
    local? (q ++ outer) i = q.local? i := by
  induction q generalizing i with
  | nil => cases h
  | cons slot rest ih =>
      cases slot with
      | named =>
          cases i with
          | zero => rfl
          | succ i =>
              rw [List.cons_append, local?, local?, ih (Nat.lt_of_succ_lt_succ h)]
      | unnamed =>
          cases i with
          | zero => rfl
          | succ i => exact ih (Nat.lt_of_succ_lt_succ h)
      | extra | lifted t => rw [List.cons_append, local?, local?, ih h]

/-- A variable of an outer binder. -/
theorem local?_append_add (q outer : Context) (i : Nat) :
    local? (q ++ outer) (i + q.depth) = (outer.local? i).map (· + q.width) := by
  induction q with
  | nil => simp [depth, width]
  | cons slot rest ih =>
      cases slot with
      | named =>
          rw [List.cons_append, depth, ← Nat.add_assoc, local?, ih, Option.map_map]
          rfl
      | unnamed =>
          rw [List.cons_append, depth, ← Nat.add_assoc, local?, ih]
          rfl
      | extra | lifted t =>
          rw [List.cons_append, depth, local?, ih, Option.map_map]
          rfl

theorem lifted?_append_of_some (q outer : Context) {id k : Nat} (h : q.lifted? id = some k) :
    lifted? (q ++ outer) id = some k := by
  induction q generalizing k with
  | nil => cases h
  | cons slot rest ih =>
      cases slot with
      | unnamed => exact ih h
      | named | extra =>
          obtain ⟨j, hj, rfl⟩ := Option.map_eq_some_iff.mp h
          rw [List.cons_append, lifted?, ih hj]
          rfl
      | lifted t =>
          rw [List.cons_append, lifted?]
          rw [lifted?] at h
          split
          · rename_i heq
            rwa [if_pos heq] at h
          · rename_i hne
            rw [if_neg hne] at h
            obtain ⟨j, hj, rfl⟩ := Option.map_eq_some_iff.mp h
            rw [ih hj]
            rfl

theorem lifted?_append_of_none (q outer : Context) {id : TermId} (h : q.lifted? id = none) :
    lifted? (q ++ outer) id = (outer.lifted? id).map (· + q.width) := by
  induction q with
  | nil => simp [width]
  | cons slot rest ih =>
      cases slot with
      | unnamed => exact ih h
      | named | extra =>
          rw [List.cons_append, lifted?, ih (Option.map_eq_none_iff.mp h), Option.map_map]
          rfl
      | lifted t =>
          rw [lifted?] at h
          split at h
          · cases h
          · rename_i hne
            rw [List.cons_append, lifted?, if_neg hne, ih (Option.map_eq_none_iff.mp h),
              Option.map_map]
            rfl

/-- A subterm without a place in a context has no name there. -/
theorem lifted?_eq_none {id : TermId} (h : Slot.lifted id ∉ ctx) : ctx.lifted? id = none := by
  induction ctx with
  | nil => rfl
  | cons slot rest ih =>
      have hrest := ih fun hmem => h (List.mem_cons_of_mem _ hmem)
      cases slot with
      | unnamed => exact hrest
      | named | extra => rw [lifted?, hrest]; rfl
      | lifted t =>
          have hne : t ≠ id := fun heq => h (heq ▸ List.mem_cons_self)
          rw [lifted?, if_neg hne, hrest]
          rfl

theorem width_replicate_extra (m : Nat) : width (List.replicate m .extra ++ ctx) =
    ctx.width + m := by
  induction m with
  | zero => rfl
  | succ m ih => rw [List.replicate_succ, List.cons_append, width, ih, Nat.add_assoc]

theorem depth_replicate_extra (m : Nat) : depth (List.replicate m .extra ++ ctx) =
    ctx.depth := by
  induction m with
  | zero => rfl
  | succ m ih => rw [List.replicate_succ, List.cons_append, depth, ih]

end Context

end TermGraph
