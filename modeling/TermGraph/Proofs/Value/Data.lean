import Mathlib
import TermGraph.Value.Basic

/-!
# Values by layers

Induction on a value reaches the values that it holds.  A value is data when there are
no functions and no streams in it, so that nothing about it depends on a heap or on the
terms that functions name.
-/

namespace TermGraph

/-- What has succeeded was one computation after another. -/
theorem exists_of_bind_eq_ok {α γ : Type} {x : Except EvalError α} {k : α → Except EvalError γ}
    {c : γ} (h : x >>= k = .ok c) : ∃ a, x = .ok a ∧ k a = .ok c := by
  cases x with
  | error e => cases h
  | ok a => exact ⟨a, rfl, h⟩

namespace Value

variable {β : Type}

/-- Induction on values: what holds of the values that a value holds holds of it. -/
@[elab_as_elim]
theorem inductOn {P : Value β → Prop} (v : Value β) (bool : ∀ b, P (.bool b))
    (word : ∀ bits, P (.word bits)) (int : ∀ i, P (.int i)) (nat : ∀ n, P (.nat n))
    (toNat : ∀ bits, P (.toNat bits)) (vector : ∀ as, (∀ a ∈ as, P a) → P (.vector as))
    (unit : P .unit) (pair : ∀ a b, P a → P b → P (.pair a b))
    (record : ∀ fs, (∀ f ∈ fs, P f.2) → P (.record fs))
    (ctor : ∀ i as, (∀ a ∈ as, P a) → P (.ctor i as))
    (closure : ∀ lambda env, (∀ a ∈ env, P a) → P (.closure lambda env))
    (partialApp : ∀ prim as, (∀ a ∈ as, P a) → P (.partialApp prim as))
    (funMux : ∀ c a b, P a → P b → P (.funMux c a b)) (type : P .type)
    (string : ∀ t, P (.string t)) (stream : ∀ id, P (.stream id)) : P v :=
  @Value.rec β P (fun as => ∀ a ∈ as, P a) (fun fs => ∀ f ∈ fs, P f.2) (fun f => P f.2)
    bool word int nat toNat vector unit pair record ctor closure partialApp funMux type string
    stream (List.forall_mem_nil _) (fun _ _ ha has => List.forall_mem_cons.mpr ⟨ha, has⟩)
    (List.forall_mem_nil _) (fun _ _ hf hfs => List.forall_mem_cons.mpr ⟨hf, hfs⟩)
    (fun _ _ ha => ha) v

/-- Whether nothing about a value is left to a part of it: numbers, words, texts and the
values of erased terms. -/
def isAtom : Value β → Bool
  | bool _ | word _ | int _ | nat _ | toNat _ | unit | type | string _ => true
  | _ => false

mutual

/-- Whether there are no functions and no streams in a value. -/
def isData : Value β → Bool
  | vector as | ctor _ as => isDataList as
  | pair a b => isData a && isData b
  | record fs => isDataFields fs
  | closure _ _ | partialApp _ _ | funMux _ _ _ | stream _ => false
  | _ => true

/-- `isData` for each element. -/
def isDataList : List (Value β) → Bool
  | [] => true
  | a :: as => isData a && isDataList as

/-- `isData` for each field. -/
def isDataFields : List (String × Value β) → Bool
  | [] => true
  | (_, a) :: fs => isData a && isDataFields fs

end

@[simp] theorem isDataList_eq (as : List (Value β)) : isDataList as = as.all isData := by
  induction as with
  | nil => rfl
  | cons a as ih => rw [isDataList, List.all_cons, ih]

@[simp] theorem isDataFields_eq (fs : List (String × Value β)) :
    isDataFields fs = fs.all fun f => isData f.2 := by
  induction fs with
  | nil => rfl
  | cons f fs ih => rw [isDataFields, List.all_cons, ih]

theorem isData_of_isAtom {v : Value β} (h : v.isAtom = true) : v.isData = true := by
  cases v with
  | bool _ | word _ | int _ | nat _ | toNat _ | unit | type | string _ => rfl
  | _ => cases h

theorem isAtom_eq_of_kind_eq {v w : Value β} (h : v.kind = w.kind) : v.isAtom = w.isAtom := by
  cases v <;> cases w <;> first | rfl | cases h

/-! What a value of some kind is made of. -/

theorem exists_of_kind_word {v : Value β} (h : v.kind = .word) : ∃ bits, v = .word bits := by
  cases v <;> first | exact ⟨_, rfl⟩ | cases h

theorem exists_of_kind_vector {v : Value β} (h : v.kind = .vector) : ∃ as, v = .vector as := by
  cases v <;> first | exact ⟨_, rfl⟩ | cases h

theorem exists_of_kind_pair {v : Value β} (h : v.kind = .pair) : ∃ a b, v = .pair a b := by
  cases v <;> first | exact ⟨_, _, rfl⟩ | cases h

theorem exists_of_kind_record {v : Value β} (h : v.kind = .record) : ∃ fs, v = .record fs := by
  cases v <;> first | exact ⟨_, rfl⟩ | cases h

theorem exists_of_kind_constructor {v : Value β} (h : v.kind = .constructor) :
    ∃ i as, v = .ctor i as := by
  cases v <;> first | exact ⟨_, _, rfl⟩ | cases h

theorem exists_of_kind_stream {v : Value β} (h : v.kind = .stream) : ∃ id, v = .stream id := by
  cases v <;> first | exact ⟨_, rfl⟩ | cases h

theorem kind_ne_function_of_isAtom {v : Value β} (h : v.isAtom = true) : v.kind ≠ .function := by
  cases v with
  | bool _ | word _ | int _ | nat _ | toNat _ | unit | type | string _ => exact Kind.noConfusion
  | _ => cases h

/-! ## Equality -/

variable [DecidableEq β]

theorem eq_of_beqList {as : List (Value β)} (h : ∀ a ∈ as, ∀ b, a.beq b = true → a = b) :
    ∀ {bs : List (Value β)}, beqList as bs = true → as = bs := by
  induction as with
  | nil =>
      rintro (_ | ⟨b, bs⟩) heq
      · rfl
      · simp [beqList] at heq
  | cons a as ih =>
      obtain ⟨ha, has⟩ := List.forall_mem_cons.mp h
      rintro (_ | ⟨b, bs⟩) heq
      · simp [beqList] at heq
      · rw [beqList, Bool.and_eq_true] at heq
        rw [ha b heq.1, ih has heq.2]

theorem eq_of_beqFields {fs : List (String × Value β)}
    (h : ∀ f ∈ fs, ∀ b, f.2.beq b = true → f.2 = b) :
    ∀ {gs : List (String × Value β)}, beqFields fs gs = true → fs = gs := by
  induction fs with
  | nil =>
      rintro (_ | ⟨g, gs⟩) heq
      · rfl
      · simp [beqFields] at heq
  | cons f fs ih =>
      obtain ⟨x, a⟩ := f
      obtain ⟨ha, has⟩ := List.forall_mem_cons.mp h
      rintro (_ | ⟨⟨y, b⟩, gs⟩) heq
      · simp [beqFields] at heq
      · simp only [beqFields, Bool.and_eq_true, decide_eq_true_eq] at heq
        obtain ⟨⟨rfl, hab⟩, hrest⟩ := heq
        rw [ih has hrest]
        exact congrArg (fun v => (x, v) :: gs) (ha b hab)

/-- Values that compare as equal are equal. -/
theorem eq_of_beq (v : Value β) : ∀ w, v.beq w = true → v = w := by
  induction v using inductOn with
  | vector as ih =>
      intro w h
      cases w <;> simp only [beq, Bool.false_eq_true] at h
      exact congrArg vector (eq_of_beqList ih h)
  | pair a b iha ihb =>
      intro w h
      cases w <;> simp only [beq, Bool.and_eq_true, Bool.false_eq_true] at h
      rw [iha _ h.1, ihb _ h.2]
  | record fs ih =>
      intro w h
      cases w <;> simp only [beq, Bool.false_eq_true] at h
      exact congrArg record (eq_of_beqFields ih h)
  | ctor i as ih =>
      intro w h
      cases w <;> simp only [beq, Bool.and_eq_true, decide_eq_true_eq, Bool.false_eq_true] at h
      rw [h.1, eq_of_beqList ih h.2]
  | closure lambda env ih =>
      intro w h
      cases w <;> simp only [beq, Bool.and_eq_true, decide_eq_true_eq, Bool.false_eq_true] at h
      rw [h.1, eq_of_beqList ih h.2]
  | partialApp prim as ih =>
      intro w h
      cases w <;> simp only [beq, Bool.and_eq_true, decide_eq_true_eq, Bool.false_eq_true] at h
      rw [h.1, eq_of_beqList ih h.2]
  | funMux c a b iha ihb =>
      intro w h
      cases w <;> simp only [beq, Bool.and_eq_true, decide_eq_true_eq, Bool.false_eq_true] at h
      rw [h.1.1, iha _ h.1.2, ihb _ h.2]
  | unit | type =>
      intro w h
      cases w <;> first | rfl | simp [beq] at h
  | _ =>
      intro w h
      cases w <;> simp only [beq, decide_eq_true_eq, Bool.false_eq_true] at h
      rw [h]

theorem beqList_self {as : List (Value β)} (h : ∀ a ∈ as, a.beq a = true) :
    beqList as as = true := by
  induction as with
  | nil => rfl
  | cons a as ih =>
      obtain ⟨ha, has⟩ := List.forall_mem_cons.mp h
      rw [beqList, ha, ih has, Bool.true_and]

theorem beqFields_self {fs : List (String × Value β)} (h : ∀ f ∈ fs, f.2.beq f.2 = true) :
    beqFields fs fs = true := by
  induction fs with
  | nil => rfl
  | cons f fs ih =>
      obtain ⟨hf, hfs⟩ := List.forall_mem_cons.mp h
      rw [beqFields, hf, ih hfs, decide_eq_true rfl, Bool.true_and, Bool.true_and]

theorem beq_self (v : Value β) : v.beq v = true := by
  induction v using inductOn with
  | vector as ih => exact beqList_self ih
  | pair a b iha ihb => rw [beq, iha, ihb, Bool.true_and]
  | record fs ih => exact beqFields_self ih
  | ctor i as ih | closure i as ih | partialApp i as ih =>
      rw [beq, beqList_self ih, decide_eq_true rfl, Bool.true_and]
  | funMux c a b iha ihb => rw [beq, iha, ihb, decide_eq_true rfl, Bool.true_and, Bool.true_and]
  | unit | type => rfl
  | _ => exact decide_eq_true rfl

end Value

end TermGraph
