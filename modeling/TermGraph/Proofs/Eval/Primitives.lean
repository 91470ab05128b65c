import Mathlib
import TermGraph.Proofs.Eval.Builtins
import TermGraph.Proofs.Eval.Follow

/-!
# Primitives on similar values

A primitive does alike on similar arguments: it reads the same bits, numbers and lengths
from them, takes the same branch, and makes calls that again get similar arguments.
-/

namespace TermGraph

variable {β : Type}

namespace Primitive

open Value (Similar)

section Arguments

variable {s : Store} {σ τ : Sources β} {v w : Value β}

/-- What is read from a value is the same for similar values when of a value with parts
only its kind is told. -/
theorem read_eq {γ : Type} {f : Value β → γ} (g : Kind → γ)
    (hf : ∀ v, v.isAtom = false → f v = g v.kind) (h : Similar s σ τ v w) : f v = f w := by
  cases hv : v.isAtom with
  | true => rw [h.eq_of_isAtom hv]
  | false => rw [hf v hv, hf w (h.isAtom_eq ▸ hv), h.kind_eq]

theorem boolArg_eq (op : String) (h : Similar s σ τ v w) : boolArg op v = boolArg op w :=
  read_eq (fun k => .error (.wrongKind op .bool k))
    (fun v hv => by cases v <;> first | rfl | cases hv) h

theorem intArg_eq (op : String) (h : Similar s σ τ v w) : intArg op v = intArg op w :=
  read_eq (fun k => .error (.wrongKind op .integer k))
    (fun v hv => by cases v <;> first | rfl | cases hv) h

theorem stringArg_eq (op : String) (h : Similar s σ τ v w) : stringArg op v = stringArg op w :=
  read_eq (fun k => .error (.wrongKind op .string k))
    (fun v hv => by cases v <;> first | rfl | cases hv) h

theorem natArg_eq [BitLike β] (op : String) (h : Similar s σ τ v w) :
    natArg op v = natArg op w :=
  read_eq (fun k => .error (.wrongKind op .natural k))
    (fun v hv => by cases v <;> first | rfl | cases hv) h

theorem knownNatArg_eq [BitLike β] (op : String) (h : Similar s σ τ v w) :
    knownNatArg op v = knownNatArg op w := by
  rw [knownNatArg, knownNatArg, natArg_eq op h]

/-- The empty vector is the only value with parts that is a word. -/
theorem wordArg_eq (op : String) (h : Similar s σ τ v w) : wordArg op v = wordArg op w := by
  cases v with
  | vector as =>
      obtain ⟨bs, rfl, hab⟩ := h.of_vector
      cases hab <;> rfl
  | bool _ | word _ | int _ | nat _ | toNat _ | unit | type | string _ => rw [h.eq_of_isAtom rfl]
  | _ =>
      have hkind := h.kind_eq
      cases w <;> first | rfl | cases hkind

theorem wordArgs_eq {v' w' : Value β} (op : String) (h : Similar s σ τ v w)
    (h' : Similar s σ τ v' w') : wordArgs op v v' = wordArgs op w w' := by
  rw [wordArgs, wordArgs, wordArg_eq op h, wordArg_eq op h']

/-- Vectors are similar element by element, and other values fail alike. -/
theorem elemsArg_cases (op : String) (h : Similar s σ τ v w) :
    (∃ e, elemsArg op v = .error e ∧ elemsArg op w = .error e) ∨
      ∃ as bs, elemsArg op v = .ok as ∧ elemsArg op w = .ok bs ∧
        List.Forall₂ (Similar s σ τ) as bs := by
  obtain ⟨hv, hw⟩ | ⟨as, bs, hv, hw, hab⟩ := h.elems?
  · refine .inl ⟨wrongKind op .vector v, ?_, ?_⟩
    · rw [elemsArg, hv]
    · rw [elemsArg, hw]
      exact congrArg (fun k => Except.error (EvalError.wrongKind op .vector k)) h.kind_eq.symm
  · refine .inr ⟨as, bs, ?_, ?_, hab⟩
    · rw [elemsArg, hv]
    · rw [elemsArg, hw]

/-- Streams stay similar, and other values fail alike. -/
theorem streamArg_cases (op : String) (h : Similar s σ τ v w) :
    (∃ e, streamArg op v = .error e ∧ streamArg op w = .error e) ∨
      ∃ i j, streamArg op v = .ok i ∧ streamArg op w = .ok j ∧
        Similar s σ τ (.stream i) (.stream j) := by
  cases v with
  | stream i =>
      obtain ⟨j, rfl⟩ := h.of_stream
      exact .inr ⟨i, j, rfl, rfl, h⟩
  | _ =>
      have hkind := h.kind_eq
      cases w <;> first | exact .inl ⟨_, rfl, rfl⟩ | cases hkind

/-- What a primitive reads is the same in similar arguments. -/
theorem run_eq_of_isDirect [BitLike β] [DecidableEq β] {op : Builtin} (hop : isDirect op = true)
    {args args' : List (Value β)} (hargs : List.Forall₂ (Similar s σ τ) args args')
    (calls : Calls β) : run calls op args = run calls op args' := by
  obtain ⟨n, hcount, hn, hn'⟩ | hpaired := paired_of_forall₂ hargs op
  · rw [run_of_argCount?_ne calls hcount hn, run_of_argCount?_ne calls hcount hn',
      hargs.length_eq]
  cases op with
  | typeFormer => rfl
  | boolNot =>
      cases hpaired with | one ha =>
      simp only [run, boolArg_eq _ ha]
  | boolOp op =>
      cases hpaired with | two ha hb =>
      simp only [run, boolArg_eq _ ha, boolArg_eq _ hb]
  | error =>
      cases hpaired with | two _ hm =>
      simp only [run, raise, stringArg_eq _ hm]
  | natSucc =>
      cases hpaired with | one ha =>
      simp only [run, natArg_eq _ ha]
  | natOp op =>
      cases hpaired with | two ha hb =>
      simp only [run, natArg_eq _ ha, natArg_eq _ hb]
  | intOp op =>
      cases hpaired with | two ha hb =>
      simp only [run, intArg_eq _ ha, intArg_eq _ hb]
  | intNeg | intToNat =>
      cases hpaired with | one ha =>
      simp only [run, intArg_eq _ ha]
  | natToInt =>
      cases hpaired with | one ha =>
      simp only [run, knownNatArg_eq _ ha]
  | bvNat =>
      cases hpaired with | two hw hx =>
      simp only [run, bvNat, natArg_eq _ hw,
        natArg_eq _ hx]
  | bvToNat | bvNeg | bvNot =>
      cases hpaired with | two _ hx =>
      simp only [run, wordArg_eq _ hx]
  | bvOp | bvDivision | bvCmp =>
      cases hpaired with | three _ ha hb =>
      simp only [run, wordArgs_eq _ ha hb]
  | bvShift kind =>
      cases hpaired with | three _ hx hn =>
      simp only [run, wordArg_eq _ hx, natArg_eq _ hn]
  | ite | gen | index | append | mkStream | streamGet => cases hop

end Arguments

/-- Unless both are words, the elements are put together. -/
theorem append_of_not_word {xs ys : Value β} (h : xs.kind ≠ .word ∨ ys.kind ≠ .word) :
    append xs ys = (do
      let a ← elemsArg "append" xs
      let b ← elemsArg "append" ys
      return .ofElems (a ++ b)) := by
  unfold append
  split
  · rcases h with h | h <;> exact absurd rfl h
  · rfl

/-! ## Selection -/

section Select

variable {s : Store} {σ τ : Sources β} {k l : View}

/-- Related lists of the same length have related last elements. -/
theorem getLast?_cases {as bs : List (Value β)} (h : List.Forall₂ (Similar s σ τ) as bs) :
    (as.getLast? = none ∧ bs.getLast? = none) ∨
      ∃ a b, as.getLast? = some a ∧ bs.getLast? = some b ∧ Similar s σ τ a b := by
  induction h with
  | nil => exact .inl ⟨rfl, rfl⟩
  | @cons a b as bs hab hrest ih =>
      cases hrest with
      | nil => exact .inr ⟨a, b, rfl, rfl, hab⟩
      | cons _ _ => simpa using ih

theorem forall₂_zipIdx {as bs : List (Value β)} (h : List.Forall₂ (Similar s σ τ) as bs)
    (n : Nat) :
    List.Forall₂ (fun p q => Similar s σ τ p.1 q.1 ∧ p.2 = q.2) (as.zipIdx n) (bs.zipIdx n) := by
  induction h generalizing n with
  | nil => exact .nil
  | cons hab _ ih => exact .cons ⟨hab, rfl⟩ (ih (n + 1))

theorem forall₂_dropLast {as bs : List (Value β)} (h : List.Forall₂ (Similar s σ τ) as bs) :
    List.Forall₂ (Similar s σ τ) as.dropLast bs.dropLast := by
  rw [List.dropLast_eq_take, List.dropLast_eq_take, h.length_eq]
  exact List.forall₂_take _ h

variable [BitLike β] [DecidableEq β]

omit [BitLike β] [DecidableEq β] in
/-- A computation that adds no streams and gives data. -/
theorem merges_lift {x : Except EvalError (Value β)} (h : ∀ d, x = .ok d → d.isData = true) :
    Merges k l σ τ (liftM x) (liftM x) fun _ _ d d' => d = d' ∧ d.isData = true := by
  cases x with
  | error e => exact .throw e
  | ok d => exact .pure fun _ _ _ _ => ⟨rfl, h d rfl⟩

/-- The chain of merges over similar elements. -/
theorem merges_chain {as bs : List (Value β)} {a b : Value β} (index : List β)
    (h : List.Forall₂ (Similar s σ τ) as bs) (hab : Similar s σ τ a b) :
    Merges k l σ τ
      (as.zipIdx.foldrM
        (fun p rest => Value.mux (Word.eq index (Word.ofNat p.2 index.length)) p.1 rest) a)
      (bs.zipIdx.foldrM
        (fun p rest => Value.mux (Word.eq index (Word.ofNat p.2 index.length)) p.1 rest) b)
      (Similar s) := by
  refine .foldrM (Value.persistent_similar s) (forall₂_zipIdx h 0) hab ?_
  rintro σ₁ τ₁ ⟨x, i⟩ ⟨y, _⟩ rest rest' hσ hτ ⟨hxy, rfl⟩ hrest
  exact (hxy.mono hσ hτ).mux hrest

/-- Selection among similar elements at the same symbolic index. -/
theorem merges_select {as bs : List (Value β)} (h : List.Forall₂ (Similar s σ τ) as bs)
    (index : List β) : Merges k l σ τ (select as index) (select bs index) (Similar s) := by
  have hreach : List.Forall₂ (Similar s σ τ)
      (if index.length < 64 then as.take (1 <<< index.length) else as)
      (if index.length < 64 then bs.take (1 <<< index.length) else bs) := by
    split
    · exact List.forall₂_take _ h
    · exact h
  unfold select
  generalize (if index.length < 64 then as.take (1 <<< index.length) else as) = reach,
    (if index.length < 64 then bs.take (1 <<< index.length) else bs) = reach' at hreach ⊢
  dsimp only
  rw [hreach.length_eq]
  generalize decide (index.length < 64 ∧ reach'.length = 1 <<< index.length) = covered
  obtain ⟨ha, hb⟩ | ⟨a, b, ha, hb, hab⟩ := getLast?_cases hreach
  · rw [List.getLast?_eq_none_iff] at ha hb
    subst ha hb
    cases covered <;> exact .throw _
  cases hreach with
  | nil => cases ha
  | @cons x y xs ys hxy hrest =>
      cases covered with
      | true =>
          simp only [ha, hb, pure_bind]
          exact merges_chain index (forall₂_dropLast (hrest.cons hxy)) hab
      | false =>
          simp only [List.head?_cons, pure_bind, hxy.defaultLike_eq]
          refine .bind (merges_lift (Value.isData_of_defaultLike y)) ?_
          rintro σ₁ τ₁ d _ hσ hτ ⟨rfl, hd⟩
          exact merges_chain index ((hrest.cons hxy).imp fun _ _ h => h.mono hσ hτ)
            (Value.similar_self_of_isData d hd)

end Select

end Primitive

/-! ## Calls that follow each other -/

open Value (Similar SimilarOn)

/-- The calls of one side are followed by those of the other, for similar arguments. -/
structure CallsFollow [BitLike β] [DecidableEq β] {c : Setting β} (s : Store) (S T : Side c)
    (calls : Calls β) (calls' : Nat → Calls β) : Prop where
  eval : ∀ {σ τ : Sources β} {id : TermId} {env env' : Env β},
    SimilarOn s σ τ (s.looseVars id) env env' →
    Follows S T σ τ (calls.eval id env) (fun n => (calls' n).eval id env') (Similar s)
  apply : ∀ {σ τ : Sources β} {fn fn' arg arg' : Value β},
    Similar s σ τ fn fn' → Similar s σ τ arg arg' →
    Follows S T σ τ (calls.apply fn arg) (fun n => (calls' n).apply fn' arg') (Similar s)
  element : ∀ {σ τ : Sources β} {i j : StreamId} (index : Nat),
    Similar s σ τ (.stream i) (.stream j) →
    Follows S T σ τ (calls.element i index) (fun n => (calls' n).element j index) (Similar s)

namespace CallsFollow

variable {c : Setting β} {s : Store} {S T : Side c} {calls : Calls β} {calls' : Nat → Calls β}
  {σ τ : Sources β}

theorem value {v w : Value β} (h : Similar s σ τ v w) :
    Follows S T σ τ (pure v) (fun _ => pure w) (Similar s) :=
  .pure fun _ _ hσ hτ => h.mono hσ hτ

/-- Arguments of which the same is read give the same atom or fail alike. -/
theorem atom {x x' : Except EvalError (Value β)} (heq : x = x')
    (h : Primitive.GivesAtom x') :
    Follows S T σ τ (EvalM.ofExcept x) (fun _ => EvalM.ofExcept x') (Similar s) := by
  subst heq
  exact .ofExcept (fun _ he => he) fun v hv => ⟨v, hv, fun _ _ _ _ => .atom (h v hv)⟩

/-- What was read is the same on both sides. -/
theorem read {α : Type} {x x' : Except EvalError α} (heq : x = x') :
    Follows S T σ τ (EvalM.ofExcept x) (fun _ => EvalM.ofExcept x') fun _ _ a a' => a = a' := by
  subst heq
  exact .ofExcept (fun _ he => he) fun a ha => ⟨a, ha, fun _ _ _ _ => rfl⟩

theorem elems {v w : Value β} (op : String) (h : Similar s σ τ v w) :
    Follows S T σ τ (EvalM.ofExcept (Primitive.elemsArg op v))
      (fun _ => EvalM.ofExcept (Primitive.elemsArg op w))
      fun σ τ => List.Forall₂ (Similar s σ τ) := by
  obtain ⟨e, hv, hw⟩ | ⟨as, bs, hv, hw, hab⟩ := Primitive.elemsArg_cases op h <;> rw [hv, hw]
  · exact .fail e
  · exact .pure fun _ _ hσ hτ => hab.imp fun _ _ h => h.mono hσ hτ

theorem streams {v w : Value β} (op : String) (h : Similar s σ τ v w) :
    Follows S T σ τ (EvalM.ofExcept (Primitive.streamArg op v))
      (fun _ => EvalM.ofExcept (Primitive.streamArg op w))
      fun σ τ i j => Similar s σ τ (.stream i) (.stream j) := by
  obtain ⟨e, hv, hw⟩ | ⟨i, j, hv, hw, hij⟩ := Primitive.streamArg_cases op h <;> rw [hv, hw]
  · exact .fail e
  · exact .pure fun _ _ hσ hτ => hij.mono hσ hτ

theorem append {xs xs' ys ys' : Value β} (hx : Similar s σ τ xs xs')
    (hy : Similar s σ τ ys ys') :
    Follows S T σ τ (EvalM.ofExcept (Primitive.append xs ys))
      (fun _ => EvalM.ofExcept (Primitive.append xs' ys')) (Similar s) := by
  by_cases hwords : xs.kind = .word ∧ ys.kind = .word
  · obtain ⟨a, rfl⟩ := Value.exists_of_kind_word hwords.1
    obtain ⟨b, rfl⟩ := Value.exists_of_kind_word hwords.2
    rw [hx.eq_of_isAtom rfl, hy.eq_of_isAtom rfl]
    exact atom rfl (Primitive.givesAtom_ok rfl)
  have hwords' : xs.kind ≠ .word ∨ ys.kind ≠ .word := by rwa [ne_eq, ne_eq, ← not_and_or]
  rw [Primitive.append_of_not_word hwords',
    Primitive.append_of_not_word (hx.kind_eq ▸ hy.kind_eq ▸ hwords')]
  obtain ⟨e, ha, hb⟩ | ⟨as, bs, ha, hb, hab⟩ := Primitive.elemsArg_cases "append" hx <;>
    rw [ha, hb]
  · exact .fail e
  obtain ⟨e, hc, hd⟩ | ⟨cs, ds, hc, hd, hcd⟩ := Primitive.elemsArg_cases "append" hy <;>
    rw [hc, hd]
  · exact .fail e
  · exact value (Value.similar_ofElems (List.rel_append hab hcd))

theorem mkStream {fn fn' : Value β} (hfn : Similar s σ τ fn fn') :
    Follows S T σ τ (Primitive.mkStream fn) (fun _ => Primitive.mkStream fn') (Similar s) := by
  refine .bind (.ofMerge (.alloc _ _)) fun σ₁ τ₁ i j hσ hτ ⟨hi, hj⟩ => ?_
  exact value (.stream hi hj (hfn.mono hσ hτ))

variable [BitLike β] [DecidableEq β]

theorem elementAt {v v' i i' : Value β} (hv : Similar s σ τ v v') (hi : Similar s σ τ i i') :
    Follows S T σ τ (Primitive.elementAt v i) (fun _ => Primitive.elementAt v' i')
      (Similar s) := by
  refine .bind (elems "at" hv) fun σ₁ τ₁ as bs hσ hτ hab => ?_
  refine .bind (read (Primitive.natArg_eq "at" hi)) ?_
  rintro σ₂ τ₂ index _ hσ₂ hτ₂ rfl
  have hab₂ := hab.imp fun _ _ h => h.mono hσ₂ hτ₂
  cases index with
  | known n =>
      dsimp only
      cases ha : as[n]? with
      | none =>
          have hb : bs[n]? = none := by
            rw [List.getElem?_eq_none_iff, ← hab₂.length_eq, ← List.getElem?_eq_none_iff, ha]
          rw [hb, hab₂.length_eq]
          exact .fail _
      | some a =>
          obtain ⟨hn, -⟩ := List.getElem?_eq_some_iff.mp ha
          have hb := List.getElem?_eq_getElem (hab₂.length_eq ▸ hn)
          rw [hb]
          exact value ((Value.forall₂_iff_getElem?.mp hab₂).2 n _ _ ha hb)
  | symbolic bits => exact .ofMerge (Primitive.merges_select hab₂ bits)

theorem tabulate (h : CallsFollow s S T calls calls') {fn fn' : Value β}
    (hfn : Similar s σ τ fn fn') (count start : Nat) :
    Follows S T σ τ (Primitive.tabulate calls.apply fn count start)
      (fun n => Primitive.tabulate (calls' n).apply fn' count start)
      fun σ τ => List.Forall₂ (Similar s σ τ) := by
  induction count generalizing start with
  | zero => exact .pure fun _ _ _ _ => List.Forall₂.nil
  | succ count ih =>
      simp only [Primitive.tabulate]
      refine .bind (h.apply hfn (.atom rfl)) fun σ₁ τ₁ v v' hσ hτ hv => ?_
      refine .bind ((ih (start + 1)).later hσ hτ) fun σ₂ τ₂ vs vs' hσ₂ hτ₂ hvs => ?_
      exact .pure fun _ _ hσ₃ hτ₃ =>
        .cons (hv.mono (hσ₂.trans hσ₃) (hτ₂.trans hτ₃)) (hvs.imp fun _ _ h => h.mono hσ₃ hτ₃)

theorem gen (h : CallsFollow s S T calls calls') {n n' fn fn' : Value β}
    (hn : Similar s σ τ n n') (hfn : Similar s σ τ fn fn') :
    Follows S T σ τ (Primitive.gen calls n fn) (fun k => Primitive.gen (calls' k) n' fn')
      (Similar s) := by
  refine .bind (read (Primitive.knownNatArg_eq "gen" hn)) ?_
  rintro σ₁ τ₁ count _ hσ hτ rfl
  split
  · refine .bind (h.tabulate (hfn.mono hσ hτ) count 0) fun σ₂ τ₂ vs vs' _ _ hvs => ?_
    exact value (Value.similar_ofElems hvs)
  · exact .fail _

theorem streamGet (h : CallsFollow s S T calls calls') {v v' i i' : Value β}
    (hv : Similar s σ τ v v') (hi : Similar s σ τ i i') :
    Follows S T σ τ (Primitive.streamGet calls v i)
      (fun n => Primitive.streamGet (calls' n) v' i') (Similar s) := by
  refine .bind (streams "streamGet" hv) fun σ₁ τ₁ a b hσ hτ hab => ?_
  refine .bind (read (Primitive.natArg_eq "streamGet" hi)) ?_
  rintro σ₂ τ₂ index _ hσ₂ hτ₂ rfl
  have hab₂ := hab.mono hσ₂ hτ₂
  cases index with
  | known n => exact h.element n hab₂
  | symbolic bits =>
      dsimp only
      split
      · refine .bind (.mapM (P := Eq) (Value.persistent_similar s) (List.forall₂_refl _) ?_)
          fun σ₃ τ₃ vs vs' _ _ hvs => .ofMerge (Primitive.merges_select hvs bits)
        rintro n _ rfl
        exact h.element n hab₂
      · exact .fail _

/-- A primitive does alike on similar arguments. -/
theorem run (h : CallsFollow s S T calls calls') (op : Builtin) {args args' : List (Value β)}
    (hargs : List.Forall₂ (Similar s σ τ) args args') :
    Follows S T σ τ (Primitive.run calls op args) (fun n => Primitive.run (calls' n) op args')
      (Similar s) := by
  by_cases hop : Primitive.isDirect op = true
  · obtain ⟨x, hx, hrun⟩ := Primitive.exists_givesAtom_run hop args
    simp only [← Primitive.run_eq_of_isDirect hop hargs, hrun]
    exact atom rfl hx
  obtain ⟨n, hcount, hn, hn'⟩ | hpaired := Primitive.paired_of_forall₂ hargs op
  · simp only [Primitive.run_of_argCount?_ne calls hcount hn,
      fun k => Primitive.run_of_argCount?_ne (calls' k) hcount hn', hargs.length_eq]
    exact .fail _
  cases op with
  | ite =>
      cases hpaired with | four _ hc ht he =>
      refine .bind (read (Primitive.boolArg_eq _ hc)) ?_
      rintro σ₁ τ₁ c _ hσ hτ rfl
      exact .ofMerge ((ht.mono hσ hτ).mux (he.mono hσ hτ))
  | gen => cases hpaired with | three hn _ hf => exact h.gen hn hf
  | index => cases hpaired with | four _ _ hv hi => exact elementAt hv hi
  | append => cases hpaired with | five _ _ _ hx hy => exact append hx hy
  | mkStream => cases hpaired with | two _ hf => exact mkStream hf
  | streamGet => cases hpaired with | three _ hv hi => exact h.streamGet hv hi
  | _ => exact absurd rfl hop

end CallsFollow

end TermGraph
