import Mathlib
import TermGraph.Proofs.Value.Data
import TermGraph.Value.Mux

/-!
# The cases of a merge

A known bit picks a value, equal values merge to themselves, and otherwise the shapes of
the two values decide.
-/

namespace TermGraph

namespace Value

variable {β : Type} [BitLike β] [DecidableEq β] {c : β} {t e : Value β}

/-- The merge of two values that differ, under a bit that is not known. -/
def mergeShapes (c : β) : Value β → Value β → Merge β (Value β)
  | bool a, bool b => return bool (BitLike.mux c a b)
  | word a, word b =>
      if a.length = b.length then return word (muxBits c a b)
      else throw (shapeMismatch (word a) (word b))
  | toNat a, toNat b => return muxNat c a b
  | toNat a, nat n => return muxNat c a (Word.ofNat n (bitLength n))
  | nat n, toNat b => return muxNat c (Word.ofNat n (bitLength n)) b
  | int a, int b => throw (.cannotMerge (.integers a b))
  | nat a, nat b => throw (.cannotMerge (.naturals a b))
  | string a, string b => throw (.cannotMerge (.strings a b))
  | vector a, vector b =>
      if a.length = b.length then return vector (← muxList c a b)
      else throw (shapeMismatch (vector a) (vector b))
  | pair a₁ a₂, pair b₁ b₂ => do
      let left ← mux c a₁ b₁
      return pair left (← mux c a₂ b₂)
  | record a, record b =>
      if a.map (·.1) = b.map (·.1) then return record (← muxFields c a b)
      else throw (shapeMismatch (record a) (record b))
  | ctor i a, ctor j b =>
      if i = j ∧ a.length = b.length then return ctor i (← muxList c a b)
      else throw (.cannotMerge (.constructors i j))
  | stream a, stream b => do
      let id ← modifyGet (·.alloc (.mux c a b))
      return stream id
  | t, e =>
      if t.kind = .function ∧ e.kind = .function then return funMux c t e
      else throw (shapeMismatch t e)

theorem mux_eq (c : β) (t e : Value β) :
    mux c t e =
      match BitLike.asLit? c with
      | some b => pure (if b then t else e)
      | none => if t.beq e then pure t else mergeShapes c t e := by
  rw [mux.eq_def]
  rcases BitLike.asLit? c with _ | _ | _
  · change (if t.beq e then _ else _) = if t.beq e then _ else _
    refine if_congr Iff.rfl rfl ?_
    cases t <;> cases e <;> rfl
  · rfl
  · rfl

theorem mux_of_lit {b : Bool} (hc : BitLike.asLit? c = some b) (t e : Value β) :
    mux c t e = pure (if b then t else e) := by
  rw [mux_eq, hc]

theorem mux_of_beq (h : t.beq e = true) (c : β) : mux c t e = pure t := by
  obtain rfl := eq_of_beq _ _ h
  rw [mux_eq]
  cases BitLike.asLit? c with
  | none => exact if_pos h
  | some b => cases b <;> rfl

theorem mux_of_ne (hc : BitLike.asLit? c = none) (hne : t.beq e = false) :
    mux c t e = mergeShapes c t e := by
  rw [mux_eq, hc]
  exact if_neg (by simp [hne])

/-- Values of two kinds cannot be merged, known and unknown numbers apart. -/
theorem mux_of_kind_ne (hc : BitLike.asLit? c = none) (hk : t.kind ≠ e.kind)
    (ha : t.isAtom = false ∨ e.isAtom = false) : mux c t e = throw (shapeMismatch t e) := by
  have hne : t.beq e = false := by
    cases h : t.beq e with
    | true => exact absurd (congrArg kind (eq_of_beq _ _ h)) hk
    | false => rfl
  rw [mux_of_ne hc hne]
  cases t <;> cases e <;>
    first
    | rfl
    | exact absurd rfl hk
    | exact absurd ha (by simp [isAtom])

theorem mux_functions (hc : BitLike.asLit? c = none) (hne : t.beq e = false)
    (ht : t.kind = .function) (he : e.kind = .function) : mux c t e = pure (.funMux c t e) := by
  rw [mux_of_ne hc hne]
  cases t <;> cases ht <;> cases e <;> cases he <;> rfl

theorem mux_streams {i j : StreamId} (hc : BitLike.asLit? c = none)
    (hne : (stream i : Value β).beq (stream j) = false) :
    mux c (stream i) (stream j) = do
      let id ← modifyGet (·.alloc (.mux c i j))
      return stream id :=
  mux_of_ne hc hne

/-! Equal parts merge to themselves, so values with parts merge part by part even when
they are equal. -/

theorem mux_self (c : β) (v : Value β) : mux c v v = pure v :=
  mux_of_beq (beq_self v) c

theorem muxList_nil (c : β) (bs : List (Value β)) : muxList c [] bs = pure [] := by
  rw [muxList.eq_def]

theorem muxList_nil_right (c : β) (as : List (Value β)) : muxList c as [] = pure [] := by
  rw [muxList.eq_def]
  cases as <;> rfl

theorem muxList_cons (c : β) (a b : Value β) (as bs : List (Value β)) :
    muxList c (a :: as) (b :: bs) = do
      let v ← mux c a b
      return v :: (← muxList c as bs) := by
  rw [muxList.eq_def]

theorem muxFields_nil (c : β) (gs : List (String × Value β)) : muxFields c [] gs = pure [] := by
  rw [muxFields.eq_def]

theorem muxFields_nil_right (c : β) (fs : List (String × Value β)) :
    muxFields c fs [] = pure [] := by
  rw [muxFields.eq_def]
  cases fs <;> rfl

theorem muxFields_cons (c : β) (f g : String × Value β) (fs gs : List (String × Value β)) :
    muxFields c (f :: fs) (g :: gs) = do
      let v ← mux c f.2 g.2
      return (f.1, v) :: (← muxFields c fs gs) := by
  rw [muxFields.eq_def]

theorem muxList_self (c : β) (as : List (Value β)) : muxList c as as = pure as := by
  induction as with
  | nil => exact muxList_nil c []
  | cons a as ih => rw [muxList_cons, mux_self, pure_bind, ih, pure_bind]

theorem muxFields_self (c : β) (fs : List (String × Value β)) : muxFields c fs fs = pure fs := by
  induction fs with
  | nil => exact muxFields_nil c []
  | cons f fs ih => rw [muxFields_cons, mux_self, pure_bind, ih, pure_bind]

theorem mux_vectors (hc : BitLike.asLit? c = none) (as bs : List (Value β)) :
    mux c (vector as) (vector bs) =
      if as.length = bs.length then do return vector (← muxList c as bs)
      else throw (shapeMismatch (vector as) (vector bs)) := by
  cases hne : (vector as).beq (vector bs) with
  | true =>
      obtain rfl : as = bs := Value.vector.inj (eq_of_beq _ _ hne)
      rw [mux_self, if_pos rfl, muxList_self, pure_bind]
  | false => exact mux_of_ne hc hne

theorem mux_pairs (hc : BitLike.asLit? c = none) (a b a' b' : Value β) :
    mux c (pair a b) (pair a' b') = do
      let left ← mux c a a'
      return pair left (← mux c b b') := by
  cases hne : (pair a b).beq (pair a' b') with
  | true =>
      obtain ⟨rfl, rfl⟩ := Value.pair.inj (eq_of_beq _ _ hne)
      rw [mux_self, mux_self, mux_self, pure_bind, pure_bind]
  | false => exact mux_of_ne hc hne

theorem mux_records (hc : BitLike.asLit? c = none) (fs gs : List (String × Value β)) :
    mux c (record fs) (record gs) =
      if fs.map (·.1) = gs.map (·.1) then do return record (← muxFields c fs gs)
      else throw (shapeMismatch (record fs) (record gs)) := by
  cases hne : (record fs).beq (record gs) with
  | true =>
      obtain rfl : fs = gs := Value.record.inj (eq_of_beq _ _ hne)
      rw [mux_self, if_pos rfl, muxFields_self, pure_bind]
  | false => exact mux_of_ne hc hne

theorem mux_ctors (hc : BitLike.asLit? c = none) (i j : Ident) (as bs : List (Value β)) :
    mux c (ctor i as) (ctor j bs) =
      if i = j ∧ as.length = bs.length then do return ctor i (← muxList c as bs)
      else throw (.cannotMerge (.constructors i j)) := by
  cases hne : (ctor i as).beq (ctor j bs) with
  | true =>
      obtain ⟨rfl, rfl⟩ := Value.ctor.inj (eq_of_beq _ _ hne)
      rw [mux_self, if_pos ⟨rfl, rfl⟩, muxList_self, pure_bind]
  | false => exact mux_of_ne hc hne

/-- Atoms merge to an atom or not at all, and add no streams. -/
theorem mux_atoms (c : β) (ht : t.isAtom = true) (he : e.isAtom = true) :
    (∃ v, v.isAtom = true ∧ mux c t e = pure v) ∨ ∃ err, mux c t e = throw err := by
  rw [mux_eq]
  cases BitLike.asLit? c with
  | some b => cases b <;> exact .inl ⟨_, by assumption, rfl⟩
  | none =>
      cases hne : t.beq e with
      | true => exact .inl ⟨t, ht, rfl⟩
      | false =>
          rw [if_neg (by simp)]
          cases t <;> cases ht <;> cases e <;> cases he
          case word.refl.word.refl as bs =>
            by_cases hlength : as.length = bs.length
            · exact .inl ⟨_, rfl, if_pos hlength⟩
            · exact .inr ⟨_, if_neg hlength⟩
          all_goals first | exact .inl ⟨_, rfl, rfl⟩ | exact .inr ⟨_, rfl⟩

end Value

end TermGraph
