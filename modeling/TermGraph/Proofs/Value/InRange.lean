import Mathlib
import TermGraph.Proofs.Bits.InRange
import TermGraph.Proofs.Value.Mux

/-!
# Merges stay in range

The merge of two values goes down to their bits.  Two words and two lists are only merged after
their lengths are compared, and two numbers given by words of different lengths are padded to
the longer one, which is the one place where a merge subtracts.  So a merge takes no step out
of range, however deep in the two values it gets and whether or not they can be merged.
-/

namespace TermGraph

namespace Checked

/-! ## Lifting -/

section Lifting

variable {m : Type → Type} [Monad m] [LawfulMonad m] {α γ : Type}

theorem lift_pure (a : α) : (ExceptT.lift (pure a) : ExceptT OutOfRange m α) = pure a :=
  ExceptT.ext (map_pure _ a)

/-- Where neither of two computations takes a step out of range, neither do both. -/
theorem lift_bind_eq {x : ExceptT OutOfRange m α} {f : α → ExceptT OutOfRange m γ} {x' : m α}
    {f' : α → m γ} (hx : x = ExceptT.lift x') (hf : ∀ a, f a = ExceptT.lift (f' a)) :
    x >>= f = ExceptT.lift (x' >>= f') := by
  rw [ExceptT.lift_bind, hx]
  exact bind_congr hf

theorem mapM_eq {f : α → ExceptT OutOfRange m γ} {f' : α → m γ}
    (h : ∀ a, f a = ExceptT.lift (f' a)) (as : List α) :
    as.mapM f = ExceptT.lift (as.mapM f') := by
  induction as with
  | nil => exact (lift_pure _).symm
  | cons a as ih =>
      rw [List.mapM_cons, List.mapM_cons]
      exact lift_bind_eq (h a) fun b => lift_bind_eq ih fun bs => (lift_pure _).symm

theorem foldrM_eq {f : α → γ → ExceptT OutOfRange m γ} {f' : α → γ → m γ}
    (h : ∀ a b, f a b = ExceptT.lift (f' a b)) (as : List α) (last : γ) :
    as.foldrM f last = ExceptT.lift (as.foldrM f' last) := by
  induction as with
  | nil => exact (lift_pure last).symm
  | cons a as ih =>
      rw [List.foldrM_cons, List.foldrM_cons]
      exact lift_bind_eq ih fun rest => h a rest

/-- What is computed without a step out of range may be used among calls. -/
theorem liftM_eq {x : Checked α} {a : α} (h : x = pure a) :
    (liftM x : ExceptT OutOfRange m α) = ExceptT.lift (pure a) := by
  rw [h, liftM_pure, lift_pure]

end Lifting

section Merges

variable {β : Type} [BitLike β]

/-- Chooses between two numbers given by words, padded to one length. -/
def muxNat (c : β) (t e : List β) : Checked (Value β) := do
  let width := max t.length e.length
  return .toNat (Value.muxBits c (← zeroExtend t width) (← zeroExtend e width))

theorem muxNat_eq (c : β) (t e : List β) : muxNat c t e = pure (Value.muxNat c t e) := by
  simp only [muxNat, zeroExtend_eq, pure_bind]
  rfl

variable [DecidableEq β]

mutual

/-- The value that is `t` where `c` holds and `e` elsewhere. -/
def mux (c : β) (t e : Value β) : ExceptT OutOfRange (Merge β) (Value β) :=
  match BitLike.asLit? c with
  | some true => return t
  | some false => return e
  | none =>
      if t == e then return t
      else
        match t, e with
        | .toNat a, .toNat b => liftM (muxNat c a b)
        | .toNat a, .nat n => liftM (muxNat c a (Word.ofNat n (Value.bitLength n)))
        | .nat n, .toNat b => liftM (muxNat c (Word.ofNat n (Value.bitLength n)) b)
        | .vector a, .vector b =>
            if a.length = b.length then return .vector (← muxList c a b)
            else ExceptT.lift (throw (Value.shapeMismatch (.vector a) (.vector b)))
        | .pair a₁ a₂, .pair b₁ b₂ => do
            let left ← mux c a₁ b₁
            return .pair left (← mux c a₂ b₂)
        | .record a, .record b =>
            if a.map (·.1) = b.map (·.1) then return .record (← muxFields c a b)
            else ExceptT.lift (throw (Value.shapeMismatch (.record a) (.record b)))
        | .ctor i a, .ctor j b =>
            if i = j ∧ a.length = b.length then return .ctor i (← muxList c a b)
            else ExceptT.lift (throw (.cannotMerge (.constructors i j)))
        -- All other merges look at no position and do not subtract.
        | t, e => ExceptT.lift (Value.mux c t e)

/-- `mux` element by element. -/
def muxList (c : β) :
    List (Value β) → List (Value β) → ExceptT OutOfRange (Merge β) (List (Value β))
  | a :: as, b :: bs => do
      let v ← mux c a b
      return v :: (← muxList c as bs)
  | _, _ => return []

/-- `mux` field by field. -/
def muxFields (c : β) : List (String × Value β) → List (String × Value β) →
    ExceptT OutOfRange (Merge β) (List (String × Value β))
  | (x, a) :: as, (_, b) :: bs => do
      let v ← mux c a b
      return (x, v) :: (← muxFields c as bs)
  | _, _ => return []

end

variable {c : β}

theorem muxList_eq {as : List (Value β)}
    (h : ∀ a ∈ as, ∀ b, mux c a b = ExceptT.lift (Value.mux c a b)) (bs : List (Value β)) :
    muxList c as bs = ExceptT.lift (Value.muxList c as bs) := by
  induction as generalizing bs with
  | nil => rw [muxList.eq_def, Value.muxList_nil, lift_pure]
  | cons a as ih =>
      obtain ⟨ha, has⟩ := List.forall_mem_cons.mp h
      cases bs with
      | nil => rw [muxList.eq_def, Value.muxList_nil_right, lift_pure]
      | cons b bs =>
          rw [muxList.eq_def, Value.muxList_cons]
          exact lift_bind_eq (ha b) fun v =>
            lift_bind_eq (ih has bs) fun vs => (lift_pure _).symm

theorem muxFields_eq {fs : List (String × Value β)}
    (h : ∀ f ∈ fs, ∀ b, mux c f.2 b = ExceptT.lift (Value.mux c f.2 b))
    (gs : List (String × Value β)) :
    muxFields c fs gs = ExceptT.lift (Value.muxFields c fs gs) := by
  induction fs generalizing gs with
  | nil => rw [muxFields.eq_def, Value.muxFields_nil, lift_pure]
  | cons f fs ih =>
      obtain ⟨hf, hfs⟩ := List.forall_mem_cons.mp h
      cases gs with
      | nil => rw [muxFields.eq_def, Value.muxFields_nil_right, lift_pure]
      | cons g gs =>
          rw [muxFields.eq_def, Value.muxFields_cons]
          exact lift_bind_eq (hf g.2) fun v =>
            lift_bind_eq (ih hfs gs) fun vs => (lift_pure _).symm

/-- A merge takes no step out of range, whatever the two values are. -/
theorem mux_eq (c : β) (t : Value β) : ∀ e, mux c t e = ExceptT.lift (Value.mux c t e) := by
  cases hc : BitLike.asLit? c with
  | some b =>
      intro e
      rw [mux.eq_def, hc, Value.mux_of_lit hc, lift_pure]
      cases b <;> rfl
  | none =>
      -- Values that are equal are not looked into.
      have hself {t e : Value β} (hne : t.beq e = false →
          mux c t e = ExceptT.lift (Value.mux c t e)) :
          mux c t e = ExceptT.lift (Value.mux c t e) := by
        cases hbeq : t.beq e with
        | true =>
            rw [Value.mux_of_beq hbeq, lift_pure, mux.eq_def, hc]
            exact if_pos hbeq
        | false => exact hne hbeq
      induction t using Value.inductOn
      all_goals
        intro e
        refine hself fun hne => ?_
        rw [mux.eq_def, hc]
        refine (if_neg (ne_true_of_eq_false hne)).trans ?_
      case toNat a =>
        cases e with
        | toNat b =>
            rw [Value.mux_of_ne hc hne]
            exact liftM_eq (muxNat_eq c a b)
        | nat n =>
            rw [Value.mux_of_ne hc hne]
            exact liftM_eq (muxNat_eq c a _)
        | _ => rfl
      case nat n =>
        cases e with
        | toNat b =>
            rw [Value.mux_of_ne hc hne]
            exact liftM_eq (muxNat_eq c _ b)
        | _ => rfl
      case vector as ih =>
        cases e with
        | vector bs =>
            rw [Value.mux_vectors hc]
            dsimp only
            by_cases hlength : as.length = bs.length
            · rw [if_pos hlength, if_pos hlength]
              exact lift_bind_eq (muxList_eq ih bs) fun vs => (lift_pure _).symm
            · rw [if_neg hlength, if_neg hlength]
        | _ => rfl
      case pair a b iha ihb =>
        cases e with
        | pair a' b' =>
            rw [Value.mux_pairs hc]
            exact lift_bind_eq (iha a') fun left =>
              lift_bind_eq (ihb b') fun right => (lift_pure _).symm
        | _ => rfl
      case record fs ih =>
        cases e with
        | record gs =>
            rw [Value.mux_records hc]
            dsimp only
            by_cases hnames : fs.map (·.1) = gs.map (·.1)
            · rw [if_pos hnames, if_pos hnames]
              exact lift_bind_eq (muxFields_eq ih gs) fun vs => (lift_pure _).symm
            · rw [if_neg hnames, if_neg hnames]
        | _ => rfl
      case ctor i as ih =>
        cases e with
        | ctor j bs =>
            rw [Value.mux_ctors hc]
            dsimp only
            by_cases hsame : i = j ∧ as.length = bs.length
            · rw [if_pos hsame, if_pos hsame]
              exact lift_bind_eq (muxList_eq ih bs) fun vs => (lift_pure _).symm
            · rw [if_neg hsame, if_neg hsame]
        | _ => rfl
      -- Values of the other kinds are merged as they are.
      all_goals cases e <;> rfl

end Merges

end Checked

end TermGraph
