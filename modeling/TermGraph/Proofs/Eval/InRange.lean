import Mathlib
import TermGraph.Proofs.Eval.Vectors
import TermGraph.Proofs.Value.InRange

/-!
# Primitives stay in range

A primitive checks its arguments before it computes: the widths of two words, whether a number
is known, how wide an index is.  Here the primitives are written with the steps that their
circuits take, each of which may be out of range, and shown to take none that is, on arguments
of any kinds, widths and numbers.  So the guards are enough: a primitive gives a value or an
error of the term, once the functions and streams among its arguments come to an end.
-/

namespace TermGraph

open EvalM (Approximates)
open Primitive (NatArg opName boolArg wordArg natArg wordArgs elemsArg streamArg headroom
  lengthLimit maxStreamIndexWidth)

namespace Checked

/-- A computation that may fail with an error of the term, or take a step out of range. -/
abbrev Fallible : Type → Type :=
  ExceptT OutOfRange (Except EvalError)

variable {β : Type}

/-- A computation that needs no evaluator. -/
def ofExcept {α : Type} (x : Fallible α) : ExceptT OutOfRange (EvalM β) α :=
  ExceptT.mk (EvalM.ofExcept x.run)

/-- A computation that may add streams. -/
def ofMerge {α : Type} (m : ExceptT OutOfRange (Merge β) α) : ExceptT OutOfRange (EvalM β) α :=
  ExceptT.mk (EvalM.ofMerge m.run)

variable [BitLike β]

/-! ## Numbers -/

section Numbers

/-- The natural number as a word. -/
def toWord (width : Nat) : NatArg β → Checked (List β)
  | .known n => return Word.ofNat n width
  | .symbolic bits => zeroExtend bits width

/-- An operation on two known natural numbers. -/
def knownNatOp (op : NatOp) (a b : Nat) : Fallible (Value β) :=
  match op with
  | .sub => if b < a then return .nat (← sub a b) else return .nat 0
  | .div =>
      if b = 0 then ExceptT.lift (throw (.userError "division by zero"))
      else return .nat (← div a b)
  | .mod =>
      if b = 0 then ExceptT.lift (throw (.userError "division by zero"))
      else return .nat (← mod a b)
  | .add | .mul | .eq | .lt => ExceptT.lift (Primitive.knownNatOp op a b)

/-- The difference of two words, or zero where it would be negative. -/
def truncatedSub (a b : List β) : Checked (List β) := do
  let underflow ← ult a b
  return (← wordSub a b).map fun bit => BitLike.mux underflow (BitLike.lit false) bit

/-- An operation on two natural numbers given by words. -/
def symbolicNatOp (op : NatOp) (a b : List β) : Fallible (Value β) :=
  match op with
  | .add => return .toNat (← add a b)
  | .sub => return .toNat (← truncatedSub a b)
  | .mul => return .toNat (← mul a b)
  | .lt => return .bool (← ult a b)
  | .div | .mod | .eq => ExceptT.lift (Primitive.symbolicNatOp op a b)

/-- An operation on two natural numbers. -/
def natOp (op : NatOp) (a b : NatArg β) : Fallible (Value β) :=
  match a, b with
  | .known a, .known b => knownNatOp op a b
  | a, b => do
      let width := max a.width b.width
      let width := width + headroom op width
      symbolicNatOp op (← toWord width a) (← toWord width b)

/-- The next natural number. -/
def natSucc (a : NatArg β) : Checked (Value β) :=
  match a with
  | .known n => return .nat (n + 1)
  | .symbolic bits => do
      let width := max bits.length 1 + 1
      return .toNat (← add (← zeroExtend bits width) (Word.ofNat 1 width))

end Numbers

/-! ## Words -/

section Words

/-- An operation on two words. -/
def wordOp (op : WordOp) (a b : List β) : Checked (List β) :=
  match op with
  | .add => add a b
  | .sub => wordSub a b
  | .mul => mul a b
  | .and | .or | .xor => return Primitive.wordOp op a b

/-- A comparison of two words. -/
def wordCmp (op : WordCmp) (a b : List β) : Checked β :=
  match op with
  | .eq => return Word.eq a b
  | .ult => ult a b
  | .ule => return BitLike.not (← ult b a)
  | .ugt => ult b a
  | .uge => return BitLike.not (← ult a b)
  | .slt => slt a b
  | .sle => return BitLike.not (← slt b a)

/-- A division of known words. -/
def divide (part : Division) (a b width : Nat) : Checked Nat :=
  match part with
  | .quotient => if b = 0 then sub (1 <<< width) 1 else div a b
  | .remainder => if b = 0 then return a else mod a b

/-- A division of words. -/
def wordDivision (part : Division) (a b : List β) : Fallible (Value β) :=
  match Word.toNat? a, Word.toNat? b with
  | some x, some y => return .word (Word.ofNat (← divide part x y a.length) a.length)
  | _, _ => ExceptT.lift (throw (.unsupported (.symbolicOperands part.name)))

/-- The low bits of a number as a word of a given width. -/
def bvNat (width x : Value β) : Fallible (Value β) := do
  match ← ExceptT.lift (natArg "bvNat" width) with
  | .symbolic _ => ExceptT.lift (throw (.unsupported .symbolicWidth))
  | .known width =>
      if width < lengthLimit then
        match ← ExceptT.lift (natArg "bvNat" x) with
        | .known n => return .word (Word.ofNat n width)
        | .symbolic bits =>
            let bits ← zeroExtend bits width
            return .word (← behind bits (← sub bits.length width))
      else ExceptT.lift (throw (.unsupported (.wordWidth width)))

/-- A shift of a word by a number. -/
def wordShift (kind : Word.ShiftKind) (x : List β) (amount : NatArg β) : Checked (Value β) :=
  match amount with
  | .known n => return .word (← shift kind x (← shiftAmount kind n x.length))
  | .symbolic bits => return .word (← shiftBy kind x bits)

end Words

/-! ## Elements -/

section Elements

/-- The elements that an index of some width reaches. -/
def reachable (elems : List (Value β)) (width : Nat) : Checked (List (Value β)) := do
  if width < 64 then return elems.take (← power width) else return elems

variable [DecidableEq β]

/-- The element at a symbolic index. -/
def select (elems : List (Value β)) (index : List β) : ExceptT OutOfRange (Merge β) (Value β) := do
  let reachable ← reachable elems index.length
  let covered := decide (index.length < 64 ∧ reachable.length = 1 <<< index.length)
  let (elems, last) ←
    match covered, reachable.getLast?, reachable.head? with
    | true, some last, _ => pure (reachable.dropLast, last)
    | _, _, some first => do
        let last ← ExceptT.lift (liftM first.defaultLike)
        pure (reachable, last)
    | _, _, none => ExceptT.lift (throw .symbolicIndexOutOfBounds)
  elems.zipIdx.foldrM
    (fun p rest => mux (Word.eq index (Word.ofNat p.2 index.length)) p.1 rest) last

/-- The element of a vector at an index. -/
def elementAt (v i : Value β) : ExceptT OutOfRange (EvalM β) (Value β) := do
  let elems ← ExceptT.lift (EvalM.ofExcept (elemsArg "at" v))
  match ← ExceptT.lift (EvalM.ofExcept (natArg "at" i)) with
  | .known i =>
      match elems[i]? with
      | some v => return v
      | none => ExceptT.lift (EvalM.fail (.indexOutOfBounds i elems.length))
  | .symbolic index => ofMerge (select elems index)

/-- The element of a stream at an index. -/
def streamGet (calls : Calls β) (stream index : Value β) :
    ExceptT OutOfRange (EvalM β) (Value β) := do
  let id ← ExceptT.lift (EvalM.ofExcept (streamArg "streamGet" stream))
  match ← ExceptT.lift (EvalM.ofExcept (natArg "streamGet" index)) with
  | .known n => ExceptT.lift (calls.element id n)
  | .symbolic bits =>
      if bits.length ≤ maxStreamIndexWidth then
        let count ← power bits.length
        let elems ← (List.range count).mapM fun n => ExceptT.lift (calls.element id n)
        ofMerge (select elems bits)
      else ExceptT.lift (EvalM.fail (.unsupported (.streamIndexWidth bits.length)))

/-- The result of a primitive on its arguments. -/
def run (calls : Calls β) (op : Builtin) (args : List (Value β)) :
    ExceptT OutOfRange (EvalM β) (Value β) :=
  let name := opName op
  match op, args with
  | .ite, [_, c, t, e] => do
      let c ← ExceptT.lift (EvalM.ofExcept (boolArg name c))
      ofMerge (mux c t e)
  | .natSucc, [a] => ofExcept do
      let a ← ExceptT.lift (natArg name a)
      natSucc a
  | .natOp op, [a, b] => ofExcept do
      let a ← ExceptT.lift (natArg name a)
      let b ← ExceptT.lift (natArg name b)
      natOp op a b
  | .index, [_, _, v, i] => elementAt v i
  | .streamGet, [_, stream, index] => streamGet calls stream index
  | .bvNat, [width, x] => ofExcept (bvNat width x)
  | .bvOp op, [_, a, b] => ofExcept do
      let (a, b) ← ExceptT.lift (wordArgs name a b)
      return .word (← wordOp op a b)
  | .bvDivision part, [_, a, b] => ofExcept do
      let (a, b) ← ExceptT.lift (wordArgs name a b)
      wordDivision part a b
  | .bvCmp op, [_, a, b] => ofExcept do
      let (a, b) ← ExceptT.lift (wordArgs name a b)
      return .bool (← wordCmp op a b)
  | .bvShift kind, [_, x, amount] => ofExcept do
      let x ← ExceptT.lift (wordArg name x)
      let amount ← ExceptT.lift (natArg name amount)
      wordShift kind x amount
  | .bvNeg, [_, a] => ofExcept do
      let a ← ExceptT.lift (wordArg name a)
      return .word (← neg a)
  -- The others read no position, subtract no natural numbers and do not divide.
  | op, args => ExceptT.lift (Primitive.run calls op args)

end Elements

/-! ## No step is out of range -/

section Lifting

variable {α γ : Type}

omit [BitLike β] in
theorem ofExcept_eq {x : Fallible α} {x' : Except EvalError α} (h : x = ExceptT.lift x') :
    (ofExcept x : ExceptT OutOfRange (EvalM β) α) = ExceptT.lift (EvalM.ofExcept x') := by
  rw [h]
  cases x' <;> rfl

omit [BitLike β] in
theorem ofMerge_eq {m : ExceptT OutOfRange (Merge β) α} {m' : Merge β α}
    (h : m = ExceptT.lift m') : ofMerge m = ExceptT.lift (EvalM.ofMerge m') := by
  rw [h]
  refine EvalM.ext fun ev => ?_
  change (EvalM.ofMerge (Except.ok <$> m')).exec ev = (Except.ok <$> EvalM.ofMerge m').exec ev
  rw [← bind_pure_comp, ← bind_pure_comp, EvalM.exec_bind, EvalM.exec_ofMerge, EvalM.exec_ofMerge,
    StateT.run_bind]
  cases m'.run ev.heap <;> rfl

/-- What follows a check may rely on it. -/
theorem lift_bind_of_ok {x : Except EvalError α} {f : α → Fallible γ} {f' : α → Except EvalError γ}
    (hf : ∀ a, x = .ok a → f a = ExceptT.lift (f' a)) :
    ExceptT.lift x >>= f = ExceptT.lift (x >>= f') := by
  cases x with
  | error e => rfl
  | ok a => exact hf a rfl

end Lifting

section Numbers

theorem toWord_eq (width : Nat) (a : NatArg β) : toWord width a = pure (a.toWord width) := by
  cases a with
  | known n => rfl
  | symbolic bits => exact zeroExtend_eq bits width

theorem knownNatOp_eq (op : NatOp) (a b : Nat) :
    (knownNatOp op a b : Fallible (Value β)) = ExceptT.lift (Primitive.knownNatOp op a b) := by
  cases op with
  | sub =>
      unfold knownNatOp
      dsimp only
      split
      · next hlt =>
          rw [sub_eq hlt.le, liftM_pure, pure_bind]
          rfl
      · next hle =>
          have hzero : a - b = 0 := by omega
          rw [Primitive.knownNatOp, hzero]
          rfl
  | div =>
      unfold knownNatOp Primitive.knownNatOp
      dsimp only
      split
      · rfl
      · next hne =>
          rw [div_eq hne, liftM_pure, pure_bind]
          rfl
  | mod =>
      unfold knownNatOp Primitive.knownNatOp
      dsimp only
      split
      · rfl
      · next hne =>
          rw [mod_eq hne, liftM_pure, pure_bind]
          rfl
  | add | mul | eq | lt => rfl

variable {a b : List β}

theorem truncatedSub_eq (h : a.length = b.length) :
    truncatedSub a b = pure (Primitive.truncatedSub a b) := by
  rw [truncatedSub, ult_eq h, pure_bind, wordSub_eq h, pure_bind, Primitive.truncatedSub]

theorem symbolicNatOp_eq (op : NatOp) (h : a.length = b.length) :
    symbolicNatOp op a b = ExceptT.lift (Primitive.symbolicNatOp op a b) := by
  cases op with
  | add => rw [symbolicNatOp, add_eq h, liftM_pure, pure_bind]; rfl
  | sub => rw [symbolicNatOp, truncatedSub_eq h, liftM_pure, pure_bind]; rfl
  | mul => rw [symbolicNatOp, mul_eq h, liftM_pure, pure_bind]; rfl
  | lt => rw [symbolicNatOp, ult_eq h, liftM_pure, pure_bind]; rfl
  | div | mod | eq => rfl

/-- Both operands are brought to one width, which has room for each of them. -/
theorem natOp_eq (op : NatOp) (a b : NatArg β) :
    natOp op a b = ExceptT.lift (Primitive.natOp op a b) := by
  have hwords (width : Nat) (ha : a.width ≤ width) (hb : b.width ≤ width) :
      (do symbolicNatOp op (← toWord width a) (← toWord width b) : Fallible (Value β)) =
        ExceptT.lift (Primitive.symbolicNatOp op (a.toWord width) (b.toWord width)) := by
    rw [toWord_eq, toWord_eq, liftM_pure, pure_bind, liftM_pure, pure_bind]
    exact symbolicNatOp_eq op
      ((Primitive.length_toWord ha).trans (Primitive.length_toWord hb).symm)
  have hroom := hwords (max a.width b.width + headroom op (max a.width b.width)) (by omega)
    (by omega)
  cases a with
  | known m =>
      cases b with
      | known n => exact knownNatOp_eq op m n
      | symbolic y => exact hroom
  | symbolic x => cases b <;> exact hroom

theorem natSucc_eq (a : NatArg β) : natSucc a = pure (Primitive.natSucc a) := by
  cases a with
  | known n => rfl
  | symbolic bits =>
      have hlength : (Word.zeroExtend bits (max bits.length 1 + 1)).length =
          (Word.ofNat 1 (max bits.length 1 + 1) : List β).length := by
        rw [Word.length_zeroExtend (by omega), Word.length_ofNat]
      simp only [natSucc, zeroExtend_eq, pure_bind, add_eq hlength]
      rfl

end Numbers

section Words

variable {a b : List β}

theorem wordOp_eq (op : WordOp) (h : a.length = b.length) :
    wordOp op a b = pure (Primitive.wordOp op a b) := by
  cases op with
  | add => exact add_eq h
  | sub => exact wordSub_eq h
  | mul => exact mul_eq h
  | and | or | xor => rfl

theorem wordCmp_eq (op : WordCmp) (h : a.length = b.length) :
    wordCmp op a b = pure (Primitive.wordCmp op a b) := by
  cases op with
  | eq => rfl
  | ult => exact ult_eq h
  | ule => rw [wordCmp, ult_eq h.symm, pure_bind]; rfl
  | ugt => exact ult_eq h.symm
  | uge => rw [wordCmp, ult_eq h, pure_bind]; rfl
  | slt => exact slt_eq h
  | sle => rw [wordCmp, slt_eq h.symm, pure_bind]; rfl

theorem divide_eq (part : Division) (x y width : Nat) :
    divide part x y width = pure (Primitive.divide part x y width) := by
  have hpos : 1 ≤ 1 <<< width := by
    rw [Nat.one_shiftLeft]
    exact Nat.one_le_two_pow
  cases part with
  | quotient =>
      unfold divide Primitive.divide
      dsimp only
      split
      · exact sub_eq hpos
      · next hne => exact div_eq hne
  | remainder =>
      unfold divide Primitive.divide
      dsimp only
      split
      · rfl
      · next hne => exact mod_eq hne

theorem wordDivision_eq (part : Division) (a b : List β) :
    wordDivision part a b = ExceptT.lift (Primitive.wordDivision part a b) := by
  unfold wordDivision Primitive.wordDivision
  cases Word.toNat? a with
  | none => rfl
  | some x =>
      cases Word.toNat? b with
      | none => rfl
      | some y =>
          dsimp only
          rw [divide_eq, liftM_pure, pure_bind]
          rfl

theorem bvNat_eq (width x : Value β) : bvNat width x = ExceptT.lift (Primitive.bvNat width x) := by
  refine lift_bind_of_ok fun width _ => ?_
  cases width with
  | symbolic bits => rfl
  | known width =>
      dsimp only
      split
      · refine lift_bind_of_ok fun x _ => ?_
        cases x with
        | known n => rfl
        | symbolic bits =>
            -- A padded word is long enough for the cut that leaves its low bits.
            have hle := le_length_zeroExtend bits width
            dsimp only
            rw [zeroExtend_eq, liftM_pure, pure_bind, sub_eq hle, liftM_pure, pure_bind,
              behind_eq (Nat.sub_le _ _), liftM_pure, pure_bind]
            rfl
      · rfl

theorem wordShift_eq (kind : Word.ShiftKind) (x : List β) (amount : NatArg β) :
    wordShift kind x amount = pure (Primitive.wordShift kind x amount) := by
  cases amount with
  | known n =>
      obtain ⟨k, hamount, hshift⟩ := exists_shiftAmount_eq kind x n
      rw [wordShift, hamount, pure_bind, shift_eq, pure_bind, hshift]
      rfl
  | symbolic bits =>
      rw [wordShift, shiftBy_eq, pure_bind]
      rfl

end Words

section Elements

variable [DecidableEq β]

omit [BitLike β] [DecidableEq β] in
theorem reachable_eq (elems : List (Value β)) (width : Nat) :
    reachable elems width =
      pure (if width < 64 then elems.take (1 <<< width) else elems) := by
  unfold reachable
  split
  · next hlt => rw [power_eq hlt, pure_bind]
  · rfl

theorem select_eq (elems : List (Value β)) (index : List β) :
    select elems index = ExceptT.lift (Primitive.select elems index) := by
  have hchain (last : Value β) (elems : List (Value β)) :
      (pure (elems, last) >>= fun p : List (Value β) × Value β => p.1.zipIdx.foldrM
          (fun p rest => mux (Word.eq index (Word.ofNat p.2 index.length)) p.1 rest) p.2) =
        ExceptT.lift (elems.zipIdx.foldrM (fun p rest =>
          Value.mux (Word.eq index (Word.ofNat p.2 index.length)) p.1 rest) last) := by
    rw [pure_bind]
    exact foldrM_eq (fun p rest => mux_eq _ p.1 rest) elems.zipIdx last
  rw [select, reachable_eq, liftM_pure, pure_bind, Primitive.select]
  generalize (if index.length < 64 then elems.take (1 <<< index.length) else elems) = reachable
  -- The index covers the elements or not, and there is a last and a first one or not.
  cases decide (index.length < 64 ∧ reachable.length = 1 <<< index.length) with
  | true =>
      cases reachable.getLast? with
      | some last => exact hchain last reachable.dropLast
      | none =>
          cases reachable.head? with
          | some first => exact lift_bind_eq rfl fun last => hchain last reachable
          | none => rfl
  | false =>
      cases reachable.head? with
      | some first => exact lift_bind_eq rfl fun last => hchain last reachable
      | none => rfl

theorem elementAt_eq (v i : Value β) : elementAt v i = ExceptT.lift (Primitive.elementAt v i) := by
  refine lift_bind_eq rfl fun elems => lift_bind_eq rfl fun i => ?_
  cases i with
  | known i =>
      dsimp only
      cases elems[i]? with
      | some v => exact (lift_pure v).symm
      | none => rfl
  | symbolic index => exact ofMerge_eq (select_eq elems index)

theorem streamGet_eq (calls : Calls β) (stream index : Value β) :
    streamGet calls stream index = ExceptT.lift (Primitive.streamGet calls stream index) := by
  refine lift_bind_eq rfl fun id => lift_bind_eq rfl fun index => ?_
  cases index with
  | known n => rfl
  | symbolic bits =>
      dsimp only
      split
      · next hwidth =>
          -- The widest index that is let through is far narrower than a machine word.
          have hlt : bits.length < 64 := by
            have hmax : maxStreamIndexWidth = 16 := rfl
            omega
          rw [power_eq hlt, liftM_pure, pure_bind]
          exact lift_bind_eq (mapM_eq (fun _ => rfl) _) fun elems =>
            ofMerge_eq (select_eq elems bits)
      · rfl

omit [BitLike β] [DecidableEq β] in
/-- Two words are only operated on when they have one width. -/
theorem length_eq_of_wordArgs {op : String} {v w : Value β} {p : List β × List β}
    (h : wordArgs op v w = .ok p) : p.1.length = p.2.length := by
  unfold Primitive.wordArgs at h
  cases hx : wordArg op v with
  | error e => rw [hx] at h; cases h
  | ok x =>
      cases hy : wordArg op w with
      | error e => rw [hx, hy] at h; cases h
      | ok y =>
          rw [hx, hy] at h
          by_cases hlength : x.length = y.length
          · obtain rfl : (x, y) = p := Except.ok.inj ((if_pos hlength).symm.trans h)
            exact hlength
          · cases (if_neg hlength).symm.trans h

/-- A primitive takes no step out of range, whatever its arguments are. -/
theorem run_eq (calls : Calls β) (op : Builtin) (args : List (Value β)) :
    run calls op args = ExceptT.lift (Primitive.run calls op args) := by
  unfold run
  split
  · refine lift_bind_eq rfl fun c => ofMerge_eq (mux_eq c _ _)
  · refine ofExcept_eq (lift_bind_of_ok fun a _ => liftM_eq (natSucc_eq a))
  · refine ofExcept_eq (lift_bind_of_ok fun a _ => lift_bind_of_ok fun b _ => natOp_eq _ a b)
  · exact elementAt_eq _ _
  · exact streamGet_eq calls _ _
  · exact ofExcept_eq (bvNat_eq _ _)
  · refine ofExcept_eq (lift_bind_of_ok fun p hp => ?_)
    exact lift_bind_eq (liftM_eq (wordOp_eq _ (length_eq_of_wordArgs hp))) fun _ =>
      (lift_pure _).symm
  · exact ofExcept_eq (lift_bind_of_ok fun p _ => wordDivision_eq _ p.1 p.2)
  · refine ofExcept_eq (lift_bind_of_ok fun p hp => ?_)
    exact lift_bind_eq (liftM_eq (wordCmp_eq _ (length_eq_of_wordArgs hp))) fun _ =>
      (lift_pure _).symm
  · refine ofExcept_eq (lift_bind_of_ok fun x _ => lift_bind_of_ok fun amount _ => ?_)
    exact liftM_eq (wordShift_eq _ x amount)
  · refine ofExcept_eq (lift_bind_of_ok fun a _ => ?_)
    exact lift_bind_eq (liftM_eq (neg_eq a)) fun _ => (lift_pure _).symm
  · rfl

end Elements

end Checked

end TermGraph
