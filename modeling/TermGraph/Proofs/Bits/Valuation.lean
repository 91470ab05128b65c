import Mathlib
import TermGraph.Bits.Word
import TermGraph.Proofs.Bits.Anf
import TermGraph.Proofs.Bits.Word

/-!
# Reading symbolic bits

A valuation gives every bit a truth value and respects what can be done with bits.  Words
are read bit by bit, and every operation on words is respected too, because words are made
of nothing but operations on bits.  The product is the exception that needs an argument: it
leaves out what is known to be zero, and how much is known differs between the two sides.
-/

namespace TermGraph

/-- A truth value for every bit. -/
structure Valuation (β : Type) [BitLike β] where
  read : β → Bool
  read_lit : ∀ b, read (BitLike.lit b) = b
  read_of_asLit : ∀ {a b}, BitLike.asLit? a = some b → read a = b
  read_not : ∀ a, read (BitLike.not a) = !read a
  read_and : ∀ a b, read (BitLike.and a b) = (read a && read b)
  read_xor : ∀ a b, read (BitLike.xor a b) = (read a ^^ read b)
  read_or : ∀ a b, read (BitLike.or a b) = (read a || read b)

/-- The values of formulas under an assignment of the input variables. -/
def Anf.valuation (s : Nat → Bool) : Valuation Anf where
  read := Anf.eval s
  read_lit := eval_const
  read_of_asLit h := by rw [asConst?_eq_some.mp h, eval_const]
  read_not := eval_not
  read_and := eval_and
  read_xor := eval_xor
  read_or := eval_or

/-- Known bits have their own value. -/
def Valuation.known : Valuation Bool where
  read := id
  read_lit _ := rfl
  read_of_asLit h := Option.some_inj.mp h
  read_not _ := rfl
  read_and _ _ := rfl
  read_xor _ _ := rfl
  read_or a b := by cases a <;> cases b <;> rfl

namespace Valuation

variable {β : Type} [BitLike β] (f : Valuation β)

attribute [simp] read_lit read_not read_and read_xor read_or

@[simp] theorem read_iff (a b : β) : f.read (BitLike.iff a b) = (f.read a == f.read b) := by
  rw [BitLike.iff, read_not, read_xor]
  cases f.read a <;> cases f.read b <;> rfl

@[simp] theorem read_mux (c t e : β) :
    f.read (BitLike.mux c t e) = if f.read c then f.read t else f.read e := by
  unfold BitLike.mux
  split
  · next h => rw [f.read_of_asLit h, if_pos rfl]
  · next h => rw [f.read_of_asLit h, if_neg Bool.false_ne_true]
  · rw [read_xor, read_and, read_xor]
    cases f.read c <;> cases f.read t <;> cases f.read e <;> rfl

/-- The known bits of a word. -/
def word (bits : List β) : List Bool :=
  bits.map f.read

@[simp] theorem length_word (bits : List β) : (f.word bits).length = bits.length :=
  List.length_map _

@[simp] theorem word_nil : f.word [] = [] :=
  rfl

@[simp] theorem word_cons (a : β) (as : List β) : f.word (a :: as) = f.read a :: f.word as :=
  rfl

@[simp] theorem word_append (as bs : List β) : f.word (as ++ bs) = f.word as ++ f.word bs :=
  List.map_append

@[simp] theorem word_drop (n : Nat) (as : List β) : f.word (as.drop n) = (f.word as).drop n :=
  List.map_drop

@[simp] theorem word_take (n : Nat) (as : List β) : f.word (as.take n) = (f.word as).take n :=
  List.map_take

@[simp] theorem word_replicate (n : Nat) (a : β) :
    f.word (List.replicate n a) = List.replicate n (f.read a) :=
  List.map_replicate

@[simp] theorem word_known (bits : List Bool) : known.word bits = bits :=
  List.map_id _

/-- The number that a word denotes. -/
def number (bits : List β) : Nat :=
  Word.value (f.word bits)

theorem number_of_toNat? {bits : List β} {n : Nat} (h : Word.toNat? bits = some n) :
    f.number bits = n := by
  have hfold (bits : List β) (m : Nat)
      (h : bits.foldlM (fun n bit => (BitLike.asLit? bit).map fun b => 2 * n + b.toNat) m =
        some n) :
      (f.word bits).foldl (fun n bit => 2 * n + bit.toNat) m = n := by
    induction bits generalizing m with
    | nil => exact Option.some_inj.mp h
    | cons bit bits ih =>
        rw [List.foldlM_cons] at h
        cases hbit : BitLike.asLit? bit with
        | none => rw [hbit] at h; cases h
        | some b =>
            rw [hbit] at h
            rw [word_cons, List.foldl_cons, f.read_of_asLit hbit]
            exact ih _ h
  exact hfold bits 0 h

/-! ## Operations on words -/

@[simp] theorem word_zeros (n : Nat) : f.word (Word.zeros n) = Word.zeros n := by
  rw [Word.zeros, word_replicate, read_lit]
  rfl

@[simp] theorem word_zeroExtend (bits : List β) (width : Nat) :
    f.word (Word.zeroExtend bits width) = Word.zeroExtend (f.word bits) width := by
  rw [Word.zeroExtend, Word.zeroExtend, word_append, word_zeros, length_word]

@[simp] theorem word_ofNat (n width : Nat) : f.word (Word.ofNat n width) = Word.ofNat n width := by
  unfold word Word.ofNat
  rw [List.map_map]
  exact List.map_congr_left fun i _ => f.read_lit _

theorem addWithCarry_eq (as bs : List β) (c : β) :
    f.word (Word.addWithCarry as bs c).1 =
        (Word.addWithCarry (f.word as) (f.word bs) (f.read c)).1 ∧
      f.read (Word.addWithCarry as bs c).2 =
        (Word.addWithCarry (f.word as) (f.word bs) (f.read c)).2 := by
  induction as generalizing bs with
  | nil => exact ⟨rfl, rfl⟩
  | cons a as ih =>
      cases bs with
      | nil => exact ⟨rfl, rfl⟩
      | cons b bs =>
          obtain ⟨hsum, hcarry⟩ := ih bs
          simp only [Word.addWithCarry, word_cons, read_xor, read_and, hsum, hcarry]
          exact ⟨rfl, rfl⟩

@[simp] theorem word_add (as bs : List β) :
    f.word (Word.add as bs) = Word.add (f.word as) (f.word bs) := by
  rw [Word.add, (f.addWithCarry_eq as bs _).1, read_lit]
  rfl

@[simp] theorem word_not (as : List β) : f.word (Word.not as) = Word.not (f.word as) := by
  unfold word Word.not
  rw [List.map_map, List.map_map]
  exact List.map_congr_left fun a _ => f.read_not a

@[simp] theorem word_sub (as bs : List β) :
    f.word (Word.sub as bs) = Word.sub (f.word as) (f.word bs) := by
  rw [Word.sub, (f.addWithCarry_eq as _ _).1, word_not, read_lit]
  rfl

@[simp] theorem word_neg (as : List β) : f.word (Word.neg as) = Word.neg (f.word as) := by
  rw [Word.neg, word_sub, word_zeros, Word.neg, length_word]

/-- An operation on pairs of bits that reads well reads well bit by bit. -/
theorem word_zipWith {g : β → β → β} {g' : Bool → Bool → Bool}
    (h : ∀ a b, f.read (g a b) = g' (f.read a) (f.read b)) (as bs : List β) :
    f.word (as.zipWith g bs) = (f.word as).zipWith g' (f.word bs) := by
  induction as generalizing bs with
  | nil => rfl
  | cons a as ih =>
      cases bs with
      | nil => rfl
      | cons b bs => rw [List.zipWith_cons_cons, word_cons, h, ih]; rfl

/-- A choice between two words of one length is one of them. -/
theorem word_mux {as bs : List β} (h : as.length = bs.length) (c : β) :
    f.word (as.zipWith (BitLike.mux c) bs) = if f.read c then f.word as else f.word bs := by
  rw [f.word_zipWith (f.read_mux c), ← Word.zipWith_mux (by simp only [length_word, h])]
  congr 1
  cases f.read c <;> rfl

@[simp] theorem word_and (as bs : List β) :
    f.word (Word.and as bs) = Word.and (f.word as) (f.word bs) :=
  f.word_zipWith f.read_and as bs

@[simp] theorem word_or (as bs : List β) :
    f.word (Word.or as bs) = Word.or (f.word as) (f.word bs) :=
  f.word_zipWith f.read_or as bs

@[simp] theorem word_xor (as bs : List β) :
    f.word (Word.xor as bs) = Word.xor (f.word as) (f.word bs) :=
  f.word_zipWith f.read_xor as bs

@[simp] theorem read_eq (as bs : List β) :
    f.read (Word.eq as bs) = Word.eq (f.word as) (f.word bs) := by
  have hfold (ps : List (β × β)) (acc : β) :
      f.read (ps.foldl (fun acc p => BitLike.and acc (BitLike.iff p.1 p.2)) acc) =
        (ps.map fun p => (f.read p.1, f.read p.2)).foldl
          (fun acc p => BitLike.and acc (BitLike.iff p.1 p.2)) (f.read acc) := by
    induction ps generalizing acc with
    | nil => rfl
    | cons p ps ih =>
        rw [List.foldl_cons, ih, read_and, read_iff, List.map_cons, List.foldl_cons]
        cases f.read p.1 <;> cases f.read p.2 <;> rfl
  rw [Word.eq, hfold, read_lit, Word.eq, word, word, List.zip_map]
  rfl

@[simp] theorem read_ult (as bs : List β) :
    f.read (Word.ult as bs) = Word.ult (f.word as) (f.word bs) := by
  rw [Word.ult, read_not, (f.addWithCarry_eq as _ _).2, word_not, read_lit]
  rfl

@[simp] theorem word_flipSign (as : List β) :
    f.word (Word.flipSign as) = Word.flipSign (f.word as) := by
  cases as with
  | nil => rfl
  | cons a as => rw [Word.flipSign, word_cons, read_not]; rfl

@[simp] theorem read_slt (as bs : List β) :
    f.read (Word.slt as bs) = Word.slt (f.word as) (f.word bs) := by
  rw [Word.slt, read_ult, word_flipSign, word_flipSign, Word.slt]

@[simp] theorem word_shift (kind : Word.ShiftKind) (bits : List β) (amount : Nat) :
    f.word (Word.shift kind bits amount) = Word.shift kind (f.word bits) amount := by
  cases bits with
  | nil => rfl
  | cons sign rest => cases kind <;> simp [Word.shift]

@[simp] theorem word_shiftBy (kind : Word.ShiftKind) (bits amount : List β) :
    f.word (Word.shiftBy kind bits amount) = Word.shiftBy kind (f.word bits) (f.word amount) := by
  induction amount generalizing bits with
  | nil => rfl
  | cons bit amount ih =>
      rw [Word.shiftBy_cons, ih, f.word_mux (Word.length_shift _ _ _), word_shift, word_cons,
        Word.shiftBy_cons, length_word, Word.zipWith_mux (Word.length_shift _ _ _)]

/-- A copy that a bit masks reads as the copy or as nothing to add. -/
theorem word_mask (as : List β) (b : β) :
    f.word (as.map fun a => BitLike.and a b) =
      if f.read b then f.word as else List.replicate as.length false := by
  induction as with
  | nil => simp
  | cons a as ih =>
      rw [List.map_cons, word_cons, ih, read_and]
      cases f.read b <;> simp [List.replicate_succ]

@[simp] theorem word_mul (as bs : List β) :
    f.word (Word.mul as bs) = Word.mul (f.word as) (f.word bs) := by
  have hbits : (f.word bs).reverse.zipIdx = bs.reverse.zipIdx.map fun p => (f.read p.1, p.2) := by
    rw [word, ← List.map_reverse, List.zipIdx_map]
    rfl
  have hzeros : (Word.zeros as.length : List β).length = as.length := Word.length_zeros _
  rw [Word.mul_eq, length_word, ← f.word_zeros, hbits]
  unfold Word.mul
  generalize bs.reverse.zipIdx = ps
  generalize (Word.zeros as.length : List β) = product at hzeros ⊢
  induction ps generalizing product with
  | nil => rfl
  | cons p ps ih =>
      obtain ⟨b, i⟩ := p
      have hlength : product.length = ((Word.shift .shl as i).map fun x =>
          BitLike.and x b).length := by
        rw [List.length_map, Word.length_shift, hzeros]
      -- A bit that is not known to be zero may still read as zero.
      have hadd : f.word (Word.add product
            ((Word.shift .shl as i).map fun x => BitLike.and x b)) =
          if f.read b then Word.add (f.word product) (Word.shift .shl (f.word as) i)
          else f.word product := by
        rw [word_add, word_mask, word_shift]
        cases f.read b with
        | true => rfl
        | false => exact Word.add_zeros (by rw [length_word, Word.length_shift, hzeros])
      rw [List.foldl_cons, List.map_cons, List.foldl_cons]
      dsimp only
      split
      · next hzero => rw [ih product hzeros, f.read_of_asLit hzero, if_neg Bool.false_ne_true]
      · rw [ih _ (by rw [Word.length_add hlength, ← hlength, hzeros]), hadd]

end Valuation

end TermGraph
