import Mathlib
import TermGraph.Proofs.Eval.Primitives
import TermGraph.Proofs.Value.Choice

/-!
# Operations under a valuation

A primitive on symbolic arguments gives what the primitive on known arguments gives, under
the valuation.  The two need not take the same way: symbolic numbers are words, and the
words have room for the result, so that nothing overflows; a symbolic index chooses among
all elements that it can reach.
-/

namespace TermGraph

variable {β : Type}

/-! ## Two computations that may fail -/

/-- If two computations both succeed, their results are related. -/
def Matches {α α' : Type} (R : α → α' → Prop) (x : Except EvalError α)
    (y : Except EvalError α') : Prop :=
  ∀ a b, x = .ok a → y = .ok b → R a b

namespace Matches

variable {α α' γ γ' : Type} {R : α → α' → Prop} {Q : γ → γ' → Prop} {x : Except EvalError α}
  {y : Except EvalError α'}

theorem ok {a : α} {b : α'} (h : R a b) : Matches R (.ok a) (.ok b) := by
  rintro _ _ ⟨⟩ ⟨⟩
  exact h

theorem error_left (e : EvalError) (y : Except EvalError α') : Matches R (.error e) y :=
  nofun

theorem error_right (x : Except EvalError α) (e : EvalError) : Matches R x (.error e) :=
  fun _ _ _ h => nomatch h

theorem bind {k : α → Except EvalError γ} {k' : α' → Except EvalError γ'} (h : Matches R x y)
    (hk : ∀ a b, R a b → Matches Q (k a) (k' b)) : Matches Q (x >>= k) (y >>= k') := by
  cases x with
  | error e => exact error_left _ _
  | ok a =>
      cases y with
      | error e => exact error_right _ _
      | ok b => exact hk a b (h a b rfl rfl)

end Matches

namespace Primitive

open Value (Stands)

variable [BitLike β] {f : Valuation β} {σ : Sources β} {τ : Sources Bool}

/-! ## Arguments -/

section Arguments

variable {v : Value β} {w : Value Bool}

theorem matches_boolArg (op : String) (h : Stands f σ τ v w) :
    Matches (fun a b => f.read a = b) (boolArg op v) (boolArg op w) := by
  cases v with
  | bool a =>
      obtain rfl := h.of_bool
      exact .ok rfl
  | _ => exact .error_left _ _

theorem matches_wordArg (op : String) (h : Stands f σ τ v w) :
    Matches (fun a b => f.word a = b) (wordArg op v) (wordArg op w) := by
  cases v with
  | word bits =>
      obtain rfl := h.of_word
      exact .ok rfl
  | vector as =>
      obtain ⟨bs, rfl, hab⟩ := h.of_vector
      -- An empty vector passes for a word.
      cases hab with
      | nil => exact .ok rfl
      | cons _ _ => exact .error_left _ _
  | _ => exact .error_left _ _

theorem matches_intArg (op : String) (h : Stands f σ τ v w) :
    Matches Eq (intArg op v) (intArg op w) := by
  cases v with
  | int i =>
      obtain rfl := h.of_int
      exact .ok rfl
  | _ => exact .error_left _ _

theorem matches_stringArg (op : String) (h : Stands f σ τ v w) :
    Matches Eq (stringArg op v) (stringArg op w) := by
  cases v with
  | string t =>
      obtain rfl := h.of_string
      exact .ok rfl
  | _ => exact .error_left _ _

theorem matches_streamArg (op : String) (h : Stands f σ τ v w) :
    Matches (fun i j => Stands f σ τ (.stream i) (.stream j)) (streamArg op v)
      (streamArg op w) := by
  cases v with
  | stream i =>
      obtain ⟨j, rfl, -⟩ := h.of_stream
      exact .ok h
  | _ => exact .error_left _ _

/-- The elements of a word or vector. -/
theorem matches_elemsArg (op : String) (h : Stands f σ τ v w) :
    Matches (List.Forall₂ (Stands f σ τ)) (elemsArg op v) (elemsArg op w) := by
  cases v with
  | word bits =>
      obtain rfl := h.of_word
      refine .ok ?_
      rw [Valuation.word, List.map_map, List.forall₂_map_left_iff, List.forall₂_map_right_iff,
        List.forall₂_same]
      exact fun _ _ => Value.stands_bool rfl
  | vector as =>
      obtain ⟨bs, rfl, hab⟩ := h.of_vector
      exact .ok hab
  | _ => exact .error_left _ _

theorem matches_wordArgs {v' : Value β} {w' : Value Bool} (op : String) (h : Stands f σ τ v w)
    (h' : Stands f σ τ v' w') :
    Matches (fun p q => p.1.length = p.2.length ∧ f.word p.1 = q.1 ∧ f.word p.2 = q.2)
      (wordArgs op v v') (wordArgs op w w') := by
  refine (matches_wordArg op h).bind fun a b hab => ?_
  refine (matches_wordArg op h').bind fun a' b' hab' => ?_
  subst hab hab'
  simp only [Valuation.length_word]
  split
  · next hlength => exact .ok ⟨hlength, rfl, rfl⟩
  · exact .error_left _ _

/-- The number of a symbolic argument. -/
def NatArg.number (f : Valuation β) : NatArg β → Nat
  | .known n => n
  | .symbolic bits => f.number bits

/-- A number given by a word is known if the bits are. -/
theorem natArg_toNat (op : String) (bits : List β) :
    (∃ n, natArg op (.toNat bits) = .ok (.known n) ∧ ∀ f : Valuation β, f.number bits = n) ∨
      natArg op (.toNat bits) = .ok (.symbolic bits) := by
  rw [natArg]
  cases hbits : Word.toNat? bits with
  | some n => exact Or.inl ⟨n, rfl, fun f => f.number_of_toNat? hbits⟩
  | none => exact Or.inr rfl

/-- Known bits make a known number. -/
theorem matches_natArg (op : String) (h : Stands f σ τ v w) :
    Matches (fun a b => b = .known (a.number f)) (natArg op v) (natArg op w) := by
  -- The known side may have the number itself or a word that denotes it.
  have hknown (n : Nat) (hv : v.read f = .nat n) : natArg op w = .ok (.known n) := by
    have hatom : v.isAtom = true := by
      rw [← Value.isAtom_read (f := f), hv]
      rfl
    obtain ⟨hw, hread⟩ := h.of_atom hatom
    rw [hv] at hread
    cases w with
    | nat m =>
        rw [Value.nat.inj hread]
        rfl
    | toNat bits =>
        rw [natArg, Word.toNat?_eq_value, Value.nat.inj hread, Valuation.number,
          Valuation.word_known]
    | bool _ | word _ | int _ | unit | type | string _ => cases hread
    | _ => cases hw
  cases v with
  | nat n =>
      rw [hknown n rfl]
      exact .ok rfl
  | toNat bits =>
      rw [hknown _ rfl]
      rcases natArg_toNat op bits with ⟨n, hn, hnumber⟩ | hn
      · rw [hn]
        exact .ok (congrArg NatArg.known (hnumber f))
      · rw [hn]
        exact .ok rfl
  | _ => exact .error_left _ _

theorem matches_knownNatArg (op : String) (h : Stands f σ τ v w) :
    Matches Eq (knownNatArg op v) (knownNatArg op w) := by
  refine (matches_natArg op h).bind fun a b hab => ?_
  subst hab
  cases a with
  | known n => exact .ok rfl
  | symbolic bits => exact .error_left _ _

end Arguments

/-! ## Operations on numbers -/

section Numbers

theorem number_lt (a : NatArg β) : a.number f < 2 ^ a.width := by
  cases a with
  | known n => exact Value.lt_two_pow_bitLength n
  | symbolic bits =>
      have hlt := Word.value_lt (f.word bits)
      rwa [f.length_word] at hlt

variable {a b : NatArg β} {width : Nat}

theorem length_toWord (h : a.width ≤ width) : (a.toWord width).length = width := by
  cases a with
  | known n => exact Word.length_ofNat n width
  | symbolic bits => exact Word.length_zeroExtend h

/-- A word that has room for a number denotes it. -/
theorem number_toWord (h : a.width ≤ width) : f.number (a.toWord width) = a.number f := by
  cases a with
  | known n =>
      have hlt := (Value.lt_two_pow_bitLength n).trans_le (Nat.pow_le_pow_right (by decide) h)
      rw [NatArg.toWord, Valuation.number, f.word_ofNat, Word.value_ofNat, Nat.mod_eq_of_lt hlt]
      rfl
  | symbolic bits =>
      rw [NatArg.toWord, Valuation.number, f.word_zeroExtend, Word.value_zeroExtend]
      rfl

/-- Words with room for two numbers and for what comes of them. -/
structure Room (f : Valuation β) (x y : List β) (m n : Nat) : Prop where
  length_eq : x.length = y.length
  left : f.number x = m
  right : f.number y = n

theorem room_toWord (ha : a.width ≤ width) (hb : b.width ≤ width) :
    Room f (a.toWord width) (b.toWord width) (a.number f) (b.number f) :=
  ⟨(length_toWord ha).trans (length_toWord hb).symm, number_toWord ha, number_toWord hb⟩

namespace Room

variable {x y : List β} {m n : Nat}

theorem length_word_eq (h : Room f x y m n) : (f.word x).length = (f.word y).length := by
  rw [f.length_word, f.length_word, h.length_eq]

theorem number_add (h : Room f x y m n) (hlt : m + n < 2 ^ y.length) :
    f.number (Word.add x y) = m + n := by
  obtain ⟨-, rfl, rfl⟩ := id h
  rw [Valuation.number, f.word_add, Word.value_add h.length_word_eq, f.length_word]
  exact Nat.mod_eq_of_lt hlt

theorem number_mul (h : Room f x y m n) (hlt : m * n < 2 ^ x.length) :
    f.number (Word.mul x y) = m * n := by
  obtain ⟨-, rfl, rfl⟩ := id h
  rw [Valuation.number, f.word_mul, Word.value_mul, f.length_word]
  exact Nat.mod_eq_of_lt hlt

theorem read_ult (h : Room f x y m n) : f.read (Word.ult x y) = decide (m < n) := by
  obtain ⟨-, rfl, rfl⟩ := id h
  rw [f.read_ult, Word.ult_eq h.length_word_eq]
  rfl

theorem read_eq (h : Room f x y m n) : f.read (Word.eq x y) = decide (m = n) := by
  obtain ⟨-, rfl, rfl⟩ := id h
  rw [f.read_eq, Word.eq_eq h.length_word_eq]
  rfl

/-- Where the difference would be negative, every bit is masked. -/
theorem number_truncatedSub (h : Room f x y m n) : f.number (truncatedSub x y) = m - n := by
  have hmask (bits : List β) (c : β) :
      f.word (bits.map fun bit => BitLike.mux c (BitLike.lit false) bit) =
        if f.read c then List.replicate bits.length false else f.word bits := by
    induction bits with
    | nil => simp
    | cons bit bits ih =>
        rw [List.map_cons, f.word_cons, ih, f.read_mux, f.read_lit]
        cases f.read c <;> simp [List.replicate_succ]
  have hult := h.read_ult
  obtain ⟨-, rfl, rfl⟩ := id h
  rw [truncatedSub, Valuation.number, hmask, hult, f.word_sub]
  by_cases hlt : f.number x < f.number y
  · rw [if_pos (decide_eq_true hlt), Word.value_replicate_false, Nat.sub_eq_zero_of_le hlt.le]
  · rw [if_neg (by simpa using hlt), Word.value_sub h.length_word_eq (not_lt.mp hlt)]
    rfl

end Room

theorem stands_toNat {bits : List β} {n : Nat} (h : f.number bits = n) :
    Stands f σ τ (.toNat bits) (.nat n) :=
  .atom rfl rfl (congrArg Value.nat h)

theorem stands_nat (n : Nat) : Stands f σ τ (.nat n) (.nat n) :=
  .atom rfl rfl rfl

/-- Known numbers are computed with alike. -/
theorem matches_knownNatOp (op : NatOp) (m n : Nat) :
    Matches (Stands f σ τ) (knownNatOp op m n) (knownNatOp op m n) := by
  cases op with
  | add | sub | mul => exact .ok (stands_nat _)
  | div | mod =>
      unfold knownNatOp
      dsimp only
      split
      · exact .error_left _ _
      · exact .ok (stands_nat _)
  | eq | lt => exact .ok (Value.stands_bool (f.read_lit _))

/-- Numbers given by words are computed with as the numbers are, if there is room. -/
theorem matches_symbolicNatOp (op : NatOp) {x y : List β} {m n width : Nat}
    (h : Room f x y m n) (hx : x.length = width + headroom op width) (hm : m < 2 ^ width)
    (hn : n < 2 ^ width) :
    Matches (Stands f σ τ) (symbolicNatOp op x y) (knownNatOp op m n) := by
  cases op with
  | add =>
      refine .ok (stands_toNat (h.number_add ?_))
      rw [← h.length_eq, hx]
      change m + n < 2 ^ (width + 1)
      rw [pow_succ]
      omega
  | sub => exact .ok (stands_toNat h.number_truncatedSub)
  | mul =>
      refine .ok (stands_toNat (h.number_mul ?_))
      rw [hx]
      change m * n < 2 ^ (width + width)
      rw [pow_add]
      exact Nat.mul_lt_mul'' hm hn
  | div | mod => exact .error_left _ _
  | eq => exact .ok (Value.stands_bool h.read_eq)
  | lt => exact .ok (Value.stands_bool h.read_ult)

theorem matches_natOp (op : NatOp) (a b : NatArg β) :
    Matches (Stands f σ τ) (natOp op a b)
      (natOp op (.known (a.number f)) (.known (b.number f))) := by
  have hroom (width : Nat) (h : max a.width b.width = width) :
      Room f (a.toWord (width + headroom op width)) (b.toWord (width + headroom op width))
        (a.number f) (b.number f) :=
    room_toWord (by omega) (by omega)
  have hsymbolic : Matches (Stands f σ τ)
      (symbolicNatOp op (a.toWord (max a.width b.width + headroom op (max a.width b.width)))
        (b.toWord (max a.width b.width + headroom op (max a.width b.width))))
      (knownNatOp op (a.number f) (b.number f)) := by
    refine matches_symbolicNatOp op (hroom _ rfl) (length_toWord (by omega)) ?_ ?_
    · exact (number_lt a).trans_le (Nat.pow_le_pow_right (by decide) (le_max_left _ _))
    · exact (number_lt b).trans_le (Nat.pow_le_pow_right (by decide) (le_max_right _ _))
  cases a with
  | symbolic x => exact hsymbolic
  | known m =>
      cases b with
      | symbolic y => exact hsymbolic
      | known n => exact matches_knownNatOp op m n

theorem stands_natSucc (a : NatArg β) :
    Stands f σ τ (natSucc a) (natSucc (.known (a.number f))) := by
  cases a with
  | known n => exact stands_nat _
  | symbolic bits =>
      have hwidth : bits.length ≤ max bits.length 1 + 1 := by omega
      have hone : (1 : Nat) < 2 ^ (max bits.length 1 + 1) := Nat.one_lt_two_pow (by omega)
      have hroom : Room f (Word.zeroExtend bits (max bits.length 1 + 1))
          (Word.ofNat 1 (max bits.length 1 + 1)) (f.number bits) 1 := by
        refine ⟨(Word.length_zeroExtend hwidth).trans (Word.length_ofNat _ _).symm, ?_, ?_⟩
        · rw [Valuation.number, f.word_zeroExtend, Word.value_zeroExtend]
          rfl
        · rw [Valuation.number, f.word_ofNat, Word.value_ofNat, Nat.mod_eq_of_lt hone]
      refine stands_toNat (hroom.number_add ?_)
      have hlt : f.number bits < 2 ^ bits.length := number_lt (.symbolic bits)
      have hle : 2 ^ bits.length ≤ 2 ^ max bits.length 1 :=
        Nat.pow_le_pow_right (by decide) (le_max_left _ _)
      rw [Word.length_ofNat, pow_succ]
      omega

end Numbers

/-! ## Operations on bits and words -/

theorem read_boolOp (f : Valuation β) (op : BoolOp) (a b : β) :
    f.read (boolOp op a b) = boolOp op (f.read a) (f.read b) := by
  cases op with
  | and => exact f.read_and a b
  | or => exact (f.read_or a b).trans (Valuation.known.read_or _ _).symm
  | xor => exact f.read_xor a b
  | eq => exact (f.read_iff a b).trans (Valuation.known.read_iff _ _).symm
  | implies =>
      rw [boolOp, f.read_or, f.read_not]
      exact (Valuation.known.read_or _ _).symm

theorem stands_intOp (op : IntOp) (a b : Int) : Stands f σ τ (intOp op a b) (intOp op a b) := by
  cases op with
  | add | sub | mul => exact .atom rfl rfl rfl
  | eq | le | lt => exact Value.stands_bool (f.read_lit _)

theorem word_wordOp (f : Valuation β) (op : WordOp) (a b : List β) :
    f.word (wordOp op a b) = wordOp op (f.word a) (f.word b) := by
  cases op with
  | add => exact f.word_add a b
  | sub => exact f.word_sub a b
  | mul => exact f.word_mul a b
  | and => exact f.word_and a b
  | or => exact f.word_or a b
  | xor => exact f.word_xor a b

theorem read_wordCmp (f : Valuation β) (op : WordCmp) (a b : List β) :
    f.read (wordCmp op a b) = wordCmp op (f.word a) (f.word b) := by
  cases op with
  | eq => exact f.read_eq a b
  | ult => exact f.read_ult a b
  | ule => exact (f.read_not _).trans (congrArg Bool.not (f.read_ult b a))
  | ugt => exact f.read_ult b a
  | uge => exact (f.read_not _).trans (congrArg Bool.not (f.read_ult a b))
  | slt => exact f.read_slt a b
  | sle => exact (f.read_not _).trans (congrArg Bool.not (f.read_slt b a))

theorem matches_wordDivision (part : Division) (a b : List β) :
    Matches (Stands f σ τ) (wordDivision part a b)
      (wordDivision part (f.word a) (f.word b)) := by
  unfold wordDivision
  split
  · next x y hx hy =>
      rw [Word.toNat?_eq_value, Word.toNat?_eq_value]
      refine .ok (Value.stands_word ?_)
      rw [f.word_ofNat, f.length_word, ← f.number_of_toNat? hx, ← f.number_of_toNat? hy]
      rfl
  · exact .error_left _ _

theorem stands_wordShift (kind : Word.ShiftKind) (x : List β) (amount : NatArg β) :
    Stands f σ τ (wordShift kind x amount)
      (wordShift kind (f.word x) (.known (amount.number f))) := by
  cases amount with
  | known n => exact Value.stands_word (f.word_shift kind x n)
  | symbolic bits =>
      refine Value.stands_word ?_
      rw [f.word_shiftBy, Word.shiftBy_eq]
      rfl

theorem stands_bvToNat (bits : List β) : Stands f σ τ (bvToNat bits) (bvToNat (f.word bits)) := by
  rw [bvToNat, bvToNat, Word.toNat?_eq_value]
  split
  · next n hn =>
      rw [← f.number_of_toNat? hn]
      exact stands_nat _
  · exact stands_toNat rfl

theorem matches_bvNat {width x : Value β} {width' x' : Value Bool}
    (hwidth : Stands f σ τ width width') (hx : Stands f σ τ x x') :
    Matches (Stands f σ τ) (bvNat width x) (bvNat width' x') := by
  refine (matches_natArg "bvNat" hwidth).bind fun a b hab => ?_
  cases a with
  | symbolic bits => exact .error_left _ _
  | known n =>
      obtain rfl : b = .known n := hab
      change Matches _ (if n < lengthLimit then _ else _) (if n < lengthLimit then _ else _)
      split
      swap
      · exact .error_left _ _
      refine (matches_natArg "bvNat" hx).bind fun a b hab => ?_
      subst hab
      cases a with
      | known m => exact .ok (Value.stands_word (f.word_ofNat m n))
      | symbolic bits =>
          refine .ok (Value.stands_word ?_)
          -- The low bits of a word denote the number of the word up to the width.
          rw [f.word_drop, f.word_zeroExtend]
          refine Word.eq_of_value_eq ?_ ?_
          · simp [Word.zeroExtend]
            omega
          · rw [Word.value_drop, Word.value_zeroExtend, Word.value_ofNat]
            congr 2
            simp [Word.zeroExtend]
            omega

/-! ## Vectors -/

/-- Elements are bits on both sides or on neither. -/
theorem asBit?_eq {v : Value β} {w : Value Bool} (h : Stands f σ τ v w) :
    w.asBit? = v.asBit?.map f.read := by
  cases h with
  | atom hv hw hread =>
      cases v with
      | bool b => rw [Stands.of_bool (σ := σ) (τ := τ) (.atom hv hw hread)]; rfl
      | word _ | int _ | nat _ | toNat _ | unit | type | string _ =>
          cases w <;> first | rfl | cases hread
      | _ => cases hv
  | funMux kind _ =>
      cases w <;> cases kind <;> rfl
  | _ => rfl

theorem stands_ofElems {as : List (Value β)} {bs : List (Value Bool)}
    (h : List.Forall₂ (Stands f σ τ) as bs) :
    Stands f σ τ (.ofElems as) (.ofElems bs) := by
  have hbits : bs.mapM Value.asBit? = (as.mapM Value.asBit?).map f.word := by
    induction h with
    | nil => rfl
    | @cons a _ as _ hab _ ih =>
        rw [List.mapM_cons, List.mapM_cons, asBit?_eq hab, ih]
        cases a.asBit? <;> cases as.mapM Value.asBit? <;> rfl
  cases h with
  | nil => exact Value.stands_vector .nil
  | @cons a b as bs hab hrest =>
      simp only [Value.ofElems, hbits]
      cases (a :: as).mapM Value.asBit? with
      | some bits => exact Value.stands_word rfl
      | none => exact Value.stands_vector (.cons hab hrest)

/-- Nothing but a word stands for a word. -/
theorem kind_word {v : Value β} {w : Value Bool} (h : Stands f σ τ v w) (hw : w.kind = .word) :
    v.kind = .word := by
  obtain ⟨bits, rfl⟩ := Value.exists_of_kind_word hw
  cases h with
  | atom hv _ hread => cases v <;> first | rfl | cases hread
  | funMux kind _ => cases kind

theorem matches_append {xs ys : Value β} {xs' ys' : Value Bool} (hx : Stands f σ τ xs xs')
    (hy : Stands f σ τ ys ys') :
    Matches (Stands f σ τ) (append xs ys) (append xs' ys') := by
  by_cases hwords : xs.kind = .word ∧ ys.kind = .word
  · obtain ⟨a, rfl⟩ := Value.exists_of_kind_word hwords.1
    obtain ⟨b, rfl⟩ := Value.exists_of_kind_word hwords.2
    obtain rfl := hx.of_word
    obtain rfl := hy.of_word
    exact .ok (Value.stands_word (f.word_append a b))
  have hwords' : ¬(xs'.kind = .word ∧ ys'.kind = .word) :=
    fun h => hwords ⟨kind_word hx h.1, kind_word hy h.2⟩
  rw [append_of_not_word (not_and_or.mp hwords), append_of_not_word (not_and_or.mp hwords')]
  refine (matches_elemsArg "append" hx).bind fun as as' has => ?_
  refine (matches_elemsArg "append" hy).bind fun bs bs' hbs => ?_
  exact .ok (stands_ofElems (List.rel_append has hbs))

/-! ## Elements at symbolic indices -/

section Select

open Value (Picks picks_pure picks_mux)

variable [DecidableEq β] {index : List β}

/-- The chain of merges for elements from position `k` on. -/
def chain (index : List β) (elems : List (Value β)) (k : Nat) (last : Value β) :
    Merge β (Value β) :=
  (elems.zipIdx k).foldrM
    (fun p rest => Value.mux (Word.eq index (Word.ofNat p.2 index.length)) p.1 rest) last

omit [DecidableEq β] in
theorem number_lt_of_length (f : Valuation β) (bits : List β) :
    f.number bits < 2 ^ bits.length :=
  number_lt (.symbolic bits)

omit [DecidableEq β] in
theorem read_eq_ofNat {k : Nat} (hk : k < 2 ^ index.length) :
    f.read (Word.eq index (Word.ofNat k index.length)) = decide (f.number index = k) := by
  have hroom : Room f index (Word.ofNat k index.length) (f.number index) k := by
    refine ⟨(Word.length_ofNat _ _).symm, rfl, ?_⟩
    rw [Valuation.number, f.word_ofNat, Word.value_ofNat, Nat.mod_eq_of_lt hk]
  exact hroom.read_eq

/-- A chain picks some value, and it is known which if the index is not before its start. -/
theorem exists_picks_chain (elems : List (Value β)) (k : Nat) (last : Value β) :
    ∃ v, Picks (fun σ => Stands f σ τ) (chain index elems k last) v ∧
      (k ≤ f.number index → v = elems.getD (f.number index - k) last) := by
  induction elems generalizing k with
  | nil => exact ⟨last, picks_pure last, fun _ => rfl⟩
  | cons a as ih =>
      obtain ⟨v, hpicks, hv⟩ := ih (k + 1)
      refine ⟨if f.read (Word.eq index (Word.ofNat k index.length)) then a else v, ?_, ?_⟩
      · intro h r h₂ hrun
        rw [chain, List.zipIdx_cons, List.foldrM_cons] at hrun
        obtain ⟨rest, h₁, hrun₁, hrun₂⟩ := Value.run_bind_eq_ok hrun
        obtain ⟨hadds₁, hpick₁⟩ := hpicks h rest h₁ hrun₁
        obtain ⟨hadds₂, hpick₂⟩ := picks_mux (f := f) (τ := τ) _ a rest h₁ r h₂ hrun₂
        refine ⟨hadds₁.trans hadds₂, fun w hw => hpick₂ w ?_⟩
        dsimp only
        split
        · next hhit =>
            rw [if_pos hhit] at hw
            exact hw.mono (hadds₁.sources_le .all) (.refl _)
        · next hmiss =>
            rw [if_neg hmiss] at hw
            exact hpick₁ w hw
      · intro hk
        rw [read_eq_ofNat (hk.trans_lt (number_lt_of_length f index))]
        by_cases heq : f.number index = k
        · rw [if_pos (decide_eq_true heq), heq, Nat.sub_self]
          rfl
        · rw [if_neg (by simpa using heq), hv (by omega),
            show f.number index - k = f.number index - (k + 1) + 1 by omega]
          rfl

omit [BitLike β] [DecidableEq β] in
/-- An index finds what it denotes among the elements that it can reach. -/
theorem reachable_getElem? (elems : List (Value β)) {n : Nat} (hn : n < 2 ^ index.length) :
    (if index.length < 64 then elems.take (1 <<< index.length) else elems)[n]? = elems[n]? := by
  split
  · rw [List.getElem?_take_of_lt (by rwa [Nat.one_shiftLeft])]
  · rfl

/-- What selection gives at a position: the element there, or past the end the zero value of
the shape of the first element. -/
def Selected (elems : List (Value β)) (n : Nat) (v : Value β) : Prop :=
  elems[n]? = some v ∨
    elems.length ≤ n ∧ ∃ first, elems.head? = some first ∧ first.defaultLike = .ok v

omit [DecidableEq β] in
theorem Selected.eq_of_getElem? {elems : List (Value β)} {n : Nat} {v w : Value β}
    (h : Selected elems n v) (hw : elems[n]? = some w) : v = w := by
  rcases h with hv | ⟨hle, -⟩
  · rw [hv] at hw
    exact Option.some_inj.mp hw
  · rw [List.getElem?_eq_none hle] at hw
    cases hw

omit [DecidableEq β] in
theorem Selected.zero_of_length_le {elems : List (Value β)} {n : Nat} {v : Value β}
    (h : Selected elems n v) (hle : elems.length ≤ n) :
    ∃ first, elems.head? = some first ∧ first.defaultLike = .ok v := by
  rcases h with hv | ⟨-, hzero⟩
  · rw [List.getElem?_eq_none hle] at hv
    cases hv
  · exact hzero

omit [BitLike β] [DecidableEq β] in
/-- The last element is the one that is met when all others have been passed. -/
theorem getElem?_eq_dropLast_getD {as : List (Value β)} {last : Value β} {n : Nat}
    (hlast : as.getLast? = some last) (hn : n < as.length) :
    as[n]? = some (as.dropLast.getD n last) := by
  have hlength : as.dropLast.length = as.length - 1 := List.length_dropLast
  rw [List.getD_eq_getElem?_getD]
  conv_lhs => rw [← List.dropLast_append_getLast? last hlast]
  by_cases hlt : n < as.dropLast.length
  · rw [List.getElem?_append_left hlt, List.getElem?_eq_getElem hlt, Option.getD_some]
  · have hzero : n - as.dropLast.length = 0 := by omega
    have hnone : as.dropLast[n]? = none := List.getElem?_eq_none (by omega)
    rw [List.getElem?_append_right (by omega), hzero, hnone]
    rfl

/-- Selection is a chain of merges.  The last value of the chain counts as an element where
every position has one, and it is the zero value where the index can point past the end. -/
theorem select_chain {elems : List (Value β)} {h h₁ : Heap β} {r : Value β}
    (hrun : (select elems index).run h = .ok (r, h₁)) :
    ∃ as last, (chain index as 0 last).run h = .ok (r, h₁) ∧
      ∀ n < 2 ^ index.length, Selected elems n (as.getD n last) := by
  unfold select at hrun
  have hreach (n : Nat) (hn : n < 2 ^ index.length) := reachable_getElem? elems hn
  generalize (if index.length < 64 then elems.take (1 <<< index.length) else elems) = reach
    at hrun hreach
  dsimp only at hrun
  generalize hcovered : decide (index.length < 64 ∧ reach.length = 1 <<< index.length) = covered
    at hrun
  cases hlast : reach.getLast? with
  | none =>
      rw [List.getLast?_eq_none_iff] at hlast
      subst hlast
      cases covered <;> cases hrun
  | some last =>
      cases covered with
      | true =>
          rw [hlast] at hrun
          refine ⟨reach.dropLast, last, hrun, fun n hn => Or.inl ?_⟩
          -- Every position has an element.
          have hlength : reach.length = 2 ^ index.length := by
            rw [← Nat.one_shiftLeft]
            exact (of_decide_eq_true hcovered).2
          rw [← hreach n hn, getElem?_eq_dropLast_getD hlast (hlength.symm ▸ hn)]
      | false =>
          obtain ⟨first, rest, rfl⟩ : ∃ first rest, reach = first :: rest := by
            cases reach with
            | nil => cases hlast
            | cons first rest => exact ⟨first, rest, rfl⟩
          obtain ⟨pair, h₂, hrun₁, hrun₂⟩ := Value.run_bind_eq_ok hrun
          cases hzero : first.defaultLike with
          | error e =>
              rw [hzero] at hrun₁
              cases hrun₁
          | ok zero =>
              rw [hzero] at hrun₁
              cases hrun₁
              refine ⟨_, _, hrun₂, fun n hn => ?_⟩
              rw [List.getD_eq_getElem?_getD, hreach n hn]
              cases hv : elems[n]? with
              | some v => exact Or.inl hv
              | none =>
                  have hhead := hreach 0 (Nat.two_pow_pos _)
                  rw [List.getElem?_cons_zero, ← List.head?_eq_getElem?] at hhead
                  exact Or.inr ⟨List.getElem?_eq_none_iff.mp hv, first, hhead.symm, hzero⟩

/-- Selection picks the value at the position that the index denotes; in any case it adds
streams only. -/
theorem picks_select {elems : List (Value β)} {h h₁ : Heap β} {r : Value β}
    (hrun : (select elems index).run h = .ok (r, h₁)) :
    h.Adds h₁ ∧ ∃ v, Selected elems (f.number index) v ∧
      ∀ w, Stands f (h.sources .all) τ v w → Stands f (h₁.sources .all) τ r w := by
  obtain ⟨as, last, hchain, hselected⟩ := select_chain hrun
  obtain ⟨picked, hpicks, hpicked⟩ :=
    exists_picks_chain (f := f) (τ := τ) as 0 last
  obtain ⟨hadds, hpick⟩ := hpicks h r h₁ hchain
  have hat := hpicked (Nat.zero_le _)
  rw [Nat.sub_zero] at hat
  exact ⟨hadds, picked, hat ▸ hselected _ (number_lt_of_length f index), hpick⟩

end Select

end Primitive

end TermGraph
