import Mathlib
import TermGraph.Proofs.Bits.Anf
import TermGraph.Proofs.Bits.Word

/-!
# Words of literals

A bit whose value is known is the literal of that value, for known bits and for formulas.  So a
word whose bits are all known is made of literals, and numbers and such words determine each
other: the number of a word has exactly the word for its low bits, and the low bits of a number
denote it modulo the power of two.
-/

namespace TermGraph

/-- Bits of which those with a known value are the literals. -/
class LawfulBits (β : Type) [BitLike β] : Prop where
  asLit?_eq_some_iff : ∀ {a : β} {b : Bool}, BitLike.asLit? a = some b ↔ a = BitLike.lit b

instance : LawfulBits Bool where
  asLit?_eq_some_iff := Option.some_inj

instance : LawfulBits Anf where
  asLit?_eq_some_iff := Anf.asConst?_eq_some

namespace Word

variable {β : Type} [BitLike β]

/-- The word whose bits are known to be the given ones. -/
def literal (bits : List Bool) : List β :=
  bits.map BitLike.lit

@[simp] theorem length_literal (bits : List Bool) : (literal bits : List β).length = bits.length :=
  List.length_map _

theorem literal_ofNat (n width : Nat) :
    literal (ofNat n width) = (ofNat n width : List β) := by
  rw [literal, ofNat, ofNat, List.map_map]
  rfl

/-- The low bits of the number of a word are the word. -/
theorem ofNat_value (bits : List Bool) : (ofNat (value bits) bits.length : List Bool) = bits := by
  refine eq_of_value_eq (length_ofNat _ _) ?_
  rw [value_ofNat, Nat.mod_eq_of_lt (value_lt bits)]

theorem ofNat_value_eq_literal (bits : List Bool) :
    (ofNat (value bits) bits.length : List β) = literal bits := by
  rw [← literal_ofNat, ofNat_value]

variable [LawfulBits β]

theorem asLit?_lit (b : Bool) : BitLike.asLit? (BitLike.lit b : β) = some b :=
  LawfulBits.asLit?_eq_some_iff.mpr rfl

/-- Known bits make a literal word. -/
theorem exists_eq_literal {bits : List β} (h : ∀ b ∈ bits, (BitLike.asLit? b).isSome) :
    ∃ bs, bits = literal bs := by
  induction bits with
  | nil => exact ⟨[], rfl⟩
  | cons bit bits ih =>
      obtain ⟨hbit, hbits⟩ := List.forall_mem_cons.mp h
      obtain ⟨b, hb⟩ := Option.isSome_iff_exists.mp hbit
      obtain ⟨bs, rfl⟩ := ih hbits
      exact ⟨b :: bs, congrArg (· :: _) (LawfulBits.asLit?_eq_some_iff.mp hb)⟩

theorem toNat?_literal (bits : List Bool) : toNat? (literal bits : List β) = some (value bits) := by
  rw [← toNat?_eq_value, toNat?, toNat?, literal, List.foldlM_map]
  simp only [asLit?_lit]
  rfl

/-- The low bits of a number denote it as far as the width goes. -/
theorem toNat?_ofNat (n width : Nat) :
    toNat? (ofNat n width : List β) = some (n % 2 ^ width) := by
  rw [← literal_ofNat, toNat?_literal, value_ofNat]

omit [LawfulBits β] in
/-- Where a word denotes a known number, all of its bits are known. -/
theorem isSome_asLit?_of_toNat? {bits : List β} {n : Nat} (h : toNat? bits = some n) :
    ∀ b ∈ bits, (BitLike.asLit? b).isSome := by
  have hfold (bits : List β) (m : Nat)
      (h : bits.foldlM (fun n bit => (BitLike.asLit? bit).map fun b => 2 * n + b.toNat) m =
        some n) : ∀ b ∈ bits, (BitLike.asLit? b).isSome := by
    induction bits generalizing m with
    | nil => exact List.forall_mem_nil _
    | cons bit bits ih =>
        rw [List.foldlM_cons] at h
        cases hbit : BitLike.asLit? bit with
        | none => rw [hbit] at h; cases h
        | some b =>
            rw [hbit] at h
            exact List.forall_mem_cons.mpr ⟨by rw [hbit]; rfl, ih _ h⟩
  exact hfold bits 0 h

/-- The number of a word of known bits has that word for its low bits. -/
theorem exists_toNat?_ofNat {bits : List β} (h : ∀ b ∈ bits, (BitLike.asLit? b).isSome) :
    ∃ n, toNat? bits = some n ∧ n < 2 ^ bits.length ∧ ofNat n bits.length = bits := by
  obtain ⟨bs, rfl⟩ := exists_eq_literal h
  refine ⟨value bs, toNat?_literal bs, ?_, ?_⟩
  · rw [length_literal]
    exact value_lt bs
  · rw [length_literal, ofNat_value_eq_literal]

theorem ofNat_of_toNat? {bits : List β} {n : Nat} (h : toNat? bits = some n) :
    ofNat n bits.length = bits := by
  obtain ⟨m, hm, -, hbits⟩ := exists_toNat?_ofNat (isSome_asLit?_of_toNat? h)
  rw [h] at hm
  rwa [← Option.some_inj.mp hm] at hbits

end Word

end TermGraph
