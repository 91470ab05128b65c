import Mathlib
import TermGraph.Eval.Primitive
import TermGraph.Proofs.Bits.Canonical
import TermGraph.Proofs.Bits.Valuation
import TermGraph.Proofs.Value.Mux

/-!
# Merging words

Primitives take a word as a value of bits or, when it is empty, as a vector without
elements, for a vector that is made of no elements does not tell their type.  Words of one
width merge bit by bit.  Equal words merge to themselves, which is the same thing, because
formulas are canonical: the choice between a formula and itself is that formula.  The two
forms of the empty word do not merge unless the condition is known.
-/

namespace TermGraph

namespace Primitive

theorem wordArg_eq_ok {β : Type} {op : String} {v : Value β} {x : List β} :
    wordArg op v = .ok x ↔ v = .word x ∨ v = .vector [] ∧ x = [] := by
  constructor
  · intro h
    cases v with
    | word bits => exact .inl (congrArg Value.word (Except.ok.inj h))
    | vector as =>
        cases as with
        | nil => exact .inr ⟨rfl, (Except.ok.inj h).symm⟩
        | cons a as => cases h
    | _ => cases h
  · rintro (rfl | ⟨rfl, rfl⟩) <;> rfl

end Primitive

theorem Anf.mux_self {c a : Anf} (hc : c.WellFormed) (ha : a.WellFormed) :
    BitLike.mux c a a = a := by
  refine eq_of_eval_eq (wellFormed_mux hc ha ha) ha fun s => ?_
  rw [eval_mux, ite_self]

namespace Value

open Primitive (wordArg wordArg_eq_ok)

variable {c : Anf} {t e : Value Anf} {x y : List Anf}

theorem muxBits_self (hc : c.WellFormed) (hx : ∀ a ∈ x, a.WellFormed) : muxBits c x x = x := by
  rw [muxBits, List.zipWith_self]
  exact (List.map_congr_left fun a ha => Anf.mux_self hc (hx a ha)).trans (List.map_id x)

/-- Words of one width merge bit by bit, whether or not the bits are known or equal. -/
theorem mux_word_word (hc : c.WellFormed) (hx : ∀ a ∈ x, a.WellFormed)
    (hlength : x.length = y.length) :
    mux c (word x) (word y) = pure (word (muxBits c x y)) := by
  cases hlit : BitLike.asLit? c with
  | some b =>
      rw [mux_of_lit hlit, muxBits, Word.zipWith_mux_of_lit hlit hlength]
      cases b <;> rfl
  | none =>
      cases hne : (word x).beq (word y) with
      | true =>
          obtain rfl : x = y := word.inj (eq_of_beq _ _ hne)
          rw [Value.mux_self, muxBits_self hc hx]
      | false =>
          rw [mux_of_ne hlit hne]
          exact if_pos hlength

/-- The two forms of the empty word merge by picking one of them, so only when the condition
is known. -/
theorem mux_empty_forms (hkind : t.kind ≠ e.kind) (ht : t = word [] ∨ t = vector [])
    (he : e = word [] ∨ e = vector []) :
    mux c t e = match c.asConst? with
      | some b => pure (if b then t else e)
      | none => throw (shapeMismatch t e) := by
  cases hlit : c.asConst? with
  | some b => exact mux_of_lit hlit t e
  | none =>
      refine mux_of_kind_ne hlit hkind ?_
      rcases ht with rfl | rfl
      · rcases he with rfl | rfl
        · exact absurd rfl hkind
        · exact .inr rfl
      · exact .inl rfl

/-! ## Main results -/

/-- Two values that are words of one width merge to a word of the merged bits, which reads
as the chosen word; but an unknown condition does not merge the two forms of the empty
word. -/
theorem mux_words (op : String) (hc : c.WellFormed) (hx : ∀ a ∈ x, a.WellFormed)
    (ht : wordArg op t = .ok x) (he : wordArg op e = .ok y) (hlength : x.length = y.length) :
    (c.asConst? = none ∧ t.kind ≠ e.kind →
        x = [] ∧ mux c t e = throw (shapeMismatch t e)) ∧
      (¬ (c.asConst? = none ∧ t.kind ≠ e.kind) →
        ∃ v, mux c t e = pure v ∧ wordArg op v = .ok (muxBits c x y)) ∧
      ∀ s, (Anf.valuation s).word (muxBits c x y) =
        if c.eval s then (Anf.valuation s).word x else (Anf.valuation s).word y := by
  have hvalue s := (Anf.valuation s).word_mux hlength c
  by_cases hkind : t.kind = e.kind
  · refine ⟨fun h => absurd hkind h.2, fun _ => ?_, hvalue⟩
    rcases wordArg_eq_ok.mp ht with rfl | ⟨rfl, rfl⟩ <;>
      rcases wordArg_eq_ok.mp he with rfl | ⟨rfl, rfl⟩
    · exact ⟨_, mux_word_word hc hx hlength, rfl⟩
    · cases hkind
    · cases hkind
    · exact ⟨_, mux_self c _, rfl⟩
  · have hempty : x = [] ∧ y = [] := by
      rcases wordArg_eq_ok.mp ht with rfl | ⟨rfl, rfl⟩ <;>
        rcases wordArg_eq_ok.mp he with rfl | ⟨rfl, rfl⟩
      · exact absurd rfl hkind
      · exact ⟨List.eq_nil_of_length_eq_zero hlength, rfl⟩
      · exact ⟨rfl, List.eq_nil_of_length_eq_zero hlength.symm⟩
      · exact absurd rfl hkind
    obtain ⟨rfl, rfl⟩ := hempty
    have hmux := mux_empty_forms (c := c) hkind ((wordArg_eq_ok.mp ht).imp_right And.left)
      ((wordArg_eq_ok.mp he).imp_right And.left)
    cases hlit : c.asConst? with
    | none =>
        rw [hlit] at hmux
        exact ⟨fun _ => ⟨rfl, hmux⟩, fun h => absurd ⟨rfl, hkind⟩ h, hvalue⟩
    | some b =>
        rw [hlit] at hmux
        refine ⟨fun h => absurd h.1 (by simp), fun _ => ⟨_, hmux, ?_⟩, hvalue⟩
        cases b
        · exact he
        · exact ht

/-- A choice between words whose bits are known in places, where the condition holds. -/
theorem mux_words_two_bits :
    (Anf.var 0).WellFormed ∧ (∀ a ∈ [Anf.var 1, Anf.one], a.WellFormed) ∧
      wordArg "bvToNat" (word [Anf.var 1, Anf.one]) = .ok [Anf.var 1, Anf.one] ∧
      wordArg "bvToNat" (word [Anf.zero, Anf.var 0]) = .ok [Anf.zero, Anf.var 0] ∧
      ∃ v, mux (Anf.var 0) (word [Anf.var 1, Anf.one]) (word [Anf.zero, Anf.var 0]) = pure v ∧
        ∃ bits, wordArg "bvToNat" v = .ok bits ∧
          (Anf.valuation fun i => i == 0).word bits = [false, true] := by
  have hbits : ∀ a ∈ [Anf.var 1, Anf.one], a.WellFormed :=
    List.forall_mem_cons.mpr
      ⟨Anf.wellFormed_var 1, List.forall_mem_singleton.mpr Anf.wellFormed_one⟩
  obtain ⟨-, hmerge, hvalue⟩ :=
    mux_words "bvToNat" (t := word [Anf.var 1, Anf.one]) (e := word [Anf.zero, Anf.var 0])
      (Anf.wellFormed_var 0) hbits rfl rfl rfl
  obtain ⟨v, hv, hword⟩ := hmerge fun h => h.2 rfl
  refine ⟨Anf.wellFormed_var 0, hbits, rfl, rfl, v, hv, _, hword, ?_⟩
  rw [hvalue, Anf.eval_var]
  rfl

/-- A vector of no elements and a number of no bits are both the empty word, and an unknown
condition does not merge them. -/
theorem mux_gen_with_bvNat_fails :
    (∀ (calls : Calls Anf) (elem fn : Value Anf),
        Primitive.run calls .gen [.nat 0, elem, fn] = pure (vector [])) ∧
      (∀ calls : Calls Anf, Primitive.run calls .bvNat [.nat 0, .nat 0] = pure (word [])) ∧
      wordArg "bvToNat" (vector [] : Value Anf) = .ok [] ∧
      wordArg "bvToNat" (word [] : Value Anf) = .ok [] ∧
      mux (Anf.var 0) (word []) (vector []) =
        throw (.cannotMerge (.shapes .word (.length 0) .vector (.length 0))) ∧
      ¬ ∃ v, mux (Anf.var 0) (word []) (vector []) = pure v := by
  have hfails : mux (Anf.var 0) (word []) (vector []) =
      throw (.cannotMerge (.shapes .word (.length 0) .vector (.length 0))) :=
    mux_empty_forms (fun h => Kind.noConfusion h) (.inl rfl) (.inr rfl)
  refine ⟨fun _ _ _ => rfl, fun _ => rfl, rfl, rfl, hfails, ?_⟩
  rintro ⟨v, hv⟩
  cases congrFun (hfails.symm.trans hv) .empty

end Value

end TermGraph
