import Mathlib
import TermGraph.Proofs.Eval.Independent
import TermGraph.Proofs.Eval.Selection

/-!
# Elements of vectors

A vector is a word when it has elements and all of them are bits, and a list of values
otherwise.  Which of the two it is makes no difference to its elements: a vector that is made of
some elements has exactly these, and so have a generated vector and a concatenation.
-/

namespace TermGraph

open EvalM (Converges)
open Primitive (natArg gen elementAt append lengthLimit)
open Value (Fits)

variable {β : Type}

/-! ## Elements -/

namespace Value

theorem eq_map_bool_of_mapM_asBit? {as : List (Value β)} {bits : List β}
    (h : as.mapM asBit? = some bits) : as = bits.map .bool := by
  induction as generalizing bits with
  | nil =>
      cases h
      rfl
  | cons a as ih =>
      rw [List.mapM_cons] at h
      obtain ⟨bit, hbit, h⟩ := Option.bind_eq_some_iff.mp h
      obtain ⟨rest, hrest, h⟩ := Option.bind_eq_some_iff.mp h
      cases h
      rw [List.map_cons, ih hrest]
      cases a <;> cases hbit
      rfl

/-- A vector that is made of some elements has exactly these. -/
@[simp] theorem elems?_ofElems (as : List (Value β)) : (ofElems as).elems? = some as := by
  cases as with
  | nil => rfl
  | cons a as =>
      simp only [ofElems]
      cases hbits : (a :: as).mapM asBit? with
      | none => rfl
      | some bits => exact congrArg some (eq_map_bool_of_mapM_asBit? hbits).symm

end Value

namespace Primitive

theorem elemsArg_eq_ok {op : String} {v : Value β} {as : List (Value β)} :
    elemsArg op v = .ok as ↔ v.elems? = some as := by
  rw [elemsArg]
  cases v.elems? with
  | none => simp
  | some bs => simp

/-- What a lookup by position gives: the element there, or the error that there is none. -/
def lookup (as : List (Value β)) (index : Nat) : Except Stop (Value β) :=
  match as[index]? with
  | some a => .ok a
  | none => .error (.fault (.indexOutOfBounds index as.length))

section Lookup

variable {as bs : List (Value β)} {index : Nat}

theorem lookup_of_le (h : as.length ≤ index) :
    lookup as index = .error (.fault (.indexOutOfBounds index as.length)) := by
  rw [lookup, List.getElem?_eq_none h]

theorem lookup_append_of_lt (h : index < as.length) :
    lookup (as ++ bs) index = lookup as index := by
  rw [lookup, lookup, List.getElem?_append_left h, List.getElem?_eq_getElem h]

theorem lookup_append_of_le (h : as.length ≤ index) (h' : index < as.length + bs.length) :
    lookup (as ++ bs) index = lookup bs (index - as.length) := by
  have hlt : index - as.length < bs.length := by omega
  rw [lookup, lookup, List.getElem?_append_right h, List.getElem?_eq_getElem hlt]

end Lookup

variable [BitLike β] [DecidableEq β] {ev : Evaluator β}

/-- A known index looks up the element at its position. -/
theorem exec_elementAt {v i : Value β} {as : List (Value β)} {index : Nat}
    (hv : v.elems? = some as) (hi : natArg "at" i = .ok (.known index)) :
    (elementAt v i).exec ev = (lookup as index, ev) := by
  rw [elementAt, elemsArg_eq_ok.mpr hv, hi]
  change (match as[index]? with
    | some v => return v
    | none => EvalM.fail (.indexOutOfBounds index as.length) : EvalM β (Value β)).exec ev = _
  rw [lookup]
  cases as[index]? <;> rfl

/-! ## Concatenation -/

omit [BitLike β] [DecidableEq β] in
/-- The elements of a concatenation are those of its parts. -/
theorem exists_append {xs ys : Value β} {as bs : List (Value β)} (hxs : xs.elems? = some as)
    (hys : ys.elems? = some bs) :
    ∃ v, append xs ys = .ok v ∧ v.elems? = some (as ++ bs) := by
  rw [append.eq_def]
  split
  · next a b =>
      cases hxs
      cases hys
      exact ⟨_, rfl, congrArg some List.map_append⟩
  · rw [elemsArg_eq_ok.mpr hxs, elemsArg_eq_ok.mpr hys]
    exact ⟨_, rfl, Value.elems?_ofElems _⟩

/-! ## Generated vectors -/

omit [BitLike β] [DecidableEq β] in
theorem tabulate_eq_mapM (apply : Value β → Value β → EvalM β (Value β)) (fn : Value β)
    (count start : Nat) :
    tabulate apply fn count start =
      (List.range' start count).mapM fun i => apply fn (.nat i) := by
  induction count generalizing start with
  | zero => rfl
  | succ count ih => rw [tabulate, ih, List.range'_succ, List.mapM_cons]

omit [BitLike β] [DecidableEq β] in
/-- Applications that succeed one after the other give the elements in this order. -/
theorem exec_tabulate {apply : Value β → Value β → EvalM β (Value β)} {fn : Value β}
    {states : Nat → Evaluator β} {results : Nat → Value β} {count : Nat} (start : Nat)
    (h : ∀ i, start ≤ i → i < start + count →
      (apply fn (.nat i)).exec (states i) = (.ok (results i), states (i + 1))) :
    (tabulate apply fn count start).exec (states start) =
      (.ok ((List.range' start count).map results), states (start + count)) := by
  induction count generalizing start with
  | zero => rfl
  | succ count ih =>
      have hrest := ih (start + 1) fun i hi hlt => h i (by omega) (by omega)
      rw [tabulate, EvalM.exec_bind_ok (h start le_rfl (by omega)), EvalM.exec_bind_ok hrest,
        Nat.add_right_comm, List.range'_succ, List.map_cons]
      rfl

variable {calls : Calls β} {n fn : Value β} {count : Nat}

omit [DecidableEq β] in
theorem gen_of_lt (hn : natArg "gen" n = .ok (.known count)) (hlt : count < lengthLimit) :
    gen calls n fn = do return .ofElems (← tabulate calls.apply fn count 0) := by
  have hknown : knownNatArg "gen" n = .ok count := by
    rw [knownNatArg, hn]
    rfl
  rw [gen, hknown]
  exact if_pos hlt

omit [DecidableEq β] in
/-- A length that does not fit a machine word is refused before any application. -/
theorem gen_of_le (hn : natArg "gen" n = .ok (.known count)) (hle : lengthLimit ≤ count) :
    gen calls n fn = EvalM.fail (.unsupported (.length "gen" count)) := by
  have hknown : knownNatArg "gen" n = .ok count := by
    rw [knownNatArg, hn]
    rfl
  rw [gen, hknown]
  exact if_neg (Nat.not_lt.mpr hle)

end Primitive

section Evaluators

variable [BitLike β] [DecidableEq β] {s : Store} {ev₀ ev : Evaluator β} {fn : Value β}
  {count : Nat}

/-- Applications to the first numbers that succeed one by one succeed one after the other, and
each of them gives what it gives on its own. -/
theorem converges_tabulate (h₀ : Coherent s ev₀) (hstretch : Stretch s ev₀ ev₀ ev)
    (hfn : Fits s (ev.heap.sources ev₀.view) fn)
    (hruns : ∀ i < count, ∃ fuel v ev₁,
      (Evaluator.apply s fuel fn (.nat i)).exec ev = (.ok v, ev₁)) :
    ∃ ws ev', Converges (fun fuel => Primitive.tabulate (Evaluator.calls s fuel).apply fn count 0)
        ev (.ok ws, ev') ∧ ws.length = count ∧
      ∀ i w, ws[i]? = some w → ∀ fuel v ev₁,
        (Evaluator.apply s fuel fn (.nat i)).exec ev = (.ok v, ev₁) →
        SameMeaning s ev₀ ev₁ v ev' w := by
  have hat := hstretch.at_keeper h₀
  have hself := similar_of_fits hfn (.refl _)
  obtain ⟨ev_u, -, hu⟩ := exists_denotesAt (s := s)
    (f := fun n i => (Evaluator.calls s n).apply fn (.nat i))
    (g := fun n i => ((ev₀.reference s).calls n).apply fn (.nat i))
    (fun i (_ : i ∈ List.range' 0 count) fuel => (h₀.follows fuel).apply hself (.atom rfl))
    (fun i _ fuel => (h₀.followed fuel).apply hself (.atom rfl)) (hstretch.at_side h₀)
    (fun i hi => ⟨ev, (hruns i (by simpa using hi)).imp fun _ ⟨v, ev₁, hrun⟩ =>
      ⟨v, ev₁, hat, hrun⟩⟩)
  choose! U hU using hu
  obtain ⟨ws, ev', hconv, -, hws⟩ := DenotesAt.mapM hU hat
  rw [Value.forall₂_iff_getElem?] at hws
  simp only [List.length_range'] at hws
  refine ⟨ws, ev', ?_, hws.1.symm, fun i w hw fuel v ev₁ hrun => ?_⟩
  · simpa only [Primitive.tabulate_eq_mapM] using hconv
  · obtain ⟨hlt, -⟩ := List.getElem?_eq_some_iff.mp hw
    have hi : i < count := by omega
    have hrange : (List.range' 0 count)[i]? = some i := by
      rw [List.getElem?_range' hi, Nat.zero_add, Nat.one_mul]
    have huv := (hU i (by simpa using hi)).similar_of_ok
      (fun hle => (calls_approximate s hle).apply fn (.nat i)) hat hrun
    exact huv.symm.trans (hws.2 i i w hrange hw)

/-! ## Main results -/

/-- Vectors have the elements that they are made of, whether they are words or lists of values.

Let the number of elements of a generated vector fit a machine word; a greater number is refused.
If the applications of the function succeed one after the other, looking up a position gives the
result of the function there, and an error past the end.  If they succeed one by one from a state
that an evaluator is in, the vector is generated from this state as well, and its elements are
what the function gives on its own.

A concatenation has the elements of its first part and then those of its second part.  So at each
position it is looked up like the part that has the position, and past the end there is an error
that tells its own length.  It does not matter in which order three vectors are concatenated. -/
theorem vectors_have_elements {n : Value β} {count : Nat}
    (hn : natArg "gen" n = .ok (.known count)) (fn : Value β) :
    (lengthLimit ≤ count → ∀ (calls : Calls β) ev,
      (gen calls n fn).exec ev = (.error (.fault (.unsupported (.length "gen" count))), ev)) ∧
    (count < lengthLimit →
      (∀ (calls : Calls β) (states : Nat → Evaluator β) (results : Nat → Value β),
        (∀ i < count,
          (calls.apply fn (.nat i)).exec (states i) = (.ok (results i), states (i + 1))) →
        ∃ v, (gen calls n fn).exec (states 0) = (.ok v, states count) ∧
          ∀ i index ev, natArg "at" i = .ok (.known index) →
            (index < count → (elementAt v i).exec ev = (.ok (results index), ev)) ∧
            (count ≤ index →
              (elementAt v i).exec ev = (.error (.fault (.indexOutOfBounds index count)), ev))) ∧
      ∀ (s : Store) (ev₀ ev : Evaluator β), Coherent s ev₀ → Stretch s ev₀ ev₀ ev →
        Fits s (ev.heap.sources ev₀.view) fn →
        (∀ i < count, ∃ fuel w ev₁,
          (Evaluator.apply s fuel fn (.nat i)).exec ev = (.ok w, ev₁)) →
        ∃ v ev', Converges (fun fuel => gen (Evaluator.calls s fuel) n fn) ev (.ok v, ev') ∧
          ∀ i index, natArg "at" i = .ok (.known index) →
            (index < count → ∃ w, (elementAt v i).exec ev' = (.ok w, ev') ∧
              ∀ fuel w' ev₁, (Evaluator.apply s fuel fn (.nat index)).exec ev = (.ok w', ev₁) →
                SameMeaning s ev₀ ev₁ w' ev' w) ∧
            (count ≤ index →
              (elementAt v i).exec ev' =
                (.error (.fault (.indexOutOfBounds index count)), ev'))) ∧
    ∀ (xs ys : Value β) as bs, xs.elems? = some as → ys.elems? = some bs →
      ∃ v, append xs ys = .ok v ∧ v.elems? = some (as ++ bs) ∧
        (∀ i index ev, natArg "at" i = .ok (.known index) →
          (index < as.length → (elementAt v i).exec ev = (elementAt xs i).exec ev) ∧
          (as.length ≤ index → index < as.length + bs.length →
            (elementAt v i).exec ev = (elementAt ys (.nat (index - as.length))).exec ev) ∧
          (as.length + bs.length ≤ index →
            (elementAt v i).exec ev =
                (.error (.fault (.indexOutOfBounds index (as.length + bs.length))), ev) ∧
              (elementAt ys (.nat (index - as.length))).exec ev =
                (.error (.fault (.indexOutOfBounds (index - as.length) bs.length)), ev))) ∧
        ∀ zs cs, zs.elems? = some cs → ∃ w left right,
          append ys zs = .ok w ∧ append v zs = .ok left ∧ append xs w = .ok right ∧
            left.elems? = some (as ++ bs ++ cs) ∧ right.elems? = left.elems? := by
  refine ⟨fun hle calls ev => ?_, fun hlt => ⟨fun calls states results h => ?_,
    fun s ev₀ ev h₀ hstretch hfn hruns => ?_⟩, fun xs ys as bs hxs hys => ?_⟩
  · rw [Primitive.gen_of_le hn hle]
    rfl
  · have hrun : (Primitive.tabulate calls.apply fn count 0).exec (states 0) = _ :=
      Primitive.exec_tabulate 0 fun i _ hi => h i (by omega)
    rw [Nat.zero_add] at hrun
    refine ⟨.ofElems ((List.range' 0 count).map results), ?_, fun i index ev hi => ?_⟩
    · rw [Primitive.gen_of_lt hn hlt]
      exact EvalM.exec_bind_ok hrun _
    · rw [Primitive.exec_elementAt (Value.elems?_ofElems _) hi]
      refine ⟨fun hindex => ?_, fun hindex => ?_⟩
      · simp [Primitive.lookup, hindex]
      · rw [Primitive.lookup_of_le (by simpa using hindex), List.length_map, List.length_range']
  · obtain ⟨ws, ev', hconv, hlength, hws⟩ := converges_tabulate h₀ hstretch hfn hruns
    refine ⟨.ofElems ws, ev', ?_, fun i index hi => ?_⟩
    · simp only [Primitive.gen_of_lt hn hlt]
      exact hconv.bind (.of_forall fun _ => rfl)
    · rw [Primitive.exec_elementAt (Value.elems?_ofElems _) hi]
      refine ⟨fun hindex => ?_, fun hindex => ?_⟩
      · have hw : ws[index]? = some ws[index] := List.getElem?_eq_getElem (by omega)
        refine ⟨ws[index], ?_, hws index _ hw⟩
        rw [Primitive.lookup, hw]
      · rw [Primitive.lookup_of_le (by omega), hlength]
  · obtain ⟨v, happend, hv⟩ := Primitive.exists_append hxs hys
    refine ⟨v, happend, hv, fun i index ev hi => ?_, fun zs cs hzs => ?_⟩
    · have hrest : (Primitive.elementAt ys (.nat (index - as.length))).exec ev = _ :=
        Primitive.exec_elementAt hys rfl
      rw [Primitive.exec_elementAt hv hi, Primitive.exec_elementAt hxs hi, hrest]
      refine ⟨fun hindex => ?_, fun hle hindex => ?_, fun hindex => ⟨?_, ?_⟩⟩
      · rw [Primitive.lookup_append_of_lt hindex]
      · rw [Primitive.lookup_append_of_le hle hindex]
      · rw [Primitive.lookup_of_le (by simpa using hindex), List.length_append]
      · rw [Primitive.lookup_of_le (by omega)]
    · obtain ⟨w, hw, hwelems⟩ := Primitive.exists_append hys hzs
      obtain ⟨left, hleft, hleftelems⟩ := Primitive.exists_append hv hzs
      obtain ⟨right, hright, hrightelems⟩ := Primitive.exists_append hxs hwelems
      refine ⟨w, left, right, hw, hleft, hright, hleftelems, ?_⟩
      rw [hrightelems, hleftelems, List.append_assoc]

end Evaluators

theorem exec_apply_addNat (fuel m i : Nat) :
    (Evaluator.apply .empty (fuel + 1) (.partialApp (.prelude "addNat") [.nat m]) (.nat i)).exec
      (.new : Evaluator Anf) = (.ok (.nat (m + i)), .new) := by
  have hrow : Builtin.row? (.prelude "addNat") = some ("addNat", 2, .natOp .add) := by decide
  have hev : (.new : Evaluator Anf).primitives = Evaluator.defaultPrimitives := rfl
  change (callPrimitive (Evaluator.calls .empty fuel) (.prelude "addNat") [.nat m, .nat i]).exec
    .new = _
  rw [exec_callPrimitive hev hrow, if_neg (by simp)]
  rfl

/-- Two numbers, their count being given by known bits, are looked up by number and by bits.  A
bit and a number are concatenated from a word and a list of values. -/
theorem vectors_have_elements_sums :
    let n : Value Anf := .toNat [.one, .zero]
    let fn : Value Anf := .partialApp (.prelude "addNat") [.nat 40]
    natArg "gen" n = .ok (.known 2) ∧ 2 < lengthLimit ∧ Coherent .empty (.new : Evaluator Anf) ∧
      (∃ v, (gen (Evaluator.calls .empty 1) n fn).exec .new = (.ok v, .new) ∧
        (elementAt v (.toNat [.zero, .one])).exec .new = (.ok (.nat 41), .new) ∧
        (elementAt v (.nat 2)).exec .new =
          (.error (.fault (.indexOutOfBounds 2 2)), .new)) ∧
      (∃ v ev, Converges (fun fuel => gen (Evaluator.calls .empty fuel) n fn) .new (.ok v, ev) ∧
        (elementAt v (.nat 0)).exec ev = (.ok (.nat 40), ev)) ∧
      ∃ v, append (.word [.var 0]) (.vector [.nat 7]) = .ok v ∧
        (elementAt v (.nat 1)).exec (.new : Evaluator Anf) = (.ok (.nat 7), .new) := by
  intro n fn
  have hn : natArg "gen" n = .ok (.known 2) := rfl
  have hlt : 2 < lengthLimit := by decide
  have hcoherent : Coherent .empty (.new : Evaluator Anf) := coherent_new .empty
  obtain ⟨-, hgen, happend⟩ := vectors_have_elements hn fn
  obtain ⟨hthreaded, hindependent⟩ := hgen hlt
  refine ⟨hn, hlt, hcoherent, ?_, ?_, ?_⟩
  · obtain ⟨v, hv, helems⟩ := hthreaded (Evaluator.calls .empty 1) (fun _ => .new)
      (fun i => .nat (40 + i)) fun i _ => exec_apply_addNat 0 40 i
    exact ⟨v, hv, (helems (.toNat [.zero, .one]) 1 .new rfl).1 (by decide),
      (helems (.nat 2) 2 .new rfl).2 le_rfl⟩
  · have hfits {σ : Sources Anf} : Fits .empty σ fn :=
      .partialApp fun a ha => by
        rw [List.mem_singleton.mp ha]
        exact .atom rfl
    obtain ⟨v, ev, hconv, helems⟩ := hindependent .empty .new .new hcoherent .refl hfits
      fun i _ => ⟨1, _, _, exec_apply_addNat 0 40 i⟩
    obtain ⟨w, hw, hsame⟩ := (helems (.nat 0) 0 rfl).1 (by decide)
    obtain rfl := (hsame 1 _ _ (exec_apply_addNat 0 40 0)).eq_of_isData rfl
    exact ⟨v, ev, hconv, hw⟩
  · obtain ⟨v, hv, -, hlookup, -⟩ := happend (.word [.var 0]) (.vector [.nat 7]) _ _ rfl rfl
    exact ⟨v, hv, ((hlookup (.nat 1) 1 .new rfl).2.1 (by decide) (by decide)).trans rfl⟩

/-- All applications of an erased type succeed, but a vector whose length does not fit a machine
word is not generated from it.  Past the end of a concatenation, the errors of the concatenation
and of its second part differ. -/
theorem vectors_refuse_length :
    (∀ i, (Evaluator.apply .empty 1 .type (.nat i)).exec (.new : Evaluator Bool) =
      (.ok .type, .new)) ∧
    (gen (Evaluator.calls .empty 1) (.nat lengthLimit) .type).exec (.new : Evaluator Bool) =
      (.error (.fault (.unsupported (.length "gen" lengthLimit))), .new) ∧
    append (.word [true]) (.word [false]) = .ok (.word [true, false]) ∧
    (elementAt (.word [true, false]) (.nat 2)).exec .new =
      (.error (.fault (.indexOutOfBounds 2 2)), .new) ∧
    (elementAt (.word [false]) (.nat 1)).exec .new =
      (.error (.fault (.indexOutOfBounds 1 1)), .new) := by
  refine ⟨fun _ => rfl, ?_, rfl, rfl, rfl⟩
  rw [Primitive.gen_of_le rfl le_rfl]
  rfl

end TermGraph
