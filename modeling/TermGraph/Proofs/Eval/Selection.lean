import Mathlib
import TermGraph.Proofs.Eval.InForce
import TermGraph.Proofs.Eval.Symbolic

/-!
# Selection by a symbolic index

A symbolic index selects among all the elements that it can reach.  Under an assignment the
result is the element at the position that the index denotes, and past the end of a vector
the zero value of the shape of its first element.  A stream has no end, so all its reachable
elements are computed first; each of them is remembered, and it is the one that the stream
gives for a known index.
-/

namespace TermGraph

/-! ## Zero values -/

namespace Value

mutual

/-- The value of the same shape with all leaves zero or false. -/
def cleared : Value Bool → Value Bool
  | bool _ => bool false
  | word bits => word (List.replicate bits.length false)
  | int _ => int 0
  | nat _ => nat 0
  | toNat bits => toNat (List.replicate bits.length false)
  | vector as => vector (clearedList as)
  | pair a b => pair (cleared a) (cleared b)
  | record fs => record (clearedFields fs)
  | v => v

/-- `cleared` for each element. -/
def clearedList : List (Value Bool) → List (Value Bool)
  | [] => []
  | a :: as => cleared a :: clearedList as

/-- `cleared` for each field. -/
def clearedFields : List (String × Value Bool) → List (String × Value Bool)
  | [] => []
  | (x, a) :: fs => (x, cleared a) :: clearedFields fs

end

variable {β : Type} [BitLike β] {f : Valuation β}

/-- The zero value of the shape of a value is its reading with all leaves cleared. -/
theorem read_defaultLike (v : Value β) :
    ∀ d, v.defaultLike = .ok d → d.read f = (v.read f).cleared := by
  refine of_defaultLike (P := fun v d => d.read f = (v.read f).cleared) ?atom ?vector ?pair
    ?record v
  case atom =>
    intro v d hv hd
    cases v <;> cases hv <;> cases hd
    case bool b => rw [read, f.read_lit, read, cleared]
    case word bits =>
      rw [read, f.word_zeros, read, cleared, f.length_word]
      rfl
    case toNat bits =>
      rw [read, Valuation.number, f.word_zeros, read, cleared]
      exact congrArg Value.nat (Word.value_replicate_false _)
    all_goals rfl
  case vector =>
    intro as ds h
    rw [read, read, cleared]
    refine congrArg vector ?_
    induction h with
    | nil => rfl
    | cons hd _ ih => rw [readList, readList, clearedList, hd, ih]
  case pair =>
    intro a b da db ha hb
    rw [read, read, cleared, ha, hb]
  case record =>
    intro fs ds h
    rw [read, read, cleared]
    refine congrArg record ?_
    induction h with
    | nil => rfl
    | cons hd _ ih => rw [readFields, readFields, clearedFields, hd.1, hd.2, ih]

end Value

/-! ## Selection -/

variable {β : Type} [BitLike β] [DecidableEq β]

namespace Primitive

/-- Under a valuation, a selected value of first-order elements is what stands at the
position that the index denotes. -/
theorem read_select {elems : List (Value β)} {index : List β} {h h₁ : Heap β} {r : Value β}
    (hrun : (select elems index).run h = .ok (r, h₁)) (f : Valuation β) :
    ∃ v, Selected elems (f.number index) v ∧ (v.isData = true → r.read f = v.read f) := by
  obtain ⟨-, v, hv, hpick⟩ := picks_select (f := f) (τ := .none) hrun
  refine ⟨v, hv, fun hdata => ?_⟩
  have hstands := hpick _ (Value.stands_read hdata)
  rw [(hstands.read_eq ((Value.isData_read v).trans hdata)).2, Value.read_read]

/-- The element of a vector at an index given by a word. -/
theorem read_elementAt {v r : Value β} {bits : List β} {ev ev' : Evaluator β}
    (hrun : (elementAt v (.toNat bits)).exec ev = (.ok r, ev')) :
    ∃ elems, v.elems? = some elems ∧ ∀ f : Valuation β,
      ∃ e, Selected elems (f.number bits) e ∧ (e.isData = true → r.read f = e.read f) := by
  rw [elementAt] at hrun
  obtain ⟨elems, ev₁, helems, hrun⟩ := EvalM.exec_bind_eq_ok hrun
  obtain ⟨index, ev₂, hindex, hrun⟩ := EvalM.exec_bind_eq_ok hrun
  have hv : v.elems? = some elems := by
    rw [elemsArg] at helems
    cases hv : v.elems? with
    | none =>
        rw [hv] at helems
        cases helems
    | some as =>
        rw [hv] at helems
        cases helems
        rfl
  refine ⟨elems, hv, fun f => ?_⟩
  -- Known bits make a number; only other indices go through the chain of merges.
  rcases natArg_toNat "at" bits with ⟨n, hn, hnumber⟩ | hn
  · rw [hn] at hindex
    cases hindex
    dsimp only at hrun
    rw [hnumber f]
    cases he : elems[n]? with
    | none =>
        rw [he] at hrun
        cases hrun
    | some e =>
        rw [he] at hrun
        cases hrun
        exact ⟨r, Or.inl he, fun _ => rfl⟩
  · rw [hn] at hindex
    cases hindex
    obtain ⟨heap, hselect, -⟩ := EvalM.exec_ofMerge_eq_ok hrun
    exact read_select hselect f

end Primitive

/-! ## Selection among bits

Values of different shapes do not merge, but bits always do.  So a word, or a stream of
bits, has a bit for every index.
-/

namespace Value

/-- Two bits can always be merged. -/
theorem exists_mux_bool (c a b : β) :
    ∃ d, mux c (.bool a) (.bool b) = pure (.bool d) := by
  rw [mux_eq]
  cases BitLike.asLit? c with
  | some known =>
      cases known
      · exact ⟨b, rfl⟩
      · exact ⟨a, rfl⟩
  | none =>
      dsimp only
      split
      · exact ⟨a, rfl⟩
      · exact ⟨_, rfl⟩

end Value

namespace Primitive

variable {index : List β}

theorem exists_chain_bool (bits : List β) (k : Nat) (last : β) :
    ∃ d, chain index (bits.map .bool) k (.bool last) = pure (.bool d) := by
  induction bits generalizing k with
  | nil => exact ⟨last, rfl⟩
  | cons bit bits ih =>
      obtain ⟨rest, hrest⟩ := ih (k + 1)
      obtain ⟨d, hd⟩ := Value.exists_mux_bool
        (Word.eq index (Word.ofNat k index.length)) bit rest
      refine ⟨d, ?_⟩
      rw [chain] at hrest ⊢
      rw [List.map_cons, List.zipIdx_cons, List.foldrM_cons, hrest, pure_bind, hd]

/-- Selection from the bits of a word succeeds whatever the index. -/
theorem exists_select_bool {bits : List β} (hne : bits ≠ []) (index : List β) :
    ∃ d, select (bits.map .bool) index = pure (.bool d) := by
  -- Whatever the width of the index, the first bit is within reach.
  obtain ⟨bit, reach, hreach⟩ : ∃ bit reach, (if index.length < 64 then
      (bits.map Value.bool).take (1 <<< index.length) else bits.map Value.bool) =
        (bit :: reach).map Value.bool := by
    obtain ⟨bit, rest, rfl⟩ := List.exists_cons_of_ne_nil hne
    split
    · have hpos : 1 <<< index.length ≠ 0 := by simp
      obtain ⟨m, hm⟩ := Nat.exists_eq_succ_of_ne_zero hpos
      exact ⟨bit, rest.take m, by rw [hm, ← List.map_take, List.take_succ_cons]⟩
    · exact ⟨bit, rest, rfl⟩
  obtain ⟨last, hlast⟩ : ∃ last, (bit :: reach).getLast? = some last :=
    ⟨_, List.getLast?_eq_some_getLast (List.cons_ne_nil _ _)⟩
  rw [select, hreach, List.getLast?_map, hlast, ← List.map_dropLast]
  dsimp only
  cases decide (index.length < 64 ∧ ((bit :: reach).map Value.bool).length = 1 <<< index.length)
  · exact exists_chain_bool (bit :: reach) 0 (BitLike.lit false)
  · exact exists_chain_bool (bit :: reach).dropLast 0 last

variable {calls : Calls β} {id : StreamId} {P : Evaluator β → Prop} {ev : Evaluator β}

omit [BitLike β] [DecidableEq β] in
theorem exists_mapM_bool
    (helement : ∀ n ev, P ev → ∃ b ev', (calls.element id n).exec ev = (.ok (.bool b), ev') ∧ P ev')
    (hev : P ev) (ns : List Nat) :
    ∃ (bits : List β) (ev' : Evaluator β),
      (ns.mapM (calls.element id)).exec ev = (.ok (bits.map .bool), ev') ∧
        bits.length = ns.length ∧ P ev' := by
  induction ns generalizing ev with
  | nil => exact ⟨[], ev, rfl, rfl, hev⟩
  | cons n ns ih =>
      obtain ⟨b, ev₁, hfirst, hev₁⟩ := helement n ev hev
      obtain ⟨bits, ev₂, hrest, hlength, hev₂⟩ := ih hev₁
      refine ⟨b :: bits, ev₂, ?_, congrArg Nat.succ hlength, hev₂⟩
      rw [List.mapM_cons, EvalM.exec_bind_ok hfirst, EvalM.exec_bind_ok hrest]
      rfl

/-- A stream whose elements are bits gives one for every index within bounds. -/
theorem exists_streamGet_bool
    (helement : ∀ n ev, P ev → ∃ b ev', (calls.element id n).exec ev = (.ok (.bool b), ev') ∧ P ev')
    (hev : P ev) {bits : List β} (hbits : bits.length ≤ maxStreamIndexWidth) :
    ∃ b ev', (streamGet calls (.stream id) (.toNat bits)).exec ev = (.ok (.bool b), ev') ∧
      P ev' := by
  have hid : (EvalM.ofExcept (streamArg "streamGet" (.stream id : Value β))).exec ev =
    (.ok id, ev) := rfl
  rw [streamGet, EvalM.exec_bind_ok hid]
  rcases natArg_toNat "streamGet" bits with ⟨n, hn, -⟩ | hn
  · rw [hn]
    exact helement n ev hev
  · obtain ⟨elems, ev', helems, hlength, hev'⟩ :=
      exists_mapM_bool helement hev (List.range (1 <<< bits.length))
    have hne : elems ≠ [] := by
      rintro rfl
      rw [List.length_range, Nat.one_shiftLeft] at hlength
      exact (Nat.two_pow_pos _).ne hlength
    obtain ⟨b, hb⟩ := exists_select_bool hne bits
    refine ⟨b, ev', ?_, hev'⟩
    rw [hn]
    change (if _ then _ else _ : EvalM β (Value β)).exec ev = _
    rw [if_pos hbits, EvalM.exec_bind_ok helems, hb]
    rfl

end Primitive

/-! ## Elements of streams -/

section Streams

variable {s : Store} {fuel : Nat} {id : StreamId} {n : Nat} {v r : Value β}
  {ev ev' : Evaluator β} {bits : List β}

/-- Elements that have been computed one after the other are all remembered in the end. -/
theorem element?_of_exec_mapM {ns : List Nat} {elems : List (Value β)}
    (hrun : (ns.mapM ((Evaluator.calls s fuel).element id)).exec ev = (.ok elems, ev')) :
    ∀ {i n : Nat}, ns[i]? = some n →
      ∃ v, elems[i]? = some v ∧ ev'.heap.element? id n = some v := by
  induction ns generalizing ev elems with
  | nil => simp
  | cons m ns ih =>
      intro i n hn
      rw [List.mapM_cons] at hrun
      obtain ⟨v, ev₁, hfirst, hrun⟩ := EvalM.exec_bind_eq_ok hrun
      obtain ⟨vs, ev₂, hrest, hrun⟩ := EvalM.exec_bind_eq_ok hrun
      cases hrun
      cases i with
      | zero =>
          obtain rfl : m = n := by simpa using hn
          have hgrows : EvalM.Grows (ns.mapM ((Evaluator.calls s fuel).element id)) :=
            .mapM fun n _ => (grow_calls (β := β) s fuel).element id n
          obtain ⟨-, hheap⟩ := hgrows ev₁
          rw [hrest] at hheap
          exact ⟨v, rfl, hheap.element id m v (element?_of_exec_element hfirst)⟩
      | succ i => exact ih hrest (by simpa using hn)

/-- What a stream gives for an index given by a word is, under a valuation, an element that
the stream remembers then. -/
theorem read_streamGet (f : Valuation β)
    (hrun : (Primitive.streamGet (Evaluator.calls s fuel) (.stream id) (.toNat bits)).exec ev =
      (.ok r, ev')) :
    fuel ≠ 0 ∧ ∃ v, ev'.heap.element? id (f.number bits) = some v ∧
      (v.isData = true → r.read f = v.read f) := by
  rw [Primitive.streamGet] at hrun
  obtain ⟨_, ev₁, hid, hrun⟩ := EvalM.exec_bind_eq_ok hrun
  cases hid
  obtain ⟨index, ev₂, hindex, hrun⟩ := EvalM.exec_bind_eq_ok hrun
  rcases Primitive.natArg_toNat "streamGet" bits with ⟨n, hn, hnumber⟩ | hn
  · rw [hn] at hindex
    cases hindex
    rw [hnumber f]
    refine ⟨?_, r, element?_of_exec_element hrun, fun _ => rfl⟩
    rintro rfl
    cases hrun
  · rw [hn] at hindex
    cases hindex
    dsimp only at hrun
    split at hrun
    swap
    · cases hrun
    obtain ⟨elems, ev₃, helems, hrun⟩ := EvalM.exec_bind_eq_ok hrun
    obtain ⟨heap, hselect, rfl⟩ := EvalM.exec_ofMerge_eq_ok hrun
    have hlt : f.number bits < 1 <<< bits.length := by
      rw [Nat.one_shiftLeft]
      exact Primitive.number_lt_of_length f bits
    -- Every element within reach has been computed, the one that is selected among them.
    obtain ⟨v, hv, hkept⟩ := element?_of_exec_mapM helems (List.getElem?_range hlt)
    obtain ⟨picked, hpicked, hread⟩ := Primitive.read_select hselect f
    obtain rfl := hpicked.eq_of_getElem? hv
    refine ⟨?_, picked, (addsOnly_select _ _ _ _ _ hselect).retains.element _ _ _ hkept, hread⟩
    rintro rfl
    obtain ⟨m, hm⟩ := Nat.exists_eq_succ_of_ne_zero (Nat.ne_zero_of_lt hlt)
    rw [hm, List.range_succ_eq_map, List.mapM_cons] at helems
    obtain ⟨_, _, hfirst, -⟩ := EvalM.exec_bind_eq_ok helems
    cases hfirst

/-- While what is kept is sound, an element that has been computed on the way is the one that
the stream gives from the state of before: both are what would be computed anew. -/
theorem converges_element {c : Setting β} {start : StreamId} (hc : c.Plain)
    (hsound : Sound s c start ev) (hfits : Value.Fits s (ev.heap.sources start) (.stream id))
    (hrun : (Primitive.streamGet (Evaluator.calls s fuel) (.stream id) (.toNat bits)).exec ev =
      (.ok r, ev'))
    (hkept : ev'.heap.element? id n = some v) (hdata : v.isData = true) :
    ∃ ev'', EvalM.Converges (fun k => (Evaluator.calls s k).element id n) ev (.ok v, ev'') := by
  have hself := similar_of_fits hfits (sources_le_bareSide (c := c))
  have hat : (keeper s c start).At (ev.heap.sources start) ev := ⟨hsound, .refl _⟩
  have hat' : (bareSide c).At ((bareSide c).sources ev) ev := ⟨hsound.setting_eq, .refl _⟩
  simp only [← Evaluator.callsBy_everything] at hrun ⊢
  -- The state in the end is sound, so the element is what would be computed anew.
  obtain ⟨hlater, -⟩ := (callsBy_follows ⟨true, true⟩ s hc start fuel).streamGet hself
    (.atom rfl) ev ev hat hat' _ _ hrun nofun
  have hdenotes := hlater.holds.elements id n v (Reference.counts_of_similar hself) hkept
  obtain ⟨w, ev₁, ⟨k, hk⟩, -, hvw⟩ :=
    hdenotes _ _ id ev (.refl _) (hself.mono hlater.sources_le (.refl _)) hat'
  obtain rfl := Value.Similar.eq_of_isData v hvw hdata
  -- Keeping what is computed makes no difference.
  obtain ⟨-, r', ev₂, hconv, -, hagree⟩ := (bareCalls_followed ⟨true, true⟩ s hc start k).element
    n hself.symm ev ev hat' hat _ _ (hk k le_rfl) nofun
  cases hagree with
  | ok hww =>
      obtain rfl := Value.Similar.eq_of_isData _ hww hdata
      exact ⟨ev₂, hconv⟩

end Streams

/-! ## The primitives -/

section Calls

variable {ev ev' : Evaluator β} {calls : Calls β}

theorem exec_at (hev : ev.primitives = Evaluator.defaultPrimitives) (length ty v i : Value β) :
    (callPrimitive calls (.prelude "at") [length, ty, v, i]).exec ev =
      (Primitive.elementAt v i).exec ev := by
  have hrow : Builtin.row? (.prelude "at") = some ("at", 4, .index) := by decide
  exact exec_callPrimitive hev hrow calls [length, ty, v, i]

theorem exec_streamGet (hev : ev.primitives = Evaluator.defaultPrimitives)
    (ty stream index : Value β) :
    (callPrimitive calls (.prelude "streamGet") [ty, stream, index]).exec ev =
      (Primitive.streamGet calls stream index).exec ev := by
  have hrow : Builtin.row? (.prelude "streamGet") = some ("streamGet", 3, .streamGet) := by
    decide
  exact exec_callPrimitive hev hrow calls [ty, stream, index]

/-- Reading a stream leaves the primitives as they are. -/
theorem primitives_of_streamGet (hgrow : calls.Grow) {stream index r : Value β}
    (hrun : (Primitive.streamGet calls stream index).exec ev = (.ok r, ev')) :
    ev'.primitives = ev.primitives := by
  obtain ⟨hsetting, -⟩ := hgrow.run .streamGet [.unit, stream, index] ev
  change ((Primitive.streamGet calls stream index).exec ev).2.setting = ev.setting at hsetting
  rw [hrun] at hsetting
  exact congrArg Setting.primitives hsetting

end Calls

/-! ## A stream of bits -/

section Names

theorem row?_ltNat : Builtin.row? (.prelude "ltNat") = some ("ltNat", 2, .natOp .lt) := by
  decide

theorem row?_mkStream : Builtin.row? (.prelude "MkStream") = some ("MkStream", 2, .mkStream) := by
  decide

/-- The names of a comparison and of the constructor of streams. -/
def namesStore : Store :=
  Store.ofNodes [.global (.prelude "ltNat"), .global (.prelude "MkStream")]

variable {prim : Ident} {row : String × Nat × Builtin} {ev : Evaluator Anf}

/-- The value of a name waits for all arguments. -/
theorem evaluate_namesStore (root : TermId) (hnode : namesStore.node root = .global prim)
    (hmemo : namesStore.isMemoizable root = false) (hrow : Builtin.row? prim = some row)
    (hwaits : 0 < row.2.1) (hev : ev.primitives = Evaluator.defaultPrimitives)
    (hnone : ev.overrides = ∅) :
    (Evaluator.evaluate namesStore 1 root).exec ev = (.ok (.partialApp prim []),
      ev.startPass (namesStore.sharedTerms root namesStore.isMemoizable)) := by
  rw [Evaluator.evaluate, EvalM.exec_bind_ok (EvalM.exec_modify _ _),
    exec_eval_of_not_isMemoizable hmemo root 0 [] rfl, evalNode, hnode]
  dsimp only
  let ev' := ev.startPass (namesStore.sharedTerms root namesStore.isMemoizable)
  have hnone' : ev'.overrides[prim]? = none := by simp [ev', Evaluator.startPass, hnone]
  rw [evalGlobal, EvalM.exec_bind_ok (EvalM.exec_get _), hnone']
  have hev' : ev'.primitives = Evaluator.defaultPrimitives := hev
  exact (exec_callPrimitive hev' hrow _ []).trans (if_pos hwaits)

/-- With another argument it still waits for the others. -/
theorem apply_namesStore (hev : ev.primitives = Evaluator.defaultPrimitives)
    (hrow : Builtin.row? prim = some row) (args : List (Value Anf)) (arg : Value Anf)
    (hwaits : (args ++ [arg]).length < row.2.1) :
    (Evaluator.apply namesStore 1 (.partialApp prim args) arg).exec ev =
      (.ok (.partialApp prim (args ++ [arg])), ev) :=
  (exec_callPrimitive hev hrow (Evaluator.calls namesStore 0) (args ++ [arg])).trans
    (if_pos hwaits)

/-- With all arguments the constructor of streams adds a stream. -/
theorem apply_mkStream_namesStore (hev : ev.primitives = Evaluator.defaultPrimitives)
    (ty fn : Value Anf) :
    (Evaluator.apply namesStore 1 (.partialApp (.prelude "MkStream") [ty]) fn).exec ev =
      (.ok (.stream ev.heap.cells.size),
        { ev with heap := (ev.heap.alloc (.generator fn)).2 }) :=
  exec_callPrimitive hev row?_mkStream (Evaluator.calls namesStore 0) [ty, fn]

/-- A stream that tells which numbers are positive, made by evaluation. -/
theorem reached_namesStore :
    ∃ c returned ev, Reached namesStore c returned ev ∧ Value.stream 0 ∈ returned ∧
      ev.primitives = Evaluator.defaultPrimitives (β := Anf) ∧
      ev.heap = ⟨#[⟨.generator (.partialApp (.prelude "ltNat") [.nat 0]), .empty⟩]⟩ := by
  have hlt := (Reached.start (s := namesStore)).evaluate
    (evaluate_namesStore 0 rfl rfl row?_ltNat (by decide) rfl rfl)
    (by simp)
  have hpositive := hlt.apply (.head _) (.inl rfl)
    (apply_namesStore rfl row?_ltNat [] (.nat 0) (by decide)) (by simp)
  have hmake := hpositive.evaluate
    (evaluate_namesStore 1 rfl rfl row?_mkStream (by decide) rfl rfl)
    (by simp)
  have htyped := hmake.apply (.head _) (.inl rfl)
    (apply_namesStore rfl row?_mkStream [] .unit (by decide)) (by simp)
  have hstream := htyped.apply (.head _) (.inr (.tail _ (.tail _ (.head _))))
    (apply_mkStream_namesStore rfl .unit _) (by simp)
  exact ⟨_, _, _, hstream, .head _, rfl, rfl⟩

/-- The first stream tells which numbers are positive. -/
structure Positive (ev : Evaluator Anf) : Prop where
  primitives : ev.primitives = Evaluator.defaultPrimitives
  source : ev.heap.source? 0 = some (.generator (.partialApp (.prelude "ltNat") [.nat 0]))
  element : ∀ n v, ev.heap.element? 0 n = some v → v = .bool (BitLike.lit (decide (0 < n)))

theorem exec_element_positive {s : Store} (n : Nat) {ev : Evaluator Anf} (hev : Positive ev) :
    ∃ ev', ((Evaluator.calls s 2).element 0 n).exec ev =
        (.ok (.bool (BitLike.lit (decide (0 < n)))), ev') ∧ Positive ev' := by
  have hcall : ((Evaluator.calls s 1).apply (.partialApp (.prelude "ltNat") [.nat 0])
      (.nat n)).exec ev = (.ok (.bool (BitLike.lit (decide (0 < n)))), ev) :=
    exec_callPrimitive hev.primitives row?_ltNat (Evaluator.calls s 0) [.nat 0, .nat n]
  change ∃ ev', (elementStep (Evaluator.calls s 1) 0 n).exec ev = _ ∧ _
  cases hn : ev.heap.element? 0 n with
  | some v =>
      obtain rfl := hev.element n v hn
      exact ⟨ev, exec_elementStep_of_element? _ hn, hev⟩
  | none =>
      refine ⟨_, exec_elementStep_of_source hn
        ((exec_sourceElement_of_generator hev.source).trans hcall), hev.primitives, ?_, ?_⟩
      · exact (Heap.source?_remember _ _ _ _ _).trans hev.source
      · intro m v hv
        dsimp only at hv
        rw [Heap.element?_remember] at hv
        split at hv
        · next hm =>
            cases hv
            rw [hm.2.1]
        · exact hev.element m v hv

end Names

/-! ## Exact selection -/

/-- Selection by an index that is given by a word, under an assignment of the input variables.
From a word or vector it gives the element at the position that the index denotes, and past
the end the first element with all leaves cleared.  From a stream it gives the element at
the position: the one that the stream gives for the known index afterwards, and that it would
have given before, if the stream was returned by the evaluator since something was last put
in force. -/
theorem selection_exact {ev : Evaluator Anf} (hev : ev.primitives = Evaluator.defaultPrimitives)
    (index : List Anf) :
    (∀ (calls : Calls Anf) (length ty v r : Value Anf) (ev' : Evaluator Anf),
      (callPrimitive calls (.prelude "at") [length, ty, v, .toNat index]).exec ev =
        (.ok r, ev') →
      ∃ elems, v.elems? = some elems ∧ ∀ a : Nat → Bool,
        let f := Anf.valuation a
        (∀ e, elems[f.number index]? = some e → e.isData = true → r.read f = e.read f) ∧
          (elems.length ≤ f.number index →
            ∃ first, elems.head? = some first ∧ r.read f = (first.read f).cleared)) ∧
      ∀ (s : Store) (fuel : Nat) (ty r : Value Anf) (id : StreamId) (ev' : Evaluator Anf),
        (callPrimitive (Evaluator.calls s fuel) (.prelude "streamGet")
          [ty, .stream id, .toNat index]).exec ev = (.ok r, ev') →
        ∀ a : Nat → Bool,
          let f := Anf.valuation a
          ∃ v, (callPrimitive (Evaluator.calls s fuel) (.prelude "streamGet")
              [ty, .stream id, .nat (f.number index)]).exec ev' = (.ok v, ev') ∧
            (v.isData = true → r.read f = v.read f ∧
              ∀ c returned, Reached s c returned ev → .stream id ∈ returned →
                ∃ ev'', EvalM.Converges (fun n => callPrimitive (Evaluator.calls s n)
                  (.prelude "streamGet") [ty, .stream id, .nat (f.number index)]) ev
                  (.ok v, ev'')) := by
  constructor
  · intro calls length ty v r ev' hrun
    rw [exec_at hev] at hrun
    obtain ⟨elems, helems, hread⟩ := Primitive.read_elementAt hrun
    refine ⟨elems, helems, fun a => ?_⟩
    obtain ⟨e, hselected, hread⟩ := hread (Anf.valuation a)
    constructor
    · intro e' he' hdata
      obtain rfl := hselected.eq_of_getElem? he'
      exact hread hdata
    · intro hle
      obtain ⟨first, hfirst, hzero⟩ := hselected.zero_of_length_le hle
      have hdata := Value.isData_of_defaultLike first e hzero
      exact ⟨first, hfirst, (hread hdata).trans (Value.read_defaultLike first e hzero)⟩
  · intro s fuel ty r id ev' hrun a
    rw [exec_streamGet hev] at hrun
    obtain ⟨hfuel, v, hkept, hread⟩ := read_streamGet (Anf.valuation a) hrun
    obtain ⟨fuel, rfl⟩ := Nat.exists_eq_succ_of_ne_zero hfuel
    have hprims := primitives_of_streamGet (grow_calls s _) hrun
    refine ⟨v, ?_, fun hdata => ⟨hread hdata, fun c returned hreached hmem => ?_⟩⟩
    · rw [exec_streamGet (hprims.trans hev)]
      exact exec_element_of_element? hkept
    · obtain ⟨start, hin⟩ := hreached.inForce
      obtain ⟨ev'', k, hk⟩ := converges_element hreached.plain
        (hin.sound (List.ne_nil_of_mem hmem)) (hin.fits _ hmem) hrun hkept hdata
      refine ⟨ev'', k, fun n hn => ?_⟩
      rw [exec_streamGet hev]
      exact hk n hn

/-- A word of three bits has an element for three of the four numbers that two bits denote.
Whether a number of two bits is positive is read off a stream. -/
theorem selection_exact_short :
    (∃ b, (callPrimitive (Evaluator.calls .empty 0) (.prelude "at")
        [.nat 3, .type, .word [.var 2, .var 3, .var 4], .toNat [.var 0, .var 1]]).exec .new =
          (.ok (.bool b), .new) ∧
      (Value.bool b).read (Anf.valuation fun i => i = 0 || i = 4) = .bool true ∧
      (Value.bool b).read (Anf.valuation fun _ => true) = .bool false) ∧
    ∃ c returned ev ev' b, Reached namesStore c returned ev ∧ .stream 0 ∈ returned ∧
      (callPrimitive (Evaluator.calls namesStore 2) (.prelude "streamGet")
        [.unit, .stream 0, .toNat [.var 0, .var 1]]).exec ev = (.ok (.bool b), ev') ∧
      ∀ a : Nat → Bool,
        let n := (Anf.valuation a).number [.var 0, .var 1]
        (Value.bool b).read (Anf.valuation a) = .bool (decide (0 < n)) ∧
          ∃ ev'', EvalM.Converges (fun k => callPrimitive (Evaluator.calls namesStore k)
            (.prelude "streamGet") [.unit, .stream 0, .nat n]) ev
              (.ok (.bool (BitLike.lit (decide (0 < n)))), ev'') := by
  let index : List Anf := [.var 0, .var 1]
  constructor
  · have hev : (Evaluator.new : Evaluator Anf).primitives = Evaluator.defaultPrimitives := rfl
    obtain ⟨b, hb⟩ := Primitive.exists_select_bool
      (List.cons_ne_nil (.var 2 : Anf) [.var 3, .var 4]) index
    have hrun : (callPrimitive (Evaluator.calls .empty 0) (.prelude "at")
        [.nat 3, .type, .word [.var 2, .var 3, .var 4], .toNat index]).exec .new =
          (.ok (.bool b), .new) := by
      rw [exec_at hev]
      change (EvalM.ofMerge (Primitive.select ([(.var 2 : Anf), .var 3, .var 4].map Value.bool)
        index)).exec .new = _
      rw [hb]
      rfl
    obtain ⟨_, ⟨⟩, hread⟩ := (selection_exact hev index).1 _ _ _ _ _ _ hrun
    obtain ⟨first, ⟨⟩, hpast⟩ := (hread fun _ => true).2 (by decide)
    exact ⟨b, hrun, (hread fun i => i = 0 || i = 4).1 (.bool (.var 4)) rfl rfl, hpast⟩
  · obtain ⟨c, returned, ev, hreached, hmem, hprims, hheap⟩ := reached_namesStore
    have hev : Positive ev := by
      refine ⟨hprims, by rw [hheap]; rfl, ?_⟩
      rw [hheap]
      rintro n v ⟨⟩
    have hwidth : index.length ≤ Primitive.maxStreamIndexWidth := by decide
    obtain ⟨b, ev', hrun, hev'⟩ := Primitive.exists_streamGet_bool
      (fun n ev hev => ⟨_, exec_element_positive (s := namesStore) n hev⟩) hev hwidth
    have hrun : (callPrimitive (Evaluator.calls namesStore 2) (.prelude "streamGet")
        [.unit, .stream 0, .toNat index]).exec ev = (.ok (.bool b), ev') :=
      (exec_streamGet hprims _ _ _).trans hrun
    refine ⟨c, returned, ev, ev', b, hreached, hmem, hrun, fun a => ?_⟩
    obtain ⟨v, hagain, hv⟩ := (selection_exact hprims index).2 _ _ _ _ _ _ hrun a
    -- The element that is remembered in the end is what the comparison gives.
    obtain ⟨ev'', helement, -⟩ := exec_element_positive (s := namesStore)
      ((Anf.valuation a).number index) hev'
    have hv_eq := hagain.symm.trans ((exec_streamGet hev'.primitives _ _ _).trans helement)
    obtain rfl : v = .bool (BitLike.lit (decide (0 < (Anf.valuation a).number index))) :=
      Except.ok.inj (congrArg Prod.fst hv_eq)
    obtain ⟨hread, hbefore⟩ := hv rfl
    refine ⟨hread.trans ?_, hbefore c returned hreached hmem⟩
    rw [Value.read, (Anf.valuation a).read_lit]

end TermGraph
