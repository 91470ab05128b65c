import Mathlib
import TermGraph.Proofs.Bits.Literals
import TermGraph.Proofs.Eval.Memoization
import TermGraph.Proofs.Term.Shift
import TermGraph.Proofs.Translate.Binders

/-!
# Word literals

A word is written as an array of boolean literals, most significant bit first.  The translator
prints it as its width and its number, and the evaluator makes a word of known bits of it.  Both
read the same number, and it is the one that the literal was built from, as far as the width
goes.
-/

namespace TermGraph

variable {s : Store} {id elemType : TermId} {elems : List TermId} {bits : List Bool}

/-- An array of boolean literals, the first bit counting most.  Where there are no bits, its
element type says that it is a word. -/
def Store.IsWordLiteral (s : Store) (id : TermId) (bits : List Bool) : Prop :=
  ∃ elemType elems, s.node id = .array elemType elems ∧ elems.map s.node = bits.map .bool ∧
    (elems ≠ [] ∨ s.asGlobal? elemType = some (.prelude "Bool"))

/-! ## Translating -/

theorem mapM_asBool? (h : elems.map s.node = bits.map .bool) :
    elems.mapM s.asBool? = some bits := by
  induction elems generalizing bits with
  | nil =>
      obtain rfl := List.map_eq_nil_iff.mp h.symm
      rfl
  | cons e elems ih =>
      obtain ⟨b, bits, rfl⟩ : ∃ b bits', bits = b :: bits' :=
        List.exists_cons_of_ne_nil fun hnil => by simp [hnil] at h
      obtain ⟨he, helems⟩ := List.cons.inj h
      have hbit : s.asBool? e = some b := by
        rw [Store.asBool?, he]
      rw [List.mapM_cons, hbit, ih helems]
      rfl

theorem literalBits?_eq (helems : elems.map s.node = bits.map .bool)
    (hword : elems ≠ [] ∨ s.asGlobal? elemType = some (.prelude "Bool")) :
    literalBits? s elemType elems = some bits := by
  rw [literalBits?, mapM_asBool? helems]
  exact if_pos (by simpa using hword)

/-- A word literal is printed as its width and its number. -/
theorem exec_translateNode_of_isWordLiteral (h : s.IsWordLiteral id bits) (cfg : Config)
    (scope : Scope) (e : Emission) :
    (cfg.translateNode s scope id).exec e =
      (.ok (.mkApp (.var cfg.options.bvLiteralCtor) [.nat bits.length, .nat (Word.value bits)]),
        e) := by
  obtain ⟨elemType, elems, hnode, helems, hword⟩ := h
  rw [translateNode_eq, translateStep, hnode]
  dsimp only
  rw [translateArray, literalBits?_eq helems hword]
  rfl

/-! ## Evaluating -/

section Evaluating

variable {β : Type}

/-- Bits make a word, unless there are none. -/
theorem Value.ofElems_map_bool {bits : List β} (h : bits ≠ []) :
    ofElems (bits.map .bool) = .word bits := by
  have hbits (bits : List β) : (bits.map Value.bool).mapM asBit? = some bits := by
    induction bits with
    | nil => rfl
    | cons b bits ih =>
        rw [List.map_cons, List.mapM_cons, ih]
        rfl
  obtain ⟨b, rest, rfl⟩ := List.exists_cons_of_ne_nil h
  specialize hbits (b :: rest)
  rw [List.map_cons] at hbits ⊢
  simp only [ofElems, hbits]

variable [BitLike β] [DecidableEq β] {ev : Evaluator β}

/-- Literals are never shared, so their values are not kept. -/
theorem exec_eval_bool {b : Bool} (hnode : s.node id = .bool b)
    (hshared : ∀ p, ev.shared.contains p = true → s.isMemoizable p = true) (fuel : Nat)
    (env : Env β) :
    (Evaluator.eval s (fuel + 1) id env).exec ev = (.ok (.bool (BitLike.lit b)), ev) := by
  have htrivial : s.isMemoizable id = false := by
    rw [Store.isMemoizable, hnode]
    rfl
  have hnot : ev.shared.contains id = false :=
    Bool.eq_false_iff.mpr fun hid => by simp [hshared id hid] at htrivial
  rw [exec_eval_of_not_shared fuel env hnot, evalNode, hnode]
  rfl

theorem exec_mapM_bool (helems : elems.map s.node = bits.map .bool)
    (hshared : ∀ p, ev.shared.contains p = true → s.isMemoizable p = true) (fuel : Nat)
    (env : Env β) :
    (elems.mapM fun e => (Evaluator.calls s (fuel + 1)).eval e env).exec ev =
      (.ok ((Word.literal bits : List β).map .bool), ev) := by
  induction elems generalizing bits with
  | nil =>
      obtain rfl := List.map_eq_nil_iff.mp helems.symm
      rfl
  | cons e elems ih =>
      obtain ⟨b, bits, rfl⟩ : ∃ b bits', bits = b :: bits' :=
        List.exists_cons_of_ne_nil fun hnil => by simp [hnil] at helems
      obtain ⟨he, helems⟩ := List.cons.inj helems
      have hbit : ((Evaluator.calls s (fuel + 1)).eval e env).exec ev = _ :=
        exec_eval_bool he hshared fuel env
      rw [List.mapM_cons, EvalM.exec_bind_ok hbit, EvalM.exec_bind_ok (ih helems)]
      rfl

/-- A word literal is the word of its bits, within every evaluation. -/
theorem exec_evalNode_of_isWordLiteral (h : s.IsWordLiteral id bits)
    (hshared : ∀ p, ev.shared.contains p = true → s.isMemoizable p = true) (fuel : Nat)
    (env : Env β) :
    (evalNode s (Evaluator.calls s (fuel + 1)) id env).exec ev =
      (.ok (.word (Word.literal bits)), ev) := by
  obtain ⟨elemType, elems, hnode, helems, hword⟩ := h
  have hvalue : arrayValue s elemType ((Word.literal bits : List β).map .bool) =
      .word (Word.literal bits) := by
    cases bits with
    | nil =>
        obtain rfl := List.map_eq_nil_iff.mp helems
        exact if_pos (by simpa [Word.literal] using hword)
    | cons b bits =>
        rw [arrayValue, if_neg (by simp [Word.literal])]
        exact Value.ofElems_map_bool (by simp [Word.literal])
  rw [evalNode, hnode]
  dsimp only
  rw [EvalM.exec_bind_ok (exec_mapM_bool helems hshared fuel env), hvalue]
  rfl

/-- An evaluation of a word literal gives the word. -/
theorem exec_evaluate_of_isWordLiteral (h : s.IsWordLiteral id bits) (fuel : Nat)
    (ev : Evaluator β) :
    ∃ ev', (Evaluator.evaluate s (fuel + 2) id).exec ev =
      (.ok (.word (Word.literal bits)), ev') := by
  have hshared (p : TermId)
      (hp : (ev.startPass (s.sharedTerms id s.isMemoizable)).shared.contains p = true) :
      s.isMemoizable p = true := isMemoizable_of_shared hp
  have hnode := exec_evalNode_of_isWordLiteral h hshared fuel []
  rw [exec_evaluate_eq, Evaluator.eval, evalStep, EvalM.exec_bind_ok (EvalM.exec_get _)]
  split
  · -- Nothing is kept when an evaluation starts.
    rw [show (ev.startPass _).memo[id]? = none from Std.HashMap.getElem?_empty]
    exact ⟨_, EvalM.exec_bind_ok hnode _⟩
  · exact ⟨_, hnode⟩

end Evaluating

/-! ## Building -/

/-- Only the low bits of a number are built, and no more than a machine word has. -/
theorem Build.literalBits_eq (width value : Nat) :
    literalBits width value = Word.ofNat (value % 2 ^ 64) width := by
  refine List.map_congr_left fun bit _ => ?_
  exact (Nat.testBit_mod_two_pow value 64 bit).symm

theorem Build.makes_wordLit (s : Store) (width value : Nat) :
    Makes s (wordLit width value) fun t id => t.IsWordLiteral id (literalBits width value) := by
  refine makes_bind (makes_intern (by simp [Node.children, Node.childrenWithDepth]))
    fun t bool _ hbool => ?_
  have hbits := makes_mapM (s := t) id (fun u c => u.node c) Node.bool
    fun b (_ : b ∈ literalBits width value) =>
      makes_intern (n := .bool b) (by simp [Node.children, Node.childrenWithDepth])
  refine makes_bind hbits fun u ids hu hids => ?_
  refine (makes_intern (n := .array bool ids) fun c hc => ?_).imp fun v id hv hid =>
    ⟨bool, ids, hid.2, (hids v hv).2, .inr ?_⟩
  · simp only [Node.children, Node.childrenWithDepth, List.map_cons, List.map_map,
      Function.comp_def, List.map_id', List.mem_cons] at hc
    rcases hc with rfl | hc
    · exact (hbool u hu).1
    · exact (hids u (.refl u)).1 c (by simpa using hc)
  · rw [Store.asGlobal?, (hbool v (hu.trans hv)).2]

/-! ## Main results -/

/-- The translator and the evaluator read word literals alike.  A word literal is printed as its
width and a number that fits this width, whatever has been emitted and whatever names there are,
and nothing is emitted for it.  It evaluates to the word of known bits that is made of the number
at this width, and the number of this word is known again; so it does on its own and within every
evaluation, which keeps values only where that pays off.

A literal that is built from a number of 64 bits at a width stands for that number modulo the
power of two, whether the width is less than 64 or more. -/
theorem word_literals_agree :
    (∀ (s : Store) (id : TermId) bits, s.IsWordLiteral id bits →
      Word.value bits < 2 ^ bits.length ∧
      (∀ (cfg : Config) scope e, (cfg.translateNode s scope id).exec e =
        (.ok (.mkApp (.var cfg.options.bvLiteralCtor)
          [.nat bits.length, .nat (Word.value bits)]), e)) ∧
      ∀ (β : Type) [BitLike β] [DecidableEq β] [LawfulBits β], ∃ word : List β,
        word = Word.ofNat (Word.value bits) bits.length ∧
        (∀ b ∈ word, (BitLike.asLit? b).isSome) ∧ Word.toNat? word = some (Word.value bits) ∧
        (∀ fuel ev, ∃ ev', (Evaluator.evaluate s (fuel + 2) id).exec ev =
          (.ok (.word word), ev')) ∧
        ∀ (fuel : Nat) env ev, (∀ p, ev.shared.contains p = true → s.isMemoizable p = true) →
          (evalNode s (Evaluator.calls s (fuel + 1)) id env).exec ev = (.ok (.word word), ev)) ∧
    ∀ (s : Store) (width value : Nat), value < 2 ^ 64 → ∃ bits,
      (Build.wordLit width value s).2.IsWordLiteral (Build.wordLit width value s).1 bits ∧
        bits.length = width ∧ Word.value bits = value % 2 ^ width := by
  constructor
  · intro s id bits h
    refine ⟨Word.value_lt bits, exec_translateNode_of_isWordLiteral h, fun β _ _ _ => ?_⟩
    refine ⟨Word.literal bits, (Word.ofNat_value_eq_literal bits).symm, ?_,
      Word.toNat?_literal bits, exec_evaluate_of_isWordLiteral h, fun fuel env ev hshared =>
        exec_evalNode_of_isWordLiteral h hshared fuel env⟩
    exact Word.isSome_asLit?_of_toNat? (Word.toNat?_literal bits)
  · intro s width value hvalue
    refine ⟨Build.literalBits width value, ?_, ?_, ?_⟩
    · exact (Build.makes_wordLit s width value s (.refl s)).2 _ (.refl _)
    · rw [Build.literalBits_eq, Word.length_ofNat]
    · rw [Build.literalBits_eq, Word.value_ofNat, Nat.mod_eq_of_lt hvalue]

/-- Thirteen at a width of two bits is one, which the translator prints and the evaluator gives
as a word of formulas. -/
theorem word_literals_agree_thirteen :
    let s := (Build.wordLit 2 13 .empty).2
    let id := (Build.wordLit 2 13 .empty).1
    13 < 2 ^ 64 ∧ (∃ bits, s.IsWordLiteral id bits ∧ bits.length = 2) ∧
      (∀ (cfg : Config) scope e, (cfg.translateNode s scope id).exec e =
        (.ok (.mkApp (.var cfg.options.bvLiteralCtor) [.nat 2, .nat 1]), e)) ∧
      ∃ ev, (Evaluator.evaluate s 2 id).exec .new =
        (.ok (.word [Anf.zero, Anf.one]), ev) := by
  intro s id
  obtain ⟨hread, hbuilt⟩ := word_literals_agree
  obtain ⟨bits, hbits, hlength, hvalue⟩ := hbuilt .empty 2 13 (by decide)
  obtain ⟨-, hprinted, hword⟩ := hread s id bits hbits
  obtain ⟨word, rfl, -, -, hevaluated, -⟩ := hword Anf
  rw [hlength, hvalue] at hprinted hevaluated
  exact ⟨by decide, ⟨bits, hbits, hlength⟩, hprinted, hevaluated 0 .new⟩

end TermGraph
