import Mathlib
import TermGraph.Proofs.Bits.Canonical
import TermGraph.Proofs.Value.Heap
import TermGraph.Proofs.Value.Mux
import TermGraph.Proofs.Value.Read

/-!
# Merging chooses

Under a valuation, the merge of two values is the one that the condition picks: whatever
stands for that one stands for the merge.  What the other value is does not count, as long
as the two can be merged.
-/

namespace TermGraph

namespace Value

variable {β : Type}

/-- A merge gives what stands for whatever a given result stands for. -/
def Picks {α γ : Type} (R : Sources β → α → γ → Prop) (m : Merge β α) (a : α) : Prop :=
  ∀ h a₁ h₁, m.run h = .ok (a₁, h₁) → h.Adds h₁ ∧
    ∀ b, R (h.sources .all) a b → R (h₁.sources .all) a₁ b

section Rules

variable {α α' γ : Type} {R : Sources β → α → γ → Prop}

theorem picks_pure (a : α) : Picks R (pure a) a := by
  intro h a₁ h₁ hrun
  cases hrun
  exact ⟨.refl h, fun _ hb => hb⟩

theorem picks_throw (e : EvalError) (a : α) : Picks R (throw e) a := by
  intro h a₁ h₁ hrun
  cases hrun

/-- A computation with a state that has succeeded was one after another. -/
theorem run_bind_eq_ok {γ : Type} {m : StateT γ (Except EvalError) α}
    {k : α → StateT γ (Except EvalError) α'} {h h₂ : γ} {a₂ : α'}
    (hrun : (m >>= k).run h = .ok (a₂, h₂)) :
    ∃ a₁ h₁, m.run h = .ok (a₁, h₁) ∧ (k a₁).run h₁ = .ok (a₂, h₂) := by
  rw [StateT.run_bind] at hrun
  cases hm : m.run h with
  | error e => rw [hm] at hrun; cases hrun
  | ok r =>
      rw [hm] at hrun
      exact ⟨r.1, r.2, rfl, hrun⟩

end Rules

variable [BitLike β] {f : Valuation β} {τ : Sources Bool}

/-! ## Numbers -/

theorem lt_two_pow_bitLength (n : Nat) : n < 2 ^ bitLength n := by
  unfold bitLength
  split
  · next h => rw [h]; exact Nat.one_pos
  · exact Nat.lt_log2_self

theorem number_ofNat (f : Valuation β) (n : Nat) : f.number (Word.ofNat n (bitLength n)) = n := by
  rw [Valuation.number, Valuation.word_ofNat, Word.value_ofNat,
    Nat.mod_eq_of_lt (lt_two_pow_bitLength n)]

theorem read_muxNat (f : Valuation β) (c : β) (a b : List β) :
    (muxNat c a b).read f = .nat (if f.read c then f.number a else f.number b) := by
  have ha := Word.length_zeroExtend (le_max_left a.length b.length)
  have hb := Word.length_zeroExtend (le_max_right a.length b.length)
  rw [muxNat, muxBits, read, Valuation.number, f.word_mux (ha.trans hb.symm),
    Valuation.word_zeroExtend, Valuation.word_zeroExtend]
  cases f.read c <;> simp [Valuation.number]

/-! ## The merge of two values -/

variable [DecidableEq β] {c : β} {t e : Value β}

/-- The merge of two atoms is an atom, and no stream is added. -/
theorem picks_atoms (ht : t.isAtom = true) (he : e.isAtom = true) :
    Picks (fun σ => Stands f σ τ) (mergeShapes c t e) (if f.read c then t else e) := by
  -- An atom is known by its reading.
  have hatom {v : Value β} (hv : v.isAtom = true)
      (hread : v.read f = if f.read c then t.read f else e.read f) :
      Picks (fun σ => Stands f σ τ) (pure v) (if f.read c then t else e) := by
    intro h a₁ h₁ hrun
    cases hrun
    refine ⟨.refl h, fun w hw => ?_⟩
    have hpicked : (if f.read c then t else e).isAtom = true := by split <;> assumption
    obtain ⟨hw', hread'⟩ := hw.of_atom hpicked
    refine .atom hv hw' ?_
    rw [hread, ← hread']
    split <;> rfl
  cases t <;> cases ht <;> cases e <;> cases he
  case bool.refl.bool.refl a b =>
    refine hatom rfl ?_
    rw [read, f.read_mux]
    split <;> rfl
  case word.refl.word.refl a b =>
    rw [mergeShapes]
    split
    · next hlength =>
        refine hatom rfl ?_
        rw [read, muxBits, f.word_mux hlength]
        split <;> rfl
    · exact picks_throw _ _
  case toNat.refl.toNat.refl a b =>
    refine hatom rfl ((read_muxNat f c a b).trans ?_)
    split <;> rfl
  case toNat.refl.nat.refl a n =>
    refine hatom rfl ((read_muxNat f c a _).trans ?_)
    rw [number_ofNat]
    split <;> rfl
  case nat.refl.toNat.refl n b =>
    refine hatom rfl ((read_muxNat f c _ b).trans ?_)
    rw [number_ofNat]
    split <;> rfl
  -- No other two atoms are merged.
  all_goals exact picks_throw _ _

omit [DecidableEq β] in
theorem picks_functions (ht : t.kind = .function) (he : e.kind = .function) :
    Picks (fun σ => Stands f σ τ) (pure (.funMux c t e)) (if f.read c then t else e) := by
  intro h a₁ h₁ hrun
  cases hrun
  refine ⟨.refl h, fun w hw => .funMux (hw.kind_function ?_) hw⟩
  split <;> assumption

omit [DecidableEq β] in
theorem picks_streams (i j : StreamId) :
    Picks (fun σ => Stands f σ τ)
      (do let id ← modifyGet (·.alloc (.mux c i j)); return stream id)
      (if f.read c then stream i else stream j) := by
  intro h a₁ h₁ hrun
  cases hrun
  have hadds := h.adds_alloc (.mux c i j)
  refine ⟨hadds, fun w hw => ?_⟩
  rw [← apply_ite Value.stream] at hw
  obtain ⟨k, rfl, -⟩ := hw.of_stream
  exact .streamMux (h.sources_alloc _ (Nat.zero_le _)) (hw.mono (hadds.sources_le .all) (.refl _))

theorem picks_muxList {as : List (Value β)}
    (ih : ∀ a ∈ as, ∀ e, Picks (fun σ => Stands f σ τ) (mux c a e) (if f.read c then a else e)) :
    ∀ {bs : List (Value β)}, as.length = bs.length →
      Picks (fun σ => List.Forall₂ (Stands f σ τ)) (muxList c as bs)
        (if f.read c then as else bs) := by
  induction as with
  | nil =>
      intro bs hlength
      obtain rfl := List.eq_nil_of_length_eq_zero hlength.symm
      rw [muxList_nil, ite_self]
      exact picks_pure _
  | cons a as iha =>
      intro bs hlength
      cases bs with
      | nil => cases hlength
      | cons b bs =>
          obtain ⟨ha, has⟩ := List.forall_mem_cons.mp ih
          intro h vs h₂ hrun
          rw [muxList_cons] at hrun
          obtain ⟨v, h₁, hrun₁, hrun⟩ := run_bind_eq_ok hrun
          obtain ⟨vs, h₂, hrun₂, hrun⟩ := run_bind_eq_ok hrun
          cases hrun
          obtain ⟨hadds₁, hpick₁⟩ := ha b h v h₁ hrun₁
          obtain ⟨hadds₂, hpick₂⟩ := iha has (Nat.succ.inj hlength) h₁ vs h₂ hrun₂
          refine ⟨hadds₁.trans hadds₂, fun ws hws => ?_⟩
          -- The condition picks the first element and the others from the same list.
          rw [← apply_ite₂ List.cons] at hws
          cases hws with
          | cons hw hws =>
              refine .cons ((hpick₁ _ hw).mono (hadds₂.sources_le .all) (.refl _)) (hpick₂ _ ?_)
              exact hws.imp fun _ _ h => h.mono (hadds₁.sources_le .all) (.refl _)

theorem picks_muxFields {fs : List (String × Value β)}
    (ih : ∀ p ∈ fs, ∀ e,
      Picks (fun σ => Stands f σ τ) (mux c p.2 e) (if f.read c then p.2 else e)) :
    ∀ {gs : List (String × Value β)}, fs.map (·.1) = gs.map (·.1) →
      Picks (fun σ => StandsFields f σ τ) (muxFields c fs gs) (if f.read c then fs else gs) := by
  induction fs with
  | nil =>
      intro gs hnames
      obtain rfl := List.map_eq_nil_iff.mp hnames.symm
      rw [muxFields_nil, ite_self]
      exact picks_pure _
  | cons p fs ihp =>
      intro gs hnames
      cases gs with
      | nil => cases hnames
      | cons q gs =>
          obtain ⟨hp, hfs⟩ := List.forall_mem_cons.mp ih
          rw [List.map_cons, List.map_cons, List.cons.injEq] at hnames
          intro h vs h₂ hrun
          rw [muxFields_cons] at hrun
          obtain ⟨v, h₁, hrun₁, hrun⟩ := run_bind_eq_ok hrun
          obtain ⟨vs, h₂, hrun₂, hrun⟩ := run_bind_eq_ok hrun
          cases hrun
          obtain ⟨hadds₁, hpick₁⟩ := hp q.2 h v h₁ hrun₁
          obtain ⟨hadds₂, hpick₂⟩ := ihp hfs hnames.2 h₁ vs h₂ hrun₂
          refine ⟨hadds₁.trans hadds₂, fun ws hws => ?_⟩
          rw [← apply_ite₂ List.cons] at hws
          cases hws with
          | cons hw hws =>
              refine .cons ⟨?_, ?_⟩ (hpick₂ _ ?_)
              · rw [← hw.1]
                split
                · rfl
                · exact hnames.1
              · refine (hpick₁ _ ?_).mono (hadds₂.sources_le .all) (.refl _)
                rw [← apply_ite Prod.snd]
                exact hw.2
              · exact hws.imp fun _ _ h => ⟨h.1, h.2.mono (hadds₁.sources_le .all) (.refl _)⟩

omit [DecidableEq β] in
/-- What is made of a result picks alike, if what stands for it is made of what stands for
the result. -/
theorem Picks.wrap {α γ : Type} {R : Sources β → α → γ → Prop} {m : Merge β α} {a : α}
    {g : α → Value β} (hm : Picks R m a)
    (hg : ∀ σ w, Stands f σ τ (g a) w →
      ∃ b, R σ a b ∧ ∀ σ' a', R σ' a' b → Stands f σ' τ (g a') w) :
    Picks (fun σ => Stands f σ τ) (do return g (← m)) (g a) := by
  intro h v h₁ hrun
  obtain ⟨a₁, h₁, hrun₁, hrun⟩ := run_bind_eq_ok hrun
  cases hrun
  obtain ⟨hadds, hpick⟩ := hm h a₁ h₁ hrun₁
  refine ⟨hadds, fun w hw => ?_⟩
  obtain ⟨b, hb, hmade⟩ := hg _ w hw
  exact hmade _ _ (hpick b hb)

theorem picks_pairs {a b a' b' : Value β}
    (ha : Picks (fun σ => Stands f σ τ) (mux c a a') (if f.read c then a else a'))
    (hb : Picks (fun σ => Stands f σ τ) (mux c b b') (if f.read c then b else b')) :
    Picks (fun σ => Stands f σ τ)
      (do let left ← mux c a a'; return pair left (← mux c b b'))
      (if f.read c then pair a b else pair a' b') := by
  intro h v h₂ hrun
  obtain ⟨left, h₁, hrun₁, hrun⟩ := run_bind_eq_ok hrun
  obtain ⟨right, h₂, hrun₂, hrun⟩ := run_bind_eq_ok hrun
  cases hrun
  obtain ⟨hadds₁, hpick₁⟩ := ha h left h₁ hrun₁
  obtain ⟨hadds₂, hpick₂⟩ := hb h₁ right h₂ hrun₂
  refine ⟨hadds₁.trans hadds₂, fun w hw => ?_⟩
  rw [← apply_ite₂ Value.pair] at hw
  obtain ⟨x, y, rfl, hx, hy⟩ := hw.of_pair
  exact .pair ((hpick₁ x hx).mono (hadds₂.sources_le .all) (.refl _))
    (hpick₂ y (hy.mono (hadds₁.sources_le .all) (.refl _)))

/-- The merge of two values stands for whatever the condition picks. -/
theorem picks_mux (c : β) (t : Value β) : ∀ e : Value β,
    Picks (fun σ => Stands f σ τ) (mux c t e) (if f.read c then t else e) := by
  cases hc : BitLike.asLit? c with
  | some b =>
      intro e
      rw [mux_of_lit hc, f.read_of_asLit hc]
      exact picks_pure _
  | none =>
      -- Equal values are merged to themselves, whatever their shape.
      have hself (t : Value β) (e : Value β) (hne : t.beq e = false →
          Picks (fun σ => Stands f σ τ) (mux c t e) (if f.read c then t else e)) :
          Picks (fun σ => Stands f σ τ) (mux c t e) (if f.read c then t else e) := by
        cases hbeq : t.beq e with
        | true =>
            obtain rfl := eq_of_beq _ _ hbeq
            rw [mux_self, ite_self]
            exact picks_pure _
        | false => exact hne hbeq
      have hthrow {t e : Value β} (hk : t.kind ≠ e.kind)
          (ha : t.isAtom = false ∨ e.isAtom = false) :
          Picks (fun σ => Stands f σ τ) (mux c t e) (if f.read c then t else e) := by
        rw [mux_of_kind_ne hc hk ha]
        exact picks_throw _ _
      have hfunctions {t : Value β} (ht : t.kind = .function) (e : Value β) :
          Picks (fun σ => Stands f σ τ) (mux c t e) (if f.read c then t else e) := by
        by_cases he : e.kind = .function
        · refine hself t e fun hne => ?_
          rw [mux_functions hc hne ht he]
          exact picks_functions ht he
        · refine hthrow (ht ▸ Ne.symm he) (.inl ?_)
          cases t <;> cases ht <;> rfl
      induction t using inductOn with
      | vector as ih =>
          intro e
          by_cases hk : e.kind = .vector
          · obtain ⟨bs, rfl⟩ := exists_of_kind_vector hk
            rw [mux_vectors hc]
            split
            · next hlength =>
                rw [← apply_ite Value.vector]
                refine (picks_muxList ih hlength).wrap fun σ w hw => ?_
                obtain ⟨ws, rfl, hws⟩ := hw.of_vector
                exact ⟨ws, hws, fun _ _ => stands_vector⟩
            · exact picks_throw _ _
          · exact hthrow (Ne.symm hk) (.inl rfl)
      | pair a b iha ihb =>
          intro e
          by_cases hk : e.kind = .pair
          · obtain ⟨a', b', rfl⟩ := exists_of_kind_pair hk
            rw [mux_pairs hc]
            exact picks_pairs (iha a') (ihb b')
          · exact hthrow (Ne.symm hk) (.inl rfl)
      | record fs ih =>
          intro e
          by_cases hk : e.kind = .record
          · obtain ⟨gs, rfl⟩ := exists_of_kind_record hk
            rw [mux_records hc]
            split
            · next hnames =>
                rw [← apply_ite Value.record]
                refine (picks_muxFields ih hnames).wrap fun σ w hw => ?_
                obtain ⟨ws, rfl, hws⟩ := hw.of_record
                exact ⟨ws, hws, fun _ _ => stands_record⟩
            · exact picks_throw _ _
          · exact hthrow (Ne.symm hk) (.inl rfl)
      | ctor i as ih =>
          intro e
          by_cases hk : e.kind = .constructor
          · obtain ⟨j, bs, rfl⟩ := exists_of_kind_constructor hk
            rw [mux_ctors hc]
            split
            · next hsame =>
                obtain ⟨rfl, hlength⟩ := hsame
                rw [← apply_ite (Value.ctor i)]
                refine (picks_muxList ih hlength).wrap fun σ w hw => ?_
                obtain ⟨ws, rfl, hws⟩ := hw.of_ctor
                exact ⟨ws, hws, fun _ _ => stands_ctor⟩
            · exact picks_throw _ _
          · exact hthrow (Ne.symm hk) (.inl rfl)
      | closure lambda env _ => exact hfunctions rfl
      | partialApp prim as _ => exact hfunctions rfl
      | funMux c a b _ _ => exact hfunctions rfl
      | stream i =>
          intro e
          by_cases hk : e.kind = .stream
          · obtain ⟨j, rfl⟩ := exists_of_kind_stream hk
            refine hself _ _ fun hne => ?_
            rw [mux_streams hc hne]
            exact picks_streams i j
          · exact hthrow (Ne.symm hk) (.inl rfl)
      | bool _ | word _ | int _ | nat _ | toNat _ | unit | type | string _ =>
          intro e
          cases he : e.isAtom with
          | true =>
              refine hself _ _ fun hne => ?_
              rw [mux_of_ne hc hne]
              exact picks_atoms rfl he
          | false =>
              refine hthrow (fun hk => ?_) (.inr he)
              rw [← isAtom_eq_of_kind_eq hk] at he
              cases he

/-! ## Data -/

/-- The merge of data is data, and under a valuation it is the value that the condition
picks. -/
theorem read_of_mux {v : Value β} {h h₁ : Heap β} (ht : t.isData = true) (he : e.isData = true)
    (hrun : (mux c t e).run h = .ok (v, h₁)) :
    v.isData = true ∧ v.read f = if f.read c then t.read f else e.read f := by
  have hpicked : (if f.read c then t else e).isData = true := by
    split
    · exact ht
    · exact he
  obtain ⟨-, hpick⟩ := picks_mux (f := f) (τ := Heap.empty.sources .all) c t e h v h₁ hrun
  obtain ⟨hdata, hread⟩ := (hpick _ (stands_read hpicked)).read_eq ((isData_read _).trans hpicked)
  rw [read_read] at hread
  constructor
  · exact hdata
  · rw [hread]
    split <;> rfl

/-- Merging selects.  Under every assignment the merge of two values without functions and
streams is the one that the condition picks.  Equal values merge to themselves, and a
condition with only one value picks without looking at the shapes. -/
theorem mux_selects (c : Anf) (t e : Value Anf) :
    (t.isData = true → e.isData = true → ∀ (h h₁ : Heap Anf) (v : Value Anf),
        (mux c t e).run h = .ok (v, h₁) → v.isData = true ∧ ∀ s : Nat → Bool,
          v.read (Anf.valuation s) =
            if c.eval s then t.read (Anf.valuation s) else e.read (Anf.valuation s)) ∧
      (∀ x : Value Anf, mux c x x = pure x) ∧
      (c.WellFormed → ∀ b, (∀ s, c.eval s = b) → mux c t e = pure (if b then t else e)) := by
  refine ⟨fun ht he h h₁ v hrun => ?_, mux_self c, fun hc b hconst => ?_⟩
  · constructor
    · exact (read_of_mux (f := Anf.valuation fun _ => false) ht he hrun).1
    · intro s
      exact (read_of_mux ht he hrun).2
  · -- A well-formed formula with one value is known to be a constant.
    exact mux_of_lit ((Anf.asConst?_eq_some_iff hc).mpr hconst) t e

/-- A number given by one bit and the number two meet as words of two bits inside a pair. -/
theorem mux_selects_numbers :
    let t : Value Anf := .pair (.toNat [.var 1]) (.word [.var 1, .var 2])
    let e : Value Anf := .pair (.nat 2) (.word [.one, .var 1])
    let v : Value Anf := .pair
      (.toNat [BitLike.mux (.var 0) .zero .one, BitLike.mux (.var 0) (.var 1) .zero])
      (.word [BitLike.mux (.var 0) (.var 1) .one, BitLike.mux (.var 0) (.var 2) (.var 1)])
    t.isData = true ∧ e.isData = true ∧ (mux (.var 0) t e).run .empty = .ok (v, .empty) ∧
      v.read (Anf.valuation fun i => i = 1) = .pair (.nat 2) (.word [true, true]) := by
  intro t e v
  have hrun : (mux (.var 0) t e).run .empty = .ok (v, .empty) := rfl
  refine ⟨rfl, rfl, hrun, ?_⟩
  exact ((mux_selects (.var 0) t e).1 rfl rfl _ _ _ hrun).2 _

end Value

end TermGraph
