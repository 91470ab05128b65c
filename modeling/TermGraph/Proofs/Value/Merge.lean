import Mathlib
import TermGraph.Proofs.Value.Heap
import TermGraph.Proofs.Value.Mux

/-!
# Merging similar values

Merging similar values gives similar values, or fails with the same error.  The two merges
need not take the same way: where the values compare as equal on one side only, that side
adds nothing to the value, and the other merges values that stand for the same, which
never fails and gives one that still stands for the same.
-/

namespace TermGraph

variable {β : Type}

/-! ## Comparing computations over values -/

/-- A heap whose streams that are looked into include those of `σ`. -/
structure Heap.Covers (h : Heap β) (view : View) (σ : Sources β) : Prop where
  start_le : view.start ≤ h.cells.size
  sources_le : σ.Le (h.sources view)

theorem Heap.Covers.adds {h h₁ : Heap β} {view : View} {σ : Sources β}
    (hc : h.Covers view σ) (ha : h.Adds h₁) : h₁.Covers view (h₁.sources view) :=
  ⟨hc.start_le.trans ha.size_le, .refl _⟩

/-- Relations between results, which depend on the streams of either side. -/
abbrev Relation (β α α' : Type) : Type :=
  Sources β → Sources β → α → α' → Prop

/-- A relation that new streams do not affect. -/
def Relation.Persistent {α α' : Type} (R : Relation β α α') : Prop :=
  ∀ ⦃σ σ' τ τ' : Sources β⦄ ⦃a : α⦄ ⦃a' : α'⦄, σ.Le σ' → τ.Le τ' → R σ τ a a' → R σ' τ' a a'

theorem Value.persistent_similar (s : Store) : Relation.Persistent (Value.Similar (β := β) s) :=
  fun _ _ _ _ _ _ hσ hτ h => h.mono hσ hτ

/-- One error, or related results and new streams only. -/
inductive Merged {α α' : Type} (k l : View) (h h' : Heap β) (R : Relation β α α') :
    Except EvalError (α × Heap β) → Except EvalError (α' × Heap β) → Prop where
  | error (e : EvalError) : Merged k l h h' R (.error e) (.error e)
  | ok {a : α} {a' : α'} {h₁ h₁' : Heap β} (adds : h.Adds h₁) (adds' : h'.Adds h₁')
      (rel : R (h₁.sources k) (h₁'.sources l) a a') :
      Merged k l h h' R (.ok (a, h₁)) (.ok (a', h₁'))

/-- Two computations over values agree on all heaps that include given streams: the
streams from `k` on count on the left, and those from `l` on on the right. -/
def Merges {α α' : Type} (k l : View) (σ τ : Sources β) (m : Merge β α) (m' : Merge β α')
    (R : Relation β α α') : Prop :=
  ∀ h h' : Heap β, h.Covers k σ → h'.Covers l τ → Merged k l h h' R (m.run h) (m'.run h')

namespace Merges

variable {α α' γ γ' : Type} {k l : View} {σ τ : Sources β} {m : Merge β α} {m' : Merge β α'}
  {R : Relation β α α'} {Q : Relation β γ γ'}

theorem pure {a : α} {a' : α'} (h : ∀ σ₁ τ₁, σ.Le σ₁ → τ.Le τ₁ → R σ₁ τ₁ a a') :
    Merges k l σ τ (Pure.pure a) (Pure.pure a') R :=
  fun _ _ hc hc' => .ok (.refl _) (.refl _) (h _ _ hc.sources_le hc'.sources_le)

theorem throw (e : EvalError) :
    Merges k l σ τ (MonadExcept.throw e) (MonadExcept.throw e) R :=
  fun _ _ _ _ => .error e

theorem bind {f : α → Merge β γ} {f' : α' → Merge β γ'} (hm : Merges k l σ τ m m' R)
    (hf : ∀ σ₁ τ₁ a a', σ.Le σ₁ → τ.Le τ₁ → R σ₁ τ₁ a a' →
      Merges k l σ₁ τ₁ (f a) (f' a') Q) :
    Merges k l σ τ (m >>= f) (m' >>= f') Q := by
  intro h h' hc hc'
  rw [StateT.run_bind, StateT.run_bind]
  have hrun := hm h h' hc hc'
  generalize m.run h = r, m'.run h' = r' at hrun
  cases hrun with
  | error e => exact .error e
  | @ok a a' h₁ h₁' adds adds' rel =>
      have hle := hc.sources_le.trans (adds.sources_le k)
      have hle' := hc'.sources_le.trans (adds'.sources_le l)
      have hnext := hf _ _ a a' hle hle' rel h₁ h₁' (hc.adds adds) (hc'.adds adds')
      change Merged k l h h' Q ((f a).run h₁) ((f' a').run h₁')
      generalize (f a).run h₁ = r, (f' a').run h₁' = r' at hnext
      cases hnext with
      | error e => exact .error e
      | ok adds₂ adds₂' rel₂ => exact .ok (adds.trans adds₂) (adds'.trans adds₂') rel₂

/-- New streams keep computations in agreement. -/
theorem later {σ₁ τ₁ : Sources β} (hm : Merges k l σ τ m m' R) (hσ : σ.Le σ₁) (hτ : τ.Le τ₁) :
    Merges k l σ₁ τ₁ m m' R :=
  fun h h' hc hc' =>
    hm h h' ⟨hc.start_le, hσ.trans hc.sources_le⟩ ⟨hc'.start_le, hτ.trans hc'.sources_le⟩

theorem symm (hm : Merges k l σ τ m m' R) :
    Merges l k τ σ m' m fun τ σ a' a => R σ τ a a' := by
  intro h' h hc' hc
  have hrun := hm h h' hc hc'
  generalize m.run h = r, m'.run h' = r' at hrun
  cases hrun with
  | error e => exact .error e
  | ok adds adds' rel => exact .ok adds' adds rel

/-- Both sides add a stream. -/
theorem alloc (src src' : StreamSource β) :
    Merges k l σ τ (modifyGet (·.alloc src)) (modifyGet (·.alloc src'))
      fun σ τ i j => σ i = some src ∧ τ j = some src' :=
  fun h h' hc hc' => .ok (h.adds_alloc src) (h'.adds_alloc src')
    ⟨h.sources_alloc src hc.start_le, h'.sources_alloc src' hc'.start_le⟩

/-- Only the right side adds a stream. -/
theorem allocRight (a : α) (src : StreamSource β) :
    Merges k l σ τ (Pure.pure a) (modifyGet (·.alloc src))
      fun _ τ b j => b = a ∧ τ j = some src :=
  fun h h' _ hc' => .ok (.refl h) (h'.adds_alloc src) ⟨rfl, h'.sources_alloc src hc'.start_le⟩

/-- Folds from the right over related lists. -/
theorem foldrM {δ δ' : Type} {P : δ → δ' → Prop} {xs : List δ} {xs' : List δ'} {a : α} {a' : α'}
    {f : δ → α → Merge β α} {f' : δ' → α' → Merge β α'} (hR : R.Persistent)
    (hxs : List.Forall₂ P xs xs') (ha : R σ τ a a')
    (hf : ∀ σ₁ τ₁ x x' b b', σ.Le σ₁ → τ.Le τ₁ → P x x' → R σ₁ τ₁ b b' →
      Merges k l σ₁ τ₁ (f x b) (f' x' b') R) :
    Merges k l σ τ (xs.foldrM f a) (xs'.foldrM f' a') R := by
  induction hxs with
  | nil => exact pure fun _ _ hσ hτ => hR hσ hτ ha
  | cons hx _ ih =>
      rw [List.foldrM_cons, List.foldrM_cons]
      exact bind ih fun σ₁ τ₁ b b' hσ hτ hb => hf σ₁ τ₁ _ _ b b' hσ hτ hx hb

end Merges

namespace Value

variable {s : Store} {σ τ : Sources β} {k l : View} {v w : Value β}

theorem Similar.merges (h : Similar s σ τ v w) :
    Merges k l σ τ (pure v) (pure w) (Similar s) :=
  .pure fun _ _ hσ hτ => h.mono hσ hτ

/-- Error messages tell similar values the same size. -/
theorem Similar.extent_eq (h : Similar s σ τ v w) : v.extent = w.extent := by
  cases v with
  | vector as =>
      obtain ⟨bs, rfl, hab⟩ := h.of_vector
      exact congrArg Extent.length hab.length_eq
  | record fs =>
      obtain ⟨gs, rfl, hfg⟩ := h.of_record
      exact congrArg Extent.fields (names_eq_of_forall₂ hfg)
  | bool _ | word _ | int _ | nat _ | toNat _ | unit | type | string _ =>
      rw [h.eq_of_isAtom rfl]
  | _ =>
      have hkind := h.kind_eq
      cases w <;> first | rfl | cases hkind

/-! ## Similar values -/

section Similar

variable [BitLike β] [DecidableEq β] {c : β} {t t' e e' : Value β}

omit [BitLike β] [DecidableEq β] in
theorem Similar.shapeMismatch_eq (ht : Similar s σ τ t t') (he : Similar s σ τ e e') :
    shapeMismatch t e = shapeMismatch t' e' := by
  rw [shapeMismatch, shapeMismatch, ht.kind_eq, ht.extent_eq, he.kind_eq, he.extent_eq]

theorem merges_mux_of_kind_ne (hc : BitLike.asLit? c = none) (ht : Similar s σ τ t t')
    (he : Similar s σ τ e e') (hk : t.kind ≠ e.kind) (ha : t.isAtom = false ∨ e.isAtom = false) :
    Merges k l σ τ (mux c t e) (mux c t' e') (Similar s) := by
  rw [mux_of_kind_ne hc hk ha,
    mux_of_kind_ne hc (ht.kind_eq ▸ he.kind_eq ▸ hk) (ht.isAtom_eq ▸ he.isAtom_eq ▸ ha),
    ht.shapeMismatch_eq he]
  exact .throw _

/-- What is shown of the parts of similar values: they merge with whatever is similar. -/
def MergesLike (s : Store) (k l : View) (σ τ : Sources β) (c : β) (t t' : Value β) : Prop :=
  ∀ e e', Similar s σ τ e e' → Merges k l σ τ (mux c t e) (mux c t' e') (Similar s)

theorem mergesLike_functions (hc : BitLike.asLit? c = none) (ht : Similar s σ τ t t')
    (hkt : t.kind = .function) : MergesLike s k l σ τ c t t' := by
  intro e e' he
  by_cases hke : e.kind = .function
  swap
  · refine merges_mux_of_kind_ne hc ht he (hkt ▸ Ne.symm hke) (.inl ?_)
    cases t <;> first | rfl | cases hkt
  have hkt' := ht.kind_eq ▸ hkt
  have hke' := he.kind_eq ▸ hke
  cases hne : t.beq e with
  | true =>
      obtain rfl := eq_of_beq _ _ hne
      rw [mux_self]
      cases hne' : t'.beq e' with
      | true =>
          rw [mux_of_beq hne']
          exact ht.merges
      | false =>
          rw [mux_functions hc hne' hkt' hke']
          exact (Similar.mergedRight hkt ht he).merges
  | false =>
      rw [mux_functions hc hne hkt hke]
      cases hne' : t'.beq e' with
      | true =>
          obtain rfl := eq_of_beq _ _ hne'
          rw [mux_self]
          exact (Similar.mergedLeft hkt' ht he).merges
      | false =>
          rw [mux_functions hc hne' hkt' hke']
          exact (Similar.funMux ht he).merges

theorem mergesLike_streams {i i' : StreamId} (hc : BitLike.asLit? c = none)
    (hi : Similar s σ τ (.stream i) (.stream i')) :
    MergesLike s k l σ τ c (.stream i) (.stream i') := by
  intro e e' he
  by_cases hke : e.kind = .stream
  swap
  · exact merges_mux_of_kind_ne hc hi he (Ne.symm hke) (.inl rfl)
  obtain ⟨j, rfl⟩ := exists_of_kind_stream hke
  obtain ⟨j', rfl⟩ := he.of_stream
  cases hne : (stream i : Value β).beq (stream j) with
  | true =>
      obtain rfl : i = j := Value.stream.inj (eq_of_beq _ _ hne)
      rw [mux_self]
      cases hne' : (stream i' : Value β).beq (stream j') with
      | true =>
          rw [mux_of_beq hne']
          exact hi.merges
      | false =>
          rw [mux_streams hc hne', ← pure_bind i fun i => pure (stream i)]
          refine .bind (.allocRight i _) fun σ₁ τ₁ a a' hσ hτ => ?_
          rintro ⟨rfl, ha'⟩
          exact (Similar.streamRight ha' (hi.mono hσ hτ) (he.mono hσ hτ)).merges
  | false =>
      rw [mux_streams hc hne]
      cases hne' : (stream i' : Value β).beq (stream j') with
      | true =>
          obtain rfl : i' = j' := Value.stream.inj (eq_of_beq _ _ hne')
          rw [mux_self, ← pure_bind i' fun i => pure (stream i)]
          refine .bind (Merges.allocRight i' _).symm fun σ₁ τ₁ a a' hσ hτ => ?_
          rintro ⟨rfl, ha⟩
          exact (Similar.streamLeft ha (hi.mono hσ hτ) (he.mono hσ hτ)).merges
      | false =>
          rw [mux_streams hc hne']
          refine .bind (.alloc _ _) fun σ₁ τ₁ a a' hσ hτ hadded => ?_
          obtain ⟨ha, ha'⟩ := hadded
          exact (Similar.streamMux ha ha' (hi.mono hσ hτ) (he.mono hσ hτ)).merges

theorem merges_muxList {as as' bs bs' : List (Value β)}
    (has : List.Forall₂ (MergesLike s k l σ τ c) as as')
    (hbs : List.Forall₂ (Similar s σ τ) bs bs') :
    Merges k l σ τ (muxList c as bs) (muxList c as' bs')
      fun σ τ => List.Forall₂ (Similar s σ τ) := by
  induction has generalizing bs bs' with
  | nil =>
      rw [muxList_nil, muxList_nil]
      exact .pure fun _ _ _ _ => .nil
  | cons ha _ ih =>
      cases hbs with
      | nil => exact .pure fun _ _ _ _ => .nil
      | cons hb hbs =>
          rw [muxList_cons, muxList_cons]
          refine .bind (ha _ _ hb) fun σ₁ τ₁ v v' hσ hτ hv => ?_
          refine .bind ((ih hbs).later hσ hτ) fun σ₂ τ₂ vs vs' hσ₂ hτ₂ hvs => ?_
          exact .pure fun _ _ hσ₃ hτ₃ =>
            .cons (hv.mono (hσ₂.trans hσ₃) (hτ₂.trans hτ₃)) (hvs.imp fun _ _ h => h.mono hσ₃ hτ₃)

theorem merges_muxFields {fs fs' gs gs' : List (String × Value β)}
    (hfs : List.Forall₂ (fun f f' => f.1 = f'.1 ∧ MergesLike s k l σ τ c f.2 f'.2) fs fs')
    (hgs : SimilarFields s σ τ gs gs') :
    Merges k l σ τ (muxFields c fs gs) (muxFields c fs' gs')
      fun σ τ => SimilarFields s σ τ := by
  induction hfs generalizing gs gs' with
  | nil =>
      rw [muxFields_nil, muxFields_nil]
      exact .pure fun _ _ _ _ => .nil
  | cons hf _ ih =>
      cases hgs with
      | nil => exact .pure fun _ _ _ _ => .nil
      | cons hg hgs =>
          rw [muxFields_cons, muxFields_cons]
          refine .bind (hf.2 _ _ hg.2) fun σ₁ τ₁ v v' hσ hτ hv => ?_
          refine .bind ((ih hgs).later hσ hτ) fun σ₂ τ₂ vs vs' hσ₂ hτ₂ hvs => ?_
          exact .pure fun _ _ hσ₃ hτ₃ =>
            .cons ⟨hf.1, hv.mono (hσ₂.trans hσ₃) (hτ₂.trans hτ₃)⟩
              (hvs.imp fun _ _ h => ⟨h.1, h.2.mono hσ₃ hτ₃⟩)

/-- Similar values merge alike. -/
theorem Similar.mergesLike (hc : BitLike.asLit? c = none) (ht : Similar s σ τ t t') :
    MergesLike s k l σ τ c t t' := by
  induction ht with
  | @atom t h =>
      intro e e' he
      cases hatom : e.isAtom with
      | true =>
          rw [he.eq_of_isAtom hatom]
          obtain ⟨v, hv, heq⟩ | ⟨err, heq⟩ := mux_atoms c h hatom <;> rw [heq]
          · exact (Similar.atom hv).merges
          · exact .throw err
      | false =>
          refine merges_mux_of_kind_ne hc (.atom h) he (fun hk => ?_) (.inr hatom)
          rw [← isAtom_eq_of_kind_eq hk, h] at hatom
          cases hatom
  | vector length elems ih =>
      intro e e' he
      by_cases hk : e.kind = .vector
      · obtain ⟨es, rfl⟩ := exists_of_kind_vector hk
        obtain ⟨es', rfl, hes⟩ := he.of_vector
        rw [mux_vectors hc, mux_vectors hc, length, hes.length_eq]
        split
        · refine .bind (merges_muxList (forall₂_iff_getElem?.mpr ⟨length, ih⟩) hes) ?_
          exact fun σ₁ τ₁ vs vs' _ _ hvs => (similar_vector hvs).merges
        · rw [(Similar.vector length elems).shapeMismatch_eq he]
          exact .throw _
      · exact merges_mux_of_kind_ne hc (.vector length elems) he (Ne.symm hk) (.inl rfl)
  | pair left right ihl ihr =>
      intro e e' he
      by_cases hk : e.kind = .pair
      · obtain ⟨a, b, rfl⟩ := exists_of_kind_pair hk
        obtain ⟨a', b', rfl, ha, hb⟩ := he.of_pair
        rw [mux_pairs hc, mux_pairs hc]
        refine .bind (ihl a a' ha) fun σ₁ τ₁ v v' hσ hτ hv => ?_
        refine .bind ((ihr b b' hb).later hσ hτ) fun σ₂ τ₂ w w' hσ hτ hw => ?_
        exact (Similar.pair (hv.mono hσ hτ) hw).merges
      · exact merges_mux_of_kind_ne hc (.pair left right) he (Ne.symm hk) (.inl rfl)
  | record names elems ih =>
      intro e e' he
      by_cases hk : e.kind = .record
      · obtain ⟨gs, rfl⟩ := exists_of_kind_record hk
        obtain ⟨gs', rfl, hgs⟩ := he.of_record
        rw [mux_records hc, mux_records hc, names, names_eq_of_forall₂ hgs]
        split
        · refine .bind (merges_muxFields (forall₂_fields names ih) hgs) ?_
          exact fun σ₁ τ₁ vs vs' _ _ hvs => (similar_record hvs).merges
        · rw [(Similar.record names elems).shapeMismatch_eq he]
          exact .throw _
      · exact merges_mux_of_kind_ne hc (.record names elems) he (Ne.symm hk) (.inl rfl)
  | ctor length elems ih =>
      intro e e' he
      by_cases hk : e.kind = .constructor
      · obtain ⟨j, es, rfl⟩ := exists_of_kind_constructor hk
        obtain ⟨es', rfl, hes⟩ := he.of_ctor
        rw [mux_ctors hc, mux_ctors hc, length, hes.length_eq]
        split
        · refine .bind (merges_muxList (forall₂_iff_getElem?.mpr ⟨length, ih⟩) hes) ?_
          exact fun σ₁ τ₁ vs vs' _ _ hvs => (similar_ctor hvs).merges
        · exact .throw _
      · exact merges_mux_of_kind_ne hc (.ctor length elems) he (Ne.symm hk) (.inl rfl)
  | closure bound elems => exact mergesLike_functions hc (.closure bound elems) rfl
  | partialApp length elems => exact mergesLike_functions hc (.partialApp length elems) rfl
  | funMux left right => exact mergesLike_functions hc (.funMux left right) rfl
  | mergedLeft kind left right => exact mergesLike_functions hc (.mergedLeft kind left right) rfl
  | mergedRight kind left right =>
      exact mergesLike_functions hc (.mergedRight kind left right) kind
  | stream hi hj fn => exact mergesLike_streams hc (.stream hi hj fn)
  | streamMux hi hj left right => exact mergesLike_streams hc (.streamMux hi hj left right)
  | streamLeft hi left right => exact mergesLike_streams hc (.streamLeft hi left right)
  | streamRight hj left right => exact mergesLike_streams hc (.streamRight hj left right)
  | streamKept hi hj => exact mergesLike_streams hc (.streamKept hi hj)

/-- Merging similar values gives similar values, or fails alike. -/
theorem Similar.mux (ht : Similar s σ τ t t') (he : Similar s σ τ e e') :
    Merges k l σ τ (Value.mux c t e) (Value.mux c t' e') (Similar s) := by
  cases hc : BitLike.asLit? c with
  | none => exact ht.mergesLike hc e e' he
  | some b =>
      rw [mux_of_lit hc, mux_of_lit hc]
      cases b
      · exact he.merges
      · exact ht.merges

/-- Merging values that stand for the same gives one that stands for it too. -/
theorem Similar.mux_right (ht : Similar s σ τ v t) (he : Similar s σ τ v e) :
    Merges k l σ τ (pure v) (Value.mux c t e) (Similar s) := by
  rw [← mux_self c v]
  exact ht.mux he

theorem Similar.mux_left (ht : Similar s σ τ t v) (he : Similar s σ τ e v) :
    Merges k l σ τ (Value.mux c t e) (pure v) (Similar s) := by
  rw [← mux_self c v]
  exact ht.mux he

end Similar

/-! ## Zero values -/

section Default

variable [BitLike β]

theorem defaultLike_of_function (h : v.kind = .function) :
    v.defaultLike = .error (.noDefaultValue .function) := by
  cases v <;> first | rfl | cases h

theorem defaultLikeList_eq {as bs : List (Value β)}
    (h : List.Forall₂ (fun a b => a.defaultLike = b.defaultLike) as bs) :
    defaultLikeList as = defaultLikeList bs := by
  induction h with
  | nil => rfl
  | cons hab _ ih => rw [defaultLikeList, defaultLikeList, hab, ih]

theorem defaultLikeFields_eq {fs gs : List (String × Value β)}
    (h : List.Forall₂ (fun f g => f.1 = g.1 ∧ f.2.defaultLike = g.2.defaultLike) fs gs) :
    defaultLikeFields fs = defaultLikeFields gs := by
  induction h with
  | nil => rfl
  | @cons f g _ _ hfg _ ih =>
      obtain ⟨x, a⟩ := f
      obtain ⟨y, b⟩ := g
      obtain ⟨rfl, hab⟩ := hfg
      rw [defaultLikeFields, defaultLikeFields, hab, ih]

/-- Similar values have one zero value. -/
theorem Similar.defaultLike_eq (h : Similar s σ τ v w) : v.defaultLike = w.defaultLike := by
  induction h with
  | atom _ => rfl
  | vector length _ ih =>
      rw [defaultLike, defaultLike, defaultLikeList_eq (forall₂_iff_getElem?.mpr ⟨length, ih⟩)]
  | pair _ _ ihl ihr => rw [defaultLike, defaultLike, ihl, ihr]
  | record names _ ih =>
      have hfs := forall₂_fields (P := fun v w : Value β => v.defaultLike = w.defaultLike) names ih
      rw [defaultLike, defaultLike, defaultLikeFields_eq hfs]
  | ctor _ _ _ => rfl
  | mergedLeft kind _ _ _ _ => rw [defaultLike_of_function rfl, defaultLike_of_function kind]
  | mergedRight kind _ _ _ _ => rw [defaultLike_of_function kind, defaultLike_of_function rfl]
  | _ => rfl

/-! What is shown of a value and its zero value is shown for atoms, and for values with parts
from what holds of the parts. -/

section Induction

variable {P : Value β → Value β → Prop}

theorem forall₂_of_defaultLikeList {as : List (Value β)}
    (h : ∀ a ∈ as, ∀ d, a.defaultLike = .ok d → P a d) :
    ∀ {ds}, defaultLikeList as = .ok ds → List.Forall₂ P as ds := by
  induction as with
  | nil =>
      rintro ds ⟨⟩
      exact .nil
  | cons a as ih =>
      intro ds hds
      obtain ⟨ha, has⟩ := List.forall_mem_cons.mp h
      rw [defaultLikeList] at hds
      obtain ⟨d, hd, hds⟩ := exists_of_bind_eq_ok hds
      obtain ⟨rest, hrest, hds⟩ := exists_of_bind_eq_ok hds
      cases hds
      exact .cons (ha d hd) (ih has hrest)

theorem forall₂_of_defaultLikeFields {fs : List (String × Value β)}
    (h : ∀ f ∈ fs, ∀ d, f.2.defaultLike = .ok d → P f.2 d) :
    ∀ {ds}, defaultLikeFields fs = .ok ds →
      List.Forall₂ (fun f g => f.1 = g.1 ∧ P f.2 g.2) fs ds := by
  induction fs with
  | nil =>
      rintro ds ⟨⟩
      exact .nil
  | cons f fs ih =>
      intro ds hds
      obtain ⟨hf, hfs⟩ := List.forall_mem_cons.mp h
      rw [defaultLikeFields] at hds
      obtain ⟨d, hd, hds⟩ := exists_of_bind_eq_ok hds
      obtain ⟨rest, hrest, hds⟩ := exists_of_bind_eq_ok hds
      cases hds
      exact .cons ⟨rfl, hf d hd⟩ (ih hfs hrest)

theorem of_defaultLike (atom : ∀ v d : Value β, v.isAtom = true → v.defaultLike = .ok d → P v d)
    (vector : ∀ as ds, List.Forall₂ P as ds → P (vector as) (vector ds))
    (pair : ∀ a b da db, P a da → P b db → P (pair a b) (pair da db))
    (record : ∀ fs ds, List.Forall₂ (fun f g => f.1 = g.1 ∧ P f.2 g.2) fs ds →
      P (record fs) (record ds)) (v : Value β) :
    ∀ d, v.defaultLike = .ok d → P v d := by
  induction v using inductOn with
  | vector as ih =>
      intro d hd
      rw [defaultLike] at hd
      obtain ⟨ds, hds, hd⟩ := exists_of_bind_eq_ok hd
      cases hd
      exact vector as ds (forall₂_of_defaultLikeList ih hds)
  | pair a b iha ihb =>
      intro d hd
      rw [defaultLike] at hd
      obtain ⟨da, hda, hd⟩ := exists_of_bind_eq_ok hd
      obtain ⟨db, hdb, hd⟩ := exists_of_bind_eq_ok hd
      cases hd
      exact pair a b da db (iha da hda) (ihb db hdb)
  | record fs ih =>
      intro d hd
      rw [defaultLike] at hd
      obtain ⟨ds, hds, hd⟩ := exists_of_bind_eq_ok hd
      cases hd
      exact record fs ds (forall₂_of_defaultLikeFields ih hds)
  | ctor | closure | partialApp | funMux | stream =>
      rintro d ⟨⟩
  | _ =>
      intro d hd
      exact atom _ d rfl hd

end Induction

/-- Zero values are data. -/
theorem isData_of_defaultLike (v : Value β) : ∀ d, v.defaultLike = .ok d → d.isData = true := by
  refine of_defaultLike (P := fun _ d => d.isData = true) ?atom ?vector ?pair ?record v
  case atom =>
    intro v d hv hd
    cases v <;> cases hv <;> cases hd <;> rfl
  case vector =>
    intro as ds h
    rw [isData]
    induction h with
    | nil => rfl
    | cons hd _ ih => rw [isDataList, hd, ih, Bool.true_and]
  case pair =>
    intro a b da db ha hb
    rw [isData, ha, hb, Bool.true_and]
  case record =>
    intro fs ds h
    rw [isData]
    induction h with
    | nil => rfl
    | cons hd _ ih => rw [isDataFields, hd.2, ih, Bool.true_and]

end Default

end Value

end TermGraph
