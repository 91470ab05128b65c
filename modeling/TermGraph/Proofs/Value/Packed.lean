import Mathlib
import TermGraph.Proofs.Value.Choice
import TermGraph.Proofs.Value.Heap
import TermGraph.Proofs.Value.Merge

/-!
# Vectors of bits are words

A value is packed when no vector in it is made of booleans only, the empty one apart; such a
vector is a word.  Merging packed values gives a packed value: merged elements are a boolean
only where an element of the first vector is one, so a vector of other values stays one.
Zero values have a boolean exactly where the value has one.
-/

namespace TermGraph

variable {β : Type}

namespace Value

/-- The values that a value is made of. -/
def parts : Value β → List (Value β)
  | vector as | ctor _ as | closure _ as | partialApp _ as => as
  | pair a b | funMux _ a b => [a, b]
  | record fs => fs.map (·.2)
  | _ => []

/-- What a value holds at any depth, itself included. -/
inductive Contains : Value β → Value β → Prop where
  | self (v : Value β) : Contains v v
  | part {v p w : Value β} (hp : p ∈ v.parts) (h : Contains p w) : Contains v w

/-- Whether this is a boolean. -/
def isBool : Value β → Bool
  | bool _ => true
  | _ => false

/-- Whether this is a vector of booleans, with at least one. -/
def isBitVector : Value β → Bool
  | vector as => !as.isEmpty && as.all isBool
  | _ => false

/-- There is no vector of booleans at any depth, apart from empty ones. -/
def Packed (v : Value β) : Prop :=
  ∀ w, v.Contains w → w.isBitVector = false

section Layers

variable {v a b : Value β} {as : List (Value β)}

theorem packed_iff : v.Packed ↔ v.isBitVector = false ∧ ∀ p ∈ v.parts, p.Packed := by
  constructor
  · exact fun h => ⟨h v (.self v), fun p hp w hw => h w (.part hp hw)⟩
  · rintro ⟨hself, hparts⟩ w hw
    cases hw with
    | self => exact hself
    | part hp hw => exact hparts _ hp w hw

theorem Packed.of_isAtom (h : v.isAtom = true) : v.Packed := by
  rw [packed_iff]
  cases v <;> cases h <;> exact ⟨rfl, List.forall_mem_nil _⟩

theorem packed_stream (id : StreamId) : (stream id : Value β).Packed :=
  packed_iff.mpr ⟨rfl, List.forall_mem_nil _⟩

theorem packed_vector : (vector as).Packed ↔ (vector as).isBitVector = false ∧
    ∀ a ∈ as, a.Packed :=
  packed_iff

theorem packed_pair : (pair a b).Packed ↔ a.Packed ∧ b.Packed := by
  simp [packed_iff (v := pair a b), parts, isBitVector]

theorem packed_funMux {c : β} : (funMux c a b).Packed ↔ a.Packed ∧ b.Packed := by
  simp [packed_iff (v := funMux c a b), parts, isBitVector]

theorem packed_record {fs : List (String × Value β)} :
    (record fs).Packed ↔ ∀ f ∈ fs, f.2.Packed := by
  rw [packed_iff, parts, List.forall_mem_map]
  exact ⟨fun h => h.2, fun h => ⟨rfl, h⟩⟩

theorem packed_ctor {i : Ident} : (ctor i as).Packed ↔ ∀ a ∈ as, a.Packed := by
  simp [packed_iff (v := ctor i as), parts, isBitVector]

theorem packed_closure {lambda : TermId} : (closure lambda as).Packed ↔ ∀ a ∈ as, a.Packed := by
  simp [packed_iff (v := closure lambda as), parts, isBitVector]

theorem packed_partialApp {prim : Ident} :
    (partialApp prim as).Packed ↔ ∀ a ∈ as, a.Packed := by
  simp [packed_iff (v := partialApp prim as), parts, isBitVector]

theorem isBitVector_vector :
    (vector as).isBitVector = true ↔ as ≠ [] ∧ ∀ a ∈ as, a.isBool = true := by
  simp [isBitVector]

/-- A packed value that is a boolean only where another value is one. -/
structure PackedLike (v w : Value β) : Prop where
  packed : w.Packed
  isBool : w.isBool = true → v.isBool = true

theorem Packed.like (h : v.Packed) : PackedLike v v :=
  ⟨h, fun hv => hv⟩

/-- Only a vector of booleans has elements that are booleans wherever those of another
vector are, if that is a vector of booleans. -/
theorem isBitVector_of_forall₂ {ws : List (Value β)} (h : List.Forall₂ PackedLike as ws)
    (hws : (vector ws).isBitVector = true) : (vector as).isBitVector = true := by
  rw [isBitVector_vector] at hws ⊢
  obtain ⟨hne, hall⟩ := hws
  constructor
  · rintro rfl
    cases h
    exact hne rfl
  · clear hne
    induction h with
    | nil => exact List.forall_mem_nil _
    | cons hlike _ ih =>
        obtain ⟨hw, hws⟩ := List.forall_mem_cons.mp hall
        exact List.forall_mem_cons.mpr ⟨hlike.isBool hw, ih hws⟩

theorem packed_of_forall₂ {ws : List (Value β)} (h : List.Forall₂ PackedLike as ws) :
    ∀ w ∈ ws, w.Packed := by
  induction h with
  | nil => exact List.forall_mem_nil _
  | cons hlike _ ih => exact List.forall_mem_cons.mpr ⟨hlike.packed, ih⟩

/-- A packed vector stays packed when its elements are replaced by packed values that are
booleans only where the elements are. -/
theorem packed_vector_of_forall₂ {ws : List (Value β)} (has : (vector as).Packed)
    (h : List.Forall₂ PackedLike as ws) : (vector ws).Packed := by
  refine packed_vector.mpr ⟨?_, packed_of_forall₂ h⟩
  have hself := (packed_vector.mp has).1
  rw [← Bool.not_eq_true] at hself ⊢
  exact fun hws => hself (isBitVector_of_forall₂ h hws)

end Layers

/-! ## Elements -/

section Elements

variable {v : Value β} {as : List (Value β)}

theorem exists_of_mapM_asBit?_eq_none (h : as.mapM asBit? = none) : ∃ a ∈ as, a.isBool = false := by
  induction as with
  | nil => cases h
  | cons a as ih =>
      cases a with
      | bool b =>
          have hrest : as.mapM asBit? = none := by
            rw [List.mapM_cons] at h
            cases hrest : as.mapM asBit? with
            | none => rfl
            | some bits =>
                rw [hrest] at h
                cases h
          obtain ⟨a, ha, hbool⟩ := ih hrest
          exact ⟨a, List.mem_cons_of_mem _ ha, hbool⟩
      | _ => exact ⟨_, List.mem_cons_self, rfl⟩

/-- The vector of packed elements is packed. -/
theorem packed_ofElems (h : ∀ a ∈ as, a.Packed) : (ofElems as).Packed := by
  unfold ofElems
  split
  · exact packed_vector.mpr ⟨rfl, h⟩
  · split
    · exact .of_isAtom rfl
    · next hnone =>
        refine packed_vector.mpr ⟨?_, h⟩
        obtain ⟨a, ha, hbool⟩ := exists_of_mapM_asBit?_eq_none hnone
        rw [← Bool.not_eq_true, isBitVector_vector]
        rintro ⟨-, hall⟩
        rw [hall a ha] at hbool
        cases hbool

theorem Packed.elems? (h : v.Packed) (has : v.elems? = some as) : ∀ a ∈ as, a.Packed := by
  cases v with
  | word bits =>
      obtain rfl := Option.some.inj has
      rintro a ha
      obtain ⟨b, -, rfl⟩ := List.mem_map.mp ha
      exact .of_isAtom rfl
  | vector bs =>
      obtain rfl := Option.some.inj has
      exact (packed_vector.mp h).2
  | _ => cases has

/-- A packed value whose elements are booleans, at least one, is the word of these. -/
theorem Packed.eq_word {bits : List β} (h : v.Packed) (hne : bits ≠ [])
    (hbits : v.elems? = some (bits.map bool)) : v = word bits := by
  cases v with
  | word bits' =>
      have hmap : bits'.map bool = bits.map bool := Option.some.inj hbits
      rw [List.map_injective_iff.mpr (fun _ _ h => Value.bool.inj h) hmap]
  | vector as =>
      obtain rfl := Option.some.inj hbits
      have hself := (packed_vector.mp h).1
      rw [← Bool.not_eq_true, isBitVector_vector] at hself
      refine absurd ⟨by simpa using hne, fun a ha => ?_⟩ hself
      obtain ⟨b, -, rfl⟩ := List.mem_map.mp ha
      rfl
  | _ => cases hbits

theorem of_mem_insertField {α : Type} {x : String} {a : α} {p : String × α}
    {fs : List (String × α)} (h : p ∈ insertField x a fs) : p = (x, a) ∨ p ∈ fs := by
  induction fs with
  | nil => exact .inl (List.mem_singleton.mp h)
  | cons f fs ih =>
      obtain ⟨y, b⟩ := f
      rw [insertField] at h
      split at h
      · exact List.mem_cons.mp h
      · split at h
        · exact (List.mem_cons.mp h).imp_right (List.mem_cons_of_mem _)
        · rcases List.mem_cons.mp h with rfl | h
          · exact .inr List.mem_cons_self
          · exact (ih h).imp_right (List.mem_cons_of_mem _)

/-- Sorting adds no fields. -/
theorem of_mem_sortFields {α : Type} {p : String × α} {fs : List (String × α)}
    (h : p ∈ sortFields fs) : p ∈ fs := by
  have hfold (fs sorted : List (String × α))
      (h : p ∈ fs.foldl (fun sorted p => insertField p.1 p.2 sorted) sorted) :
      p ∈ sorted ∨ p ∈ fs := by
    induction fs generalizing sorted with
    | nil => exact .inl h
    | cons f fs ih =>
        rcases ih (insertField f.1 f.2 sorted) h with h | h
        · exact (of_mem_insertField h).elim (fun h => .inr (h ▸ List.mem_cons_self)) .inl
        · exact .inr (List.mem_cons_of_mem _ h)
  exact (hfold fs [] h).resolve_left List.not_mem_nil

theorem packed_ofFields {fs : List (String × Value β)} (h : ∀ f ∈ fs, f.2.Packed) :
    (ofFields fs).Packed :=
  packed_record.mpr fun f hf => h f (of_mem_sortFields hf)

/-- The zero value of a packed value is packed, and it is a boolean only if the value is. -/
theorem packedLike_of_defaultLike [BitLike β] (v : Value β) :
    ∀ d, v.defaultLike = .ok d → v.Packed → PackedLike v d := by
  refine of_defaultLike (P := fun v d => v.Packed → PackedLike v d) ?atom ?vector ?pair ?record v
  case atom =>
    intro v d hv hd _
    cases v <;> cases hv <;> cases hd <;> exact ⟨.of_isAtom rfl, fun h => h⟩
  case vector =>
    intro as ds h hv
    have hall := (List.forall₂_and_left _ _).mpr ⟨(packed_vector.mp hv).2, h⟩
    exact ⟨packed_vector_of_forall₂ hv (hall.imp fun _ _ h => h.2 h.1), nofun⟩
  case pair =>
    intro a b da db ha hb hv
    obtain ⟨hpa, hpb⟩ := packed_pair.mp hv
    exact ⟨packed_pair.mpr ⟨(ha hpa).packed, (hb hpb).packed⟩, nofun⟩
  case record =>
    intro fs ds h hv
    have hfields := packed_record.mp hv
    refine ⟨packed_record.mpr ?_, nofun⟩
    clear hv
    induction h with
    | nil => exact List.forall_mem_nil _
    | cons hd _ ih =>
        obtain ⟨hf, hfs⟩ := List.forall_mem_cons.mp hfields
        exact List.forall_mem_cons.mpr ⟨(hd.2 hf).packed, ih hfs⟩

end Elements

end Value

/-! ## Streams -/

/-- A source whose function, if it has one, is packed. -/
def StreamSource.Packed : StreamSource β → Prop
  | .generator fn => fn.Packed
  | .mux _ _ _ => True

/-- A heap whose functions and remembered elements are packed. -/
structure Heap.Packed (h : Heap β) : Prop where
  source : ∀ id src, h.source? id = some src → src.Packed
  element : ∀ id n v, h.element? id n = some v → v.Packed

namespace Heap.Packed

variable {h : Heap β}

theorem empty : (Heap.empty : Heap β).Packed := by
  constructor <;> intros <;> simp_all [Heap.empty, Heap.source?, Heap.element?]

theorem alloc (hh : h.Packed) {src : StreamSource β} (hsrc : src.Packed) :
    (h.alloc src).2.Packed where
  source id src' hs := by
    simp only [Heap.source?, Heap.alloc, Array.getElem?_push] at hs
    split at hs
    · cases hs
      exact hsrc
    · exact hh.source id src' hs
  element id n v hv := hh.element id n v (((h.adds_alloc src).element id n).symm.trans hv)

theorem remember (hh : h.Packed) (id : StreamId) (n : Nat) {v : Value β} (hv : v.Packed) :
    (h.remember id n v).Packed where
  source i src hs := hh.source i src ((h.source?_remember id n v i).symm.trans hs)
  element i m w hw := by
    rw [Heap.element?_remember] at hw
    split at hw
    · cases hw
      exact hv
    · exact hh.element i m w hw

end Heap.Packed

/-! ## Merges -/

/-- From a packed heap a computation gives what it should, and the heap stays packed. -/
def Merge.Yields {α : Type} (P : α → Prop) (m : Merge β α) : Prop :=
  ∀ h a h₁, h.Packed → m.run h = .ok (a, h₁) → P a ∧ h₁.Packed

namespace Merge.Yields

variable {α γ : Type} {P : α → Prop} {Q : γ → Prop} {m : Merge β α} {f : α → Merge β γ}

theorem pure {a : α} (ha : P a) : Yields P (Pure.pure a : Merge β α) := by
  rintro h _ _ hh ⟨⟩
  exact ⟨ha, hh⟩

theorem throw (e : EvalError) : Yields P (MonadExcept.throw e : Merge β α) := by
  rintro h a h₁ hh ⟨⟩

theorem bind (hm : Yields P m) (hf : ∀ a, P a → Yields Q (f a)) : Yields Q (m >>= f) := by
  intro h b h₂ hh hrun
  obtain ⟨a, h₁, hrun₁, hrun₂⟩ := Value.run_bind_eq_ok hrun
  obtain ⟨ha, hh₁⟩ := hm h a h₁ hh hrun₁
  exact hf a ha h₁ b h₂ hh₁ hrun₂

theorem ite {p : Prop} [Decidable p] {m' : Merge β α} (hm : Yields P m) (hm' : Yields P m') :
    Yields P (if p then m else m') := by
  split
  · exact hm
  · exact hm'

theorem imp {P' : α → Prop} (hm : Yields P m) (h : ∀ a, P a → P' a) : Yields P' m :=
  fun heap a heap₁ hh hrun => (hm heap a heap₁ hh hrun).imp_left (h a)

theorem alloc {src : StreamSource β} (hsrc : src.Packed) :
    Yields (fun _ => True) (modifyGet (·.alloc src) : Merge β StreamId) := by
  rintro h _ _ hh ⟨⟩
  exact ⟨trivial, hh.alloc hsrc⟩

theorem foldrM {xs : List γ} {g : γ → α → Merge β α} {a : α}
    (h : ∀ x ∈ xs, ∀ a, P a → Yields P (g x a)) (ha : P a) : Yields P (xs.foldrM g a) := by
  induction xs with
  | nil => exact .pure ha
  | cons x xs ih =>
      obtain ⟨hx, hxs⟩ := List.forall_mem_cons.mp h
      rw [List.foldrM_cons]
      exact .bind (ih hxs) hx

end Merge.Yields

namespace Value

open Merge (Yields)

variable [BitLike β] [DecidableEq β] {c : β}

theorem yields_muxList {as : List (Value β)}
    (ih : ∀ a ∈ as, ∀ e, e.Packed → Yields (PackedLike a) (mux c a e)) {bs : List (Value β)}
    (hbs : ∀ b ∈ bs, b.Packed) (hlength : as.length = bs.length) :
    Yields (List.Forall₂ PackedLike as) (muxList c as bs) := by
  induction as generalizing bs with
  | nil =>
      rw [muxList_nil]
      exact .pure .nil
  | cons a as iha =>
      obtain ⟨ha, has⟩ := List.forall_mem_cons.mp ih
      cases bs with
      | nil => cases hlength
      | cons b bs =>
          obtain ⟨hb, hbs⟩ := List.forall_mem_cons.mp hbs
          rw [muxList_cons]
          exact .bind (ha b hb) fun _ hv =>
            .bind (iha has hbs (Nat.succ.inj hlength)) fun _ hvs => .pure (.cons hv hvs)

theorem yields_muxFields {fs : List (String × Value β)}
    (ih : ∀ f ∈ fs, ∀ e, e.Packed → Yields (PackedLike f.2) (mux c f.2 e))
    {gs : List (String × Value β)} (hgs : ∀ g ∈ gs, g.2.Packed) :
    Yields (fun fs => ∀ f ∈ fs, f.2.Packed) (muxFields c fs gs) := by
  induction fs generalizing gs with
  | nil =>
      rw [muxFields_nil]
      exact .pure (List.forall_mem_nil _)
  | cons f fs ihf =>
      obtain ⟨hf, hfs⟩ := List.forall_mem_cons.mp ih
      cases gs with
      | nil =>
          rw [muxFields_nil_right]
          exact .pure (List.forall_mem_nil _)
      | cons g gs =>
          obtain ⟨hg, hgs⟩ := List.forall_mem_cons.mp hgs
          rw [muxFields_cons]
          exact .bind (hf g.2 hg) fun _ hv => .bind (ihf hfs hgs) fun _ hvs =>
            .pure (List.forall_mem_cons.mpr ⟨hv.packed, hvs⟩)

/-- Under a bit that is not known, packed values of one shape merge to a packed value, and
to a boolean only if they are booleans. -/
theorem yields_mergeShapes {t e : Value β} (ht : t.Packed) (he : e.Packed)
    (hvector : ∀ as bs, t = .vector as → (∀ b ∈ bs, b.Packed) → as.length = bs.length →
      Yields (List.Forall₂ PackedLike as) (muxList c as bs))
    (hpair : ∀ a b a' b', t = .pair a b → a'.Packed → b'.Packed →
      Yields (PackedLike a) (mux c a a') ∧ Yields (PackedLike b) (mux c b b'))
    (hrecord : ∀ fs gs, t = .record fs → (∀ g ∈ gs, g.2.Packed) →
      Yields (fun fs => ∀ f ∈ fs, f.2.Packed) (muxFields c fs gs))
    (hctor : ∀ i as bs, t = .ctor i as → (∀ b ∈ bs, b.Packed) → as.length = bs.length →
      Yields (List.Forall₂ PackedLike as) (muxList c as bs)) :
    Yields (PackedLike t) (mergeShapes c t e) := by
  unfold mergeShapes
  split
  case h_1 => exact .pure ⟨.of_isAtom rfl, fun _ => rfl⟩
  case h_2 => exact .ite (.pure ⟨.of_isAtom rfl, nofun⟩) (.throw _)
  case h_3 | h_4 | h_5 => exact .pure ⟨.of_isAtom rfl, nofun⟩
  case h_6 | h_7 | h_8 => exact .throw _
  case h_9 as bs =>
    split
    · next hlength =>
        exact .bind (hvector as bs rfl (packed_vector.mp he).2 hlength) fun _ hvs =>
          .pure ⟨packed_vector_of_forall₂ ht hvs, nofun⟩
    · exact .throw _
  case h_10 a b a' b' =>
    obtain ⟨ha', hb'⟩ := packed_pair.mp he
    obtain ⟨hleft, hright⟩ := hpair a b a' b' rfl ha' hb'
    exact .bind hleft fun _ hv => .bind hright fun _ hw =>
      .pure ⟨packed_pair.mpr ⟨hv.packed, hw.packed⟩, nofun⟩
  case h_11 fs gs =>
    exact .ite (.bind (hrecord fs gs rfl (packed_record.mp he)) fun _ hvs =>
      .pure ⟨packed_record.mpr hvs, nofun⟩) (.throw _)
  case h_12 i as j bs =>
    split
    · next h =>
        exact .bind (hctor i as bs rfl (packed_ctor.mp he) h.2) fun _ hvs =>
          .pure ⟨packed_ctor.mpr (packed_of_forall₂ hvs), nofun⟩
    · exact .throw _
  case h_13 => exact .bind (.alloc trivial) fun id _ => .pure ⟨packed_stream id, nofun⟩
  case h_14 => exact .ite (.pure ⟨packed_funMux.mpr ⟨ht, he⟩, nofun⟩) (.throw _)

/-- Under a bit that is not known, packed values merge to a packed value, and to a boolean
only if the first is one. -/
theorem yields_mux_of_unknown (hc : BitLike.asLit? c = none) (t : Value β) :
    ∀ e, t.Packed → e.Packed → Yields (PackedLike t) (mux c t e) := by
  have hshapes {t e : Value β} (ht : t.Packed) (h : Yields (PackedLike t) (mergeShapes c t e)) :
      Yields (PackedLike t) (mux c t e) := by
    rw [mux_eq, hc]
    exact .ite (.pure ht.like) h
  induction t using Value.inductOn with
  | vector as ih =>
      intro e ht he
      have hparts := (packed_vector.mp ht).2
      refine hshapes ht (yields_mergeShapes ht he ?_ nofun nofun nofun)
      rintro _ bs ⟨⟩ hbs hlength
      exact yields_muxList (fun a ha e => ih a ha e (hparts a ha)) hbs hlength
  | pair a b iha ihb =>
      intro e ht he
      obtain ⟨ha, hb⟩ := packed_pair.mp ht
      refine hshapes ht (yields_mergeShapes ht he nofun ?_ nofun nofun)
      rintro _ _ a' b' ⟨⟩ ha' hb'
      exact ⟨iha a' ha ha', ihb b' hb hb'⟩
  | record fs ih =>
      intro e ht he
      have hparts := packed_record.mp ht
      refine hshapes ht (yields_mergeShapes ht he nofun nofun ?_ nofun)
      rintro _ gs ⟨⟩ hgs
      exact yields_muxFields (fun f hf e => ih f hf e (hparts f hf)) hgs
  | ctor i as ih =>
      intro e ht he
      have hparts := packed_ctor.mp ht
      refine hshapes ht (yields_mergeShapes ht he nofun nofun nofun ?_)
      rintro _ _ bs ⟨⟩ hbs hlength
      exact yields_muxList (fun a ha e => ih a ha e (hparts a ha)) hbs hlength
  | _ => exact fun e ht he => hshapes ht (yields_mergeShapes ht he nofun nofun nofun nofun)

/-- The merge of packed values is packed. -/
theorem yields_mux (c : β) {t e : Value β} (ht : t.Packed) (he : e.Packed) :
    Yields Packed (mux c t e) := by
  cases hc : BitLike.asLit? c with
  | some b =>
      rw [mux_of_lit hc]
      cases b
      · exact .pure he
      · exact .pure ht
  | none => exact (yields_mux_of_unknown hc t e ht he).imp fun _ h => h.packed

end Value

end TermGraph
