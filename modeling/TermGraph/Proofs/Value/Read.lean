import Mathlib
import TermGraph.Proofs.Bits.Valuation
import TermGraph.Proofs.Value.Similar

/-!
# Values under a valuation

A valuation of the bits turns a symbolic value into a known one, where a number given by a
word becomes the number that the word denotes.

A known value stands for a symbolic one when it is what evaluation with known bits would
have given: where functions or streams have been merged, it is the one that the condition
picks.  For values without functions and streams this is to be the same under the valuation.
-/

namespace TermGraph

namespace Value

variable {β : Type} [BitLike β]

mutual

/-- The known value of a symbolic one under a valuation of its bits. -/
def read (f : Valuation β) : Value β → Value Bool
  | bool b => bool (f.read b)
  | word bits => word (f.word bits)
  | int i => int i
  | nat n => nat n
  | toNat bits => nat (f.number bits)
  | vector as => vector (readList f as)
  | unit => unit
  | pair a b => pair (read f a) (read f b)
  | record fs => record (readFields f fs)
  | ctor i as => ctor i (readList f as)
  | closure lambda env => closure lambda (readList f env)
  | partialApp prim as => partialApp prim (readList f as)
  | funMux c a b => funMux (f.read c) (read f a) (read f b)
  | type => type
  | string t => string t
  | stream id => stream id

/-- `read` for each element. -/
def readList (f : Valuation β) : List (Value β) → List (Value Bool)
  | [] => []
  | a :: as => read f a :: readList f as

/-- `read` for each field. -/
def readFields (f : Valuation β) : List (String × Value β) → List (String × Value Bool)
  | [] => []
  | (x, a) :: fs => (x, read f a) :: readFields f fs

end

theorem readList_eq (f : Valuation β) (as : List (Value β)) : readList f as = as.map (read f) := by
  induction as with
  | nil => rfl
  | cons a as ih => rw [readList, ih, List.map_cons]

theorem readFields_eq (f : Valuation β) (fs : List (String × Value β)) :
    readFields f fs = fs.map fun p => (p.1, read f p.2) := by
  induction fs with
  | nil => rfl
  | cons p fs ih => rw [readFields, ih, List.map_cons]

/-- A known value that stands for a symbolic one. -/
inductive Stands (f : Valuation β) (σ : Sources β) (τ : Sources Bool) :
    Value β → Value Bool → Prop where
  | atom {v : Value β} {w : Value Bool} (hv : v.isAtom = true) (hw : w.isAtom = true)
      (read : v.read f = w.read .known) : Stands f σ τ v w
  | vector {as : List (Value β)} {bs : List (Value Bool)} (length : as.length = bs.length)
      (elems : ∀ (i : Nat) a b, as[i]? = some a → bs[i]? = some b → Stands f σ τ a b) :
      Stands f σ τ (.vector as) (.vector bs)
  | pair {a b : Value β} {a' b' : Value Bool} (left : Stands f σ τ a a')
      (right : Stands f σ τ b b') : Stands f σ τ (.pair a b) (.pair a' b')
  | record {fs : List (String × Value β)} {gs : List (String × Value Bool)}
      (names : fs.map (·.1) = gs.map (·.1))
      (elems : ∀ (i : Nat) p q, fs[i]? = some p → gs[i]? = some q → Stands f σ τ p.2 q.2) :
      Stands f σ τ (.record fs) (.record gs)
  | ctor {ident : Ident} {as : List (Value β)} {bs : List (Value Bool)}
      (length : as.length = bs.length)
      (elems : ∀ (i : Nat) a b, as[i]? = some a → bs[i]? = some b → Stands f σ τ a b) :
      Stands f σ τ (.ctor ident as) (.ctor ident bs)
  | closure {lambda : TermId} {env : Env β} {env' : Env Bool} (length : env.length = env'.length)
      (elems : ∀ (i : Nat) a b, env[i]? = some a → env'[i]? = some b → Stands f σ τ a b) :
      Stands f σ τ (.closure lambda env) (.closure lambda env')
  | partialApp {prim : Ident} {as : List (Value β)} {bs : List (Value Bool)}
      (length : as.length = bs.length)
      (elems : ∀ (i : Nat) a b, as[i]? = some a → bs[i]? = some b → Stands f σ τ a b) :
      Stands f σ τ (.partialApp prim as) (.partialApp prim bs)
  /-- Of two functions that have been merged, the condition picks one. -/
  | funMux {c : β} {a b : Value β} {w : Value Bool} (kind : w.kind = .function)
      (picked : Stands f σ τ (if f.read c then a else b) w) : Stands f σ τ (.funMux c a b) w
  | stream {i j : StreamId} {g : Value β} {g' : Value Bool} (hi : σ i = some (.generator g))
      (hj : τ j = some (.generator g')) (fn : Stands f σ τ g g') :
      Stands f σ τ (.stream i) (.stream j)
  /-- Of two streams that have been merged, the condition picks one. -/
  | streamMux {i j a b : StreamId} {c : β} (hi : σ i = some (.mux c a b))
      (picked : Stands f σ τ (.stream (if f.read c then a else b)) (.stream j)) :
      Stands f σ τ (.stream i) (.stream j)

/-- Fields of the same names with known values that stand for symbolic ones. -/
def StandsFields (f : Valuation β) (σ : Sources β) (τ : Sources Bool)
    (fs : List (String × Value β)) (gs : List (String × Value Bool)) : Prop :=
  List.Forall₂ (fun p q => p.1 = q.1 ∧ Stands f σ τ p.2 q.2) fs gs

namespace Stands

variable {f : Valuation β} {σ σ' : Sources β} {τ τ' : Sources Bool} {v : Value β}
  {w : Value Bool}

/-- New streams leave a value what it is. -/
theorem mono (h : Stands f σ τ v w) (hσ : σ.Le σ') (hτ : τ.Le τ') : Stands f σ' τ' v w := by
  induction h with
  | atom hv hw read => exact .atom hv hw read
  | vector length _ ih => exact .vector length ih
  | pair _ _ ihl ihr => exact .pair ihl ihr
  | record names _ ih => exact .record names ih
  | ctor length _ ih => exact .ctor length ih
  | closure length _ ih => exact .closure length ih
  | partialApp length _ ih => exact .partialApp length ih
  | funMux kind _ ih => exact .funMux kind ih
  | stream hi hj _ ih => exact .stream (hσ.source _ _ hi) (hτ.source _ _ hj) ih
  | streamMux hi _ ih => exact .streamMux (hσ.source _ _ hi) ih

/-- Only functions stand for functions. -/
theorem kind_function (h : Stands f σ τ v w) (hv : v.kind = .function) : w.kind = .function := by
  cases h with
  | atom h _ _ => exact absurd hv (kind_ne_function_of_isAtom h)
  | closure _ _ | partialApp _ _ => rfl
  | funMux kind _ => exact kind
  | _ => cases hv

/-! ## What stands for a value of some shape -/

theorem of_atom (h : Stands f σ τ v w) (hv : v.isAtom = true) :
    w.isAtom = true ∧ v.read f = w.read .known := by
  cases h with
  | atom _ hw read => exact ⟨hw, read⟩
  | _ => cases hv

/-- Nothing but a number stands for a value in more than one way. -/
theorem eq_read (h : Stands f σ τ v w) (hv : v.isAtom = true) (hn : ∀ n, v.read f ≠ .nat n) :
    w = v.read f := by
  obtain ⟨hw, hread⟩ := h.of_atom hv
  rw [hread] at hn ⊢
  cases w with
  | nat n | toNat bits => exact absurd rfl (hn _)
  | word bits => rw [read, Valuation.word_known]
  | bool _ | int _ | unit | type | string _ => rfl
  | _ => cases hw

theorem of_type (h : Stands f σ τ .type w) : w = .type :=
  h.eq_read rfl nofun

theorem of_bool {b : β} (h : Stands f σ τ (.bool b) w) : w = .bool (f.read b) :=
  h.eq_read rfl nofun

theorem of_word {bits : List β} (h : Stands f σ τ (.word bits) w) : w = .word (f.word bits) :=
  h.eq_read rfl nofun

theorem of_int {i : Int} (h : Stands f σ τ (.int i) w) : w = .int i :=
  h.eq_read rfl nofun

theorem of_string {t : String} (h : Stands f σ τ (.string t) w) : w = .string t :=
  h.eq_read rfl nofun

theorem of_vector {as : List (Value β)} (h : Stands f σ τ (.vector as) w) :
    ∃ bs, w = .vector bs ∧ List.Forall₂ (Stands f σ τ) as bs := by
  cases h with
  | atom hv _ _ => cases hv
  | vector length elems => exact ⟨_, rfl, forall₂_iff_getElem?.mpr ⟨length, elems⟩⟩

theorem of_pair {a b : Value β} (h : Stands f σ τ (.pair a b) w) :
    ∃ a' b', w = .pair a' b' ∧ Stands f σ τ a a' ∧ Stands f σ τ b b' := by
  cases h with
  | atom hv _ _ => cases hv
  | pair left right => exact ⟨_, _, rfl, left, right⟩

theorem of_record {fs : List (String × Value β)} (h : Stands f σ τ (.record fs) w) :
    ∃ gs, w = .record gs ∧ StandsFields f σ τ fs gs := by
  cases h with
  | atom hv _ _ => cases hv
  | record names elems => exact ⟨_, rfl, forall₂_fields names elems⟩

theorem of_ctor {i : Ident} {as : List (Value β)} (h : Stands f σ τ (.ctor i as) w) :
    ∃ bs, w = .ctor i bs ∧ List.Forall₂ (Stands f σ τ) as bs := by
  cases h with
  | atom hv _ _ => cases hv
  | ctor length elems => exact ⟨_, rfl, forall₂_iff_getElem?.mpr ⟨length, elems⟩⟩

theorem of_closure {lambda : TermId} {env : Env β} (h : Stands f σ τ (.closure lambda env) w) :
    ∃ env', w = .closure lambda env' ∧ List.Forall₂ (Stands f σ τ) env env' := by
  cases h with
  | atom hv _ _ => cases hv
  | closure length elems => exact ⟨_, rfl, forall₂_iff_getElem?.mpr ⟨length, elems⟩⟩

theorem of_partialApp {prim : Ident} {as : List (Value β)}
    (h : Stands f σ τ (.partialApp prim as) w) :
    ∃ bs, w = .partialApp prim bs ∧ List.Forall₂ (Stands f σ τ) as bs := by
  cases h with
  | atom hv _ _ => cases hv
  | partialApp length elems => exact ⟨_, rfl, forall₂_iff_getElem?.mpr ⟨length, elems⟩⟩

theorem of_funMux {c : β} {a b : Value β} (h : Stands f σ τ (.funMux c a b) w) :
    Stands f σ τ (if f.read c then a else b) w := by
  cases h with
  | atom hv _ _ => cases hv
  | funMux _ picked => exact picked

/-- What stands for a stream: the generators stand for each other, or the condition of a
merge picks a stream that it stands for. -/
theorem of_stream {i : StreamId} (h : Stands f σ τ (.stream i) w) : ∃ j, w = .stream j ∧
    ((∃ g g', σ i = some (.generator g) ∧ τ j = some (.generator g') ∧ Stands f σ τ g g') ∨
      ∃ c a b, σ i = some (.mux c a b) ∧
        Stands f σ τ (.stream (if f.read c then a else b)) (.stream j)) := by
  cases h with
  | atom hv _ _ => cases hv
  | stream hi hj fn => exact ⟨_, rfl, .inl ⟨_, _, hi, hj, fn⟩⟩
  | streamMux hi picked => exact ⟨_, rfl, .inr ⟨_, _, _, hi, picked⟩⟩

end Stands

/-! ## Values made of parts -/

section Parts

variable {f : Valuation β} {σ : Sources β} {τ : Sources Bool}

theorem stands_bool {b : β} {b' : Bool} (h : f.read b = b') : Stands f σ τ (.bool b) (.bool b') :=
  .atom rfl rfl (congrArg Value.bool h)

theorem stands_word {bits : List β} {bits' : List Bool} (h : f.word bits = bits') :
    Stands f σ τ (.word bits) (.word bits') :=
  .atom rfl rfl (congrArg Value.word (h.trans (Valuation.word_known bits').symm))

theorem stands_vector {as : List (Value β)} {bs : List (Value Bool)}
    (h : List.Forall₂ (Stands f σ τ) as bs) : Stands f σ τ (.vector as) (.vector bs) := by
  obtain ⟨length, elems⟩ := forall₂_iff_getElem?.mp h
  exact .vector length elems

theorem stands_ctor {i : Ident} {as : List (Value β)} {bs : List (Value Bool)}
    (h : List.Forall₂ (Stands f σ τ) as bs) : Stands f σ τ (.ctor i as) (.ctor i bs) := by
  obtain ⟨length, elems⟩ := forall₂_iff_getElem?.mp h
  exact .ctor length elems

theorem stands_closure {lambda : TermId} {env : Env β} {env' : Env Bool}
    (h : List.Forall₂ (Stands f σ τ) env env') :
    Stands f σ τ (.closure lambda env) (.closure lambda env') := by
  obtain ⟨length, elems⟩ := forall₂_iff_getElem?.mp h
  exact .closure length elems

theorem stands_partialApp {prim : Ident} {as : List (Value β)} {bs : List (Value Bool)}
    (h : List.Forall₂ (Stands f σ τ) as bs) :
    Stands f σ τ (.partialApp prim as) (.partialApp prim bs) := by
  obtain ⟨length, elems⟩ := forall₂_iff_getElem?.mp h
  exact .partialApp length elems

theorem stands_record {fs : List (String × Value β)} {gs : List (String × Value Bool)}
    (h : StandsFields f σ τ fs gs) : Stands f σ τ (.record fs) (.record gs) := by
  refine .record (names_eq_of_forall₂ h) fun i p q hp hq => ?_
  exact ((forall₂_iff_getElem?.mp h).2 i p q hp hq).2

theorem stands_ofFields {fs : List (String × Value β)} {gs : List (String × Value Bool)}
    (h : StandsFields f σ τ fs gs) : Stands f σ τ (ofFields fs) (ofFields gs) :=
  stands_record (forall₂_sortFields h)

end Parts

/-! ## Data -/

section Data

variable {f : Valuation β} {σ : Sources β} {τ : Sources Bool} {v : Value β} {w : Value Bool}

theorem read_of_forall₂ {as : List (Value β)} {bs : List (Value Bool)}
    (h : List.Forall₂ (fun a b => b.isData = true → a.isData = true ∧ a.read f = b.read .known)
      as bs) (hbs : isDataList bs = true) :
    isDataList as = true ∧ readList f as = readList .known bs := by
  induction h with
  | nil => exact ⟨rfl, rfl⟩
  | cons hab _ ih =>
      rw [isDataList, Bool.and_eq_true] at hbs
      obtain ⟨ha, hread⟩ := hab hbs.1
      obtain ⟨has, hreads⟩ := ih hbs.2
      rw [isDataList, ha, has, readList, hread, hreads]
      exact ⟨rfl, rfl⟩

theorem readFields_of_forall₂ {fs : List (String × Value β)} {gs : List (String × Value Bool)}
    (h : List.Forall₂ (fun p q => p.1 = q.1 ∧
      (q.2.isData = true → p.2.isData = true ∧ p.2.read f = q.2.read .known)) fs gs)
    (hgs : isDataFields gs = true) :
    isDataFields fs = true ∧ readFields f fs = readFields .known gs := by
  induction h with
  | nil => exact ⟨rfl, rfl⟩
  | @cons p q _ _ hpq _ ih =>
      obtain ⟨x, a⟩ := p
      obtain ⟨y, b⟩ := q
      obtain ⟨rfl, hab⟩ := hpq
      rw [isDataFields, Bool.and_eq_true] at hgs
      obtain ⟨ha, hread⟩ := hab hgs.1
      obtain ⟨hfs, hreads⟩ := ih hgs.2
      rw [isDataFields, ha, hfs, readFields, hread, hreads]
      exact ⟨rfl, rfl⟩

/-- What is data and stands for a value is that value under the valuation. -/
theorem Stands.read_eq (h : Stands f σ τ v w) (hw : w.isData = true) :
    v.isData = true ∧ v.read f = w.read .known := by
  induction h with
  | atom hv _ read => exact ⟨isData_of_isAtom hv, read⟩
  | vector length _ ih =>
      obtain ⟨hdata, hread⟩ := read_of_forall₂ (forall₂_iff_getElem?.mpr ⟨length, ih⟩) hw
      exact ⟨hdata, congrArg Value.vector hread⟩
  | pair _ _ ihl ihr =>
      rw [isData, Bool.and_eq_true] at hw
      obtain ⟨hl, hreadl⟩ := ihl hw.1
      obtain ⟨hr, hreadr⟩ := ihr hw.2
      rw [isData, hl, hr, read, hreadl, hreadr]
      exact ⟨rfl, rfl⟩
  | record names _ ih =>
      have hfields := forall₂_fields (P := fun v w : Value _ => w.isData = true →
        v.isData = true ∧ v.read f = w.read .known) names ih
      obtain ⟨hdata, hread⟩ := readFields_of_forall₂ hfields hw
      exact ⟨hdata, congrArg Value.record hread⟩
  | ctor length _ ih =>
      obtain ⟨hdata, hread⟩ := read_of_forall₂ (forall₂_iff_getElem?.mpr ⟨length, ih⟩) hw
      exact ⟨hdata, congrArg (Value.ctor _) hread⟩
  | @funMux c a b w kind _ _ => cases w <;> cases kind <;> cases hw
  | _ => cases hw

theorem isAtom_read (v : Value β) : (v.read f).isAtom = v.isAtom := by
  cases v <;> rfl

/-- A valuation leaves no number given by a word. -/
theorem read_read (v : Value β) : (v.read f).read .known = v.read f := by
  induction v using inductOn with
  | vector as ih | ctor _ as ih | closure _ as ih | partialApp _ as ih =>
      simpa [read, readList_eq] using ih
  | record fs ih => simpa [read, readFields_eq, Prod.ext_iff] using ih
  | pair a b iha ihb => rw [read, read, iha, ihb]
  | funMux c a b iha ihb =>
      rw [read, read, iha, ihb]
      rfl
  | word bits => rw [read, read, Valuation.word_known]
  | _ => rfl

theorem isData_read (v : Value β) : (v.read f).isData = v.isData := by
  induction v using inductOn with
  | vector as ih | ctor _ as ih =>
      simp only [read, isData, readList_eq, isDataList_eq, List.all_map]
      rw [Bool.eq_iff_iff, List.all_eq_true, List.all_eq_true]
      exact forall₂_congr fun a ha => by rw [Function.comp, ih a ha]
  | record fs ih =>
      simp only [read, isData, readFields_eq, isDataFields_eq, List.all_map]
      rw [Bool.eq_iff_iff, List.all_eq_true, List.all_eq_true]
      exact forall₂_congr fun p hp => by rw [Function.comp, ih p hp]
  | pair a b iha ihb => rw [read, isData, isData, iha, ihb]
  | _ => rfl

theorem forall₂_stands_of_read {as : List (Value β)}
    (ih : ∀ a ∈ as, ∀ {b : Value Bool}, a.isData = true → a.read f = b.read .known →
      Stands f σ τ a b) :
    ∀ {bs : List (Value Bool)}, isDataList as = true → readList f as = readList .known bs →
      List.Forall₂ (Stands f σ τ) as bs := by
  induction as with
  | nil =>
      intro bs _ h
      cases bs with
      | nil => exact .nil
      | cons b bs => cases h
  | cons a as iha =>
      intro bs hdata h
      cases bs with
      | nil => cases h
      | cons b bs =>
          obtain ⟨ha, has⟩ := List.forall_mem_cons.mp ih
          rw [isDataList, Bool.and_eq_true] at hdata
          rw [readList, readList, List.cons.injEq] at h
          exact .cons (ha hdata.1 h.1) (iha has hdata.2 h.2)

theorem standsFields_of_read {fs : List (String × Value β)}
    (ih : ∀ p ∈ fs, ∀ {b : Value Bool}, p.2.isData = true → p.2.read f = b.read .known →
      Stands f σ τ p.2 b) :
    ∀ {gs : List (String × Value Bool)}, isDataFields fs = true →
      readFields f fs = readFields .known gs → StandsFields f σ τ fs gs := by
  induction fs with
  | nil =>
      intro gs _ h
      cases gs with
      | nil => exact .nil
      | cons q gs => cases h
  | cons p fs ihp =>
      intro gs hdata h
      cases gs with
      | nil => cases h
      | cons q gs =>
          obtain ⟨hp, hfs⟩ := List.forall_mem_cons.mp ih
          rw [isDataFields, Bool.and_eq_true] at hdata
          rw [readFields, readFields, List.cons.injEq, Prod.mk.injEq] at h
          exact .cons ⟨h.1.1, hp hdata.1 h.1.2⟩ (ihp hfs hdata.2 h.2)

/-- A known value stands for data when the two are one under the valuation. -/
theorem stands_of_read_eq (v : Value β) : ∀ {w : Value Bool}, v.isData = true →
    v.read f = w.read .known → Stands f σ τ v w := by
  have hatom {v : Value β} {w : Value Bool} (hv : v.isAtom = true)
      (h : v.read f = w.read .known) : Stands f σ τ v w := by
    refine .atom hv ?_ h
    rw [← isAtom_read, ← h, isAtom_read, hv]
  induction v using inductOn with
  | vector as ih =>
      intro w hv h
      cases w with
      | vector bs => exact stands_vector (forall₂_stands_of_read ih hv (Value.vector.inj h))
      | _ => cases h
  | pair a b iha ihb =>
      intro w hv h
      cases w with
      | pair a' b' =>
          rw [isData, Bool.and_eq_true] at hv
          obtain ⟨hl, hr⟩ := Value.pair.inj h
          exact .pair (iha hv.1 hl) (ihb hv.2 hr)
      | _ => cases h
  | record fs ih =>
      intro w hv h
      cases w with
      | record gs => exact stands_record (standsFields_of_read ih hv (Value.record.inj h))
      | _ => cases h
  | ctor i as ih =>
      intro w hv h
      cases w with
      | ctor j bs =>
          obtain ⟨rfl, hread⟩ := Value.ctor.inj h
          exact stands_ctor (forall₂_stands_of_read ih hv hread)
      | _ => cases h
  | bool _ | word _ | int _ | nat _ | toNat _ | unit | type | string _ =>
      exact fun _ h => hatom rfl h
  | _ =>
      intro w hv
      cases hv

/-- Data stands for what it is under the valuation. -/
theorem stands_read (hv : v.isData = true) : Stands f σ τ v (v.read f) :=
  stands_of_read_eq v hv (read_read v).symm

end Data

end Value

end TermGraph
