import Mathlib
import TermGraph.Proofs.Term.Within
import TermGraph.Proofs.Value.Data
import TermGraph.Value.Heap

/-!
# Similar values

Two evaluators that keep different things can end up with values that differ although
they stand for the same: a function node may have been met with another environment, of
which it reads only its free indices, and two functions or streams that behave alike may
have been merged where the other evaluator saw that they are one.  Two values are similar
when they differ in no other way.  Streams are names of cells, so similarity depends on
where the cells of either evaluator get their elements from.

Similarity is symmetric and transitive.  Similar values have one kind, and similar values
without functions and streams are equal.
-/

namespace TermGraph

/-- Where streams get their elements from.  Some streams are not looked into: they are kept
from an earlier time, and each of them stands for itself only. -/
structure Sources (β : Type) where
  source : StreamId → Option (StreamSource β)
  kept : StreamId → Prop
  source_eq_none : ∀ i, kept i → source i = none

namespace Sources

variable {β : Type} {σ τ υ : Sources β}

instance : CoeFun (Sources β) fun _ => StreamId → Option (StreamSource β) :=
  ⟨source⟩

/-- No streams at all. -/
def none : Sources β :=
  ⟨fun _ => .none, fun _ => False, fun _ _ => rfl⟩

/-- Every stream of `σ` is one of `τ`. -/
structure Le (σ τ : Sources β) : Prop where
  source : ∀ id src, σ id = some src → τ id = some src
  kept : ∀ id, σ.kept id → τ.kept id

theorem Le.refl (σ : Sources β) : σ.Le σ :=
  ⟨fun _ _ h => h, fun _ h => h⟩

theorem Le.trans (h : σ.Le τ) (h' : τ.Le υ) : σ.Le υ :=
  ⟨fun id src hid => h'.source id src (h.source id src hid),
    fun id hid => h'.kept id (h.kept id hid)⟩

/-- A kept stream has no source that counts, not even later on. -/
theorem not_kept_of_source {i : StreamId} {src : StreamSource β} (hi : σ i = some src) :
    ¬ σ.kept i := by
  intro hkept
  rw [σ.source_eq_none i hkept] at hi
  cases hi

end Sources

namespace Value

variable {β : Type}

/-- Values of two evaluators that stand for the same. -/
inductive Similar (s : Store) (σ τ : Sources β) : Value β → Value β → Prop where
  | atom {v : Value β} (h : v.isAtom = true) : Similar s σ τ v v
  | vector {as bs : List (Value β)} (length : as.length = bs.length)
      (elems : ∀ (i : Nat) a b, as[i]? = some a → bs[i]? = some b → Similar s σ τ a b) :
      Similar s σ τ (.vector as) (.vector bs)
  | pair {a b a' b' : Value β} (left : Similar s σ τ a a') (right : Similar s σ τ b b') :
      Similar s σ τ (.pair a b) (.pair a' b')
  | record {fs gs : List (String × Value β)} (names : fs.map (·.1) = gs.map (·.1))
      (elems : ∀ (i : Nat) f g, fs[i]? = some f → gs[i]? = some g → Similar s σ τ f.2 g.2) :
      Similar s σ τ (.record fs) (.record gs)
  | ctor {ident : Ident} {as bs : List (Value β)} (length : as.length = bs.length)
      (elems : ∀ (i : Nat) a b, as[i]? = some a → bs[i]? = some b → Similar s σ τ a b) :
      Similar s σ τ (.ctor ident as) (.ctor ident bs)
  /-- Only the free indices of the function node count. -/
  | closure {lambda : TermId} {env env' : Env β}
      (bound : ∀ i ∈ s.looseVars lambda, env[i]? = none ↔ env'[i]? = none)
      (elems : ∀ i ∈ s.looseVars lambda, ∀ a b, env[i]? = some a → env'[i]? = some b →
        Similar s σ τ a b) :
      Similar s σ τ (.closure lambda env) (.closure lambda env')
  | partialApp {prim : Ident} {as bs : List (Value β)} (length : as.length = bs.length)
      (elems : ∀ (i : Nat) a b, as[i]? = some a → bs[i]? = some b → Similar s σ τ a b) :
      Similar s σ τ (.partialApp prim as) (.partialApp prim bs)
  | funMux {c : β} {a b a' b' : Value β} (left : Similar s σ τ a a')
      (right : Similar s σ τ b b') : Similar s σ τ (.funMux c a b) (.funMux c a' b')
  /-- Functions that are alike have been merged on the left only. -/
  | mergedLeft {c : β} {a b w : Value β} (kind : w.kind = .function)
      (left : Similar s σ τ a w) (right : Similar s σ τ b w) : Similar s σ τ (.funMux c a b) w
  | mergedRight {c : β} {a b v : Value β} (kind : v.kind = .function)
      (left : Similar s σ τ v a) (right : Similar s σ τ v b) : Similar s σ τ v (.funMux c a b)
  | stream {i j : StreamId} {f g : Value β} (hi : σ i = some (.generator f))
      (hj : τ j = some (.generator g)) (fn : Similar s σ τ f g) :
      Similar s σ τ (.stream i) (.stream j)
  | streamMux {i j a b a' b' : StreamId} {c : β} (hi : σ i = some (.mux c a b))
      (hj : τ j = some (.mux c a' b')) (left : Similar s σ τ (.stream a) (.stream a'))
      (right : Similar s σ τ (.stream b) (.stream b')) : Similar s σ τ (.stream i) (.stream j)
  /-- Streams that are alike have been merged on the left only. -/
  | streamLeft {i j a b : StreamId} {c : β} (hi : σ i = some (.mux c a b))
      (left : Similar s σ τ (.stream a) (.stream j))
      (right : Similar s σ τ (.stream b) (.stream j)) : Similar s σ τ (.stream i) (.stream j)
  | streamRight {i j a b : StreamId} {c : β} (hj : τ j = some (.mux c a b))
      (left : Similar s σ τ (.stream i) (.stream a))
      (right : Similar s σ τ (.stream i) (.stream b)) : Similar s σ τ (.stream i) (.stream j)
  | streamKept {i : StreamId} (hi : σ.kept i) (hj : τ.kept i) :
      Similar s σ τ (.stream i) (.stream i)

/-- Two lists are related element by element when they are as long as each other and
related at each position. -/
theorem forall₂_iff_getElem? {α γ : Type} {R : α → γ → Prop} {as : List α} {bs : List γ} :
    List.Forall₂ R as bs ↔ as.length = bs.length ∧
      ∀ (i : Nat) a b, as[i]? = some a → bs[i]? = some b → R a b := by
  rw [List.forall₂_iff_get]
  refine and_congr_right fun _ => ⟨fun h i a b ha hb => ?_, fun h i hi hj => ?_⟩
  · obtain ⟨hi, rfl⟩ := List.getElem?_eq_some_iff.mp ha
    obtain ⟨hj, rfl⟩ := List.getElem?_eq_some_iff.mp hb
    exact h i hi hj
  · exact h i _ _ (List.getElem?_eq_getElem hi) (List.getElem?_eq_getElem hj)

section Fields

variable {α γ : Type} {P : α → γ → Prop} {fs : List (String × α)} {gs : List (String × γ)}

/-- The same for fields: their names are the same, and the values are related. -/
theorem forall₂_fields (names : fs.map (·.1) = gs.map (·.1))
    (h : ∀ (i : Nat) f g, fs[i]? = some f → gs[i]? = some g → P f.2 g.2) :
    List.Forall₂ (fun f g => f.1 = g.1 ∧ P f.2 g.2) fs gs := by
  refine forall₂_iff_getElem?.mpr ⟨by simpa using congrArg List.length names, ?_⟩
  intro i f g hf hg
  refine ⟨?_, h i f g hf hg⟩
  have hname := congrArg (·[i]?) names
  simpa [List.getElem?_map, hf, hg] using hname

theorem names_eq_of_forall₂ (h : List.Forall₂ (fun f g => f.1 = g.1 ∧ P f.2 g.2) fs gs) :
    fs.map (·.1) = gs.map (·.1) := by
  induction h with
  | nil => rfl
  | cons hfg _ ih => rw [List.map_cons, List.map_cons, hfg.1, ih]

theorem forall₂_insertField (h : List.Forall₂ (fun f g => f.1 = g.1 ∧ P f.2 g.2) fs gs)
    (x : String) {a : α} {b : γ} (hab : P a b) :
    List.Forall₂ (fun f g => f.1 = g.1 ∧ P f.2 g.2) (insertField x a fs)
      (insertField x b gs) := by
  induction h with
  | nil => exact .cons ⟨rfl, hab⟩ .nil
  | @cons f g fs gs hfg hrest ih =>
      obtain ⟨y, a'⟩ := f
      obtain ⟨z, b'⟩ := g
      obtain ⟨rfl, hab'⟩ := hfg
      simp only [insertField]
      split
      · exact .cons ⟨rfl, hab⟩ (.cons ⟨rfl, hab'⟩ hrest)
      · split
        · exact .cons ⟨rfl, hab⟩ hrest
        · exact .cons ⟨rfl, hab'⟩ ih

theorem forall₂_sortFields (h : List.Forall₂ (fun f g => f.1 = g.1 ∧ P f.2 g.2) fs gs) :
    List.Forall₂ (fun f g => f.1 = g.1 ∧ P f.2 g.2) (sortFields fs) (sortFields gs) := by
  have hfold {acc : List (String × α)} {acc' : List (String × γ)}
      (hacc : List.Forall₂ (fun f g => f.1 = g.1 ∧ P f.2 g.2) acc acc') :
      List.Forall₂ (fun f g => f.1 = g.1 ∧ P f.2 g.2)
        (fs.foldl (fun sorted p => insertField p.1 p.2 sorted) acc)
        (gs.foldl (fun sorted p => insertField p.1 p.2 sorted) acc') := by
    induction h generalizing acc acc' with
    | nil => exact hacc
    | cons hfg _ ih =>
        rw [List.foldl_cons, List.foldl_cons, ← hfg.1]
        exact ih (forall₂_insertField hacc _ hfg.2)
  exact hfold .nil

/-- A field is found in both records or in neither. -/
theorem find?_fields (h : List.Forall₂ (fun f g => f.1 = g.1 ∧ P f.2 g.2) fs gs) (x : String) :
    (fs.find? (fun p => p.1 = x) = none ∧ gs.find? (fun p => p.1 = x) = none) ∨
      ∃ f g, fs.find? (fun p => p.1 = x) = some f ∧ gs.find? (fun p => p.1 = x) = some g ∧
        P f.2 g.2 := by
  induction h with
  | nil => exact .inl ⟨rfl, rfl⟩
  | @cons f g fs gs hfg _ ih =>
      by_cases hx : f.1 = x
      · have hx' : g.1 = x := hfg.1 ▸ hx
        exact .inr ⟨f, g, List.find?_cons_of_pos (by simpa using hx),
          List.find?_cons_of_pos (by simpa using hx'), hfg.2⟩
      · have hx' : ¬g.1 = x := hfg.1 ▸ hx
        rwa [List.find?_cons_of_neg (by simpa using hx),
          List.find?_cons_of_neg (by simpa using hx')]

end Fields

/-- Environments that give similar values to some indices, or none in either. -/
def SimilarOn (s : Store) (σ τ : Sources β) (indices : List Nat) (env env' : Env β) : Prop :=
  ∀ i ∈ indices, (env[i]? = none ∧ env'[i]? = none) ∨
    ∃ a b, env[i]? = some a ∧ env'[i]? = some b ∧ Similar s σ τ a b

/-- Fields of the same names with similar values. -/
def SimilarFields (s : Store) (σ τ : Sources β) (fs gs : List (String × Value β)) : Prop :=
  List.Forall₂ (fun f g => f.1 = g.1 ∧ Similar s σ τ f.2 g.2) fs gs

namespace Similar

variable {s : Store} {σ τ σ' τ' : Sources β} {v w : Value β}

theorem symm (h : Similar s σ τ v w) : Similar s τ σ w v := by
  induction h with
  | atom h => exact .atom h
  | vector length _ ih => exact .vector length.symm fun i a b ha hb => ih i b a hb ha
  | pair _ _ ihl ihr => exact .pair ihl ihr
  | record names _ ih => exact .record names.symm fun i f g hf hg => ih i g f hg hf
  | ctor length _ ih => exact .ctor length.symm fun i a b ha hb => ih i b a hb ha
  | closure bound _ ih =>
      exact .closure (fun i hi => (bound i hi).symm) fun i hi a b ha hb => ih i hi b a hb ha
  | partialApp length _ ih => exact .partialApp length.symm fun i a b ha hb => ih i b a hb ha
  | funMux _ _ ihl ihr => exact .funMux ihl ihr
  | mergedLeft kind _ _ ihl ihr => exact .mergedRight kind ihl ihr
  | mergedRight kind _ _ ihl ihr => exact .mergedLeft kind ihl ihr
  | stream hi hj _ ih => exact .stream hj hi ih
  | streamMux hi hj _ _ ihl ihr => exact .streamMux hj hi ihl ihr
  | streamLeft hi _ _ ihl ihr => exact .streamRight hi ihl ihr
  | streamRight hj _ _ ihl ihr => exact .streamLeft hj ihl ihr
  | streamKept hi hj => exact .streamKept hj hi

/-- New streams keep values similar. -/
theorem mono (h : Similar s σ τ v w) (hσ : σ.Le σ') (hτ : τ.Le τ') : Similar s σ' τ' v w := by
  induction h with
  | atom h => exact .atom h
  | vector length _ ih => exact .vector length ih
  | pair _ _ ihl ihr => exact .pair ihl ihr
  | record names _ ih => exact .record names ih
  | ctor length _ ih => exact .ctor length ih
  | closure bound _ ih => exact .closure bound ih
  | partialApp length _ ih => exact .partialApp length ih
  | funMux _ _ ihl ihr => exact .funMux ihl ihr
  | mergedLeft kind _ _ ihl ihr => exact .mergedLeft kind ihl ihr
  | mergedRight kind _ _ ihl ihr => exact .mergedRight kind ihl ihr
  | stream hi hj _ ih => exact .stream (hσ.source _ _ hi) (hτ.source _ _ hj) ih
  | streamMux hi hj _ _ ihl ihr => exact .streamMux (hσ.source _ _ hi) (hτ.source _ _ hj) ihl ihr
  | streamLeft hi _ _ ihl ihr => exact .streamLeft (hσ.source _ _ hi) ihl ihr
  | streamRight hj _ _ ihl ihr => exact .streamRight (hτ.source _ _ hj) ihl ihr
  | streamKept hi hj => exact .streamKept (hσ.kept _ hi) (hτ.kept _ hj)

theorem kind_eq (h : Similar s σ τ v w) : v.kind = w.kind := by
  cases h with
  | mergedLeft kind _ _ => exact kind.symm
  | mergedRight kind _ _ => exact kind
  | _ => rfl

/-! ## Layers -/

/-- An atom is similar to itself only. -/
theorem eq_of_isAtom (h : Similar s σ τ v w) (hv : v.isAtom = true) : w = v := by
  cases h with
  | atom _ => rfl
  | mergedRight kind _ _ => exact absurd kind (kind_ne_function_of_isAtom hv)
  | _ => cases hv

theorem isAtom_eq (h : Similar s σ τ v w) : v.isAtom = w.isAtom := by
  cases hv : v.isAtom with
  | true => rw [h.eq_of_isAtom hv, hv]
  | false =>
      cases hw : w.isAtom with
      | false => rfl
      | true => rw [h.symm.eq_of_isAtom hw, hw] at hv; cases hv

theorem of_vector {as : List (Value β)} (h : Similar s σ τ (.vector as) w) :
    ∃ bs, w = .vector bs ∧ List.Forall₂ (Similar s σ τ) as bs := by
  cases h with
  | atom h => cases h
  | vector length elems => exact ⟨_, rfl, forall₂_iff_getElem?.mpr ⟨length, elems⟩⟩
  | mergedRight kind _ _ => cases kind

theorem of_pair {a b : Value β} (h : Similar s σ τ (.pair a b) w) :
    ∃ a' b', w = .pair a' b' ∧ Similar s σ τ a a' ∧ Similar s σ τ b b' := by
  cases h with
  | atom h => cases h
  | pair left right => exact ⟨_, _, rfl, left, right⟩
  | mergedRight kind _ _ => cases kind

theorem of_record {fs : List (String × Value β)} (h : Similar s σ τ (.record fs) w) :
    ∃ gs, w = .record gs ∧ SimilarFields s σ τ fs gs := by
  cases h with
  | atom h => cases h
  | record names elems => exact ⟨_, rfl, forall₂_fields names elems⟩
  | mergedRight kind _ _ => cases kind

theorem of_ctor {ident : Ident} {as : List (Value β)} (h : Similar s σ τ (.ctor ident as) w) :
    ∃ bs, w = .ctor ident bs ∧ List.Forall₂ (Similar s σ τ) as bs := by
  cases h with
  | atom h => cases h
  | ctor length elems => exact ⟨_, rfl, forall₂_iff_getElem?.mpr ⟨length, elems⟩⟩
  | mergedRight kind _ _ => cases kind

/-- A value similar to a stream is a stream. -/
theorem of_stream {i : StreamId} (h : Similar s σ τ (.stream i) w) : ∃ j, w = .stream j :=
  exists_of_kind_stream h.kind_eq.symm

/-- Streams are similar by the rules for streams only, so an induction over similar streams has
no other cases. -/
@[elab_as_elim]
theorem stream_induction
    {motive : ∀ i j : StreamId, Similar s σ τ (.stream i) (.stream j) → Prop}
    (generator : ∀ {i j : StreamId} {f g : Value β} (hi : σ i = some (.generator f))
      (hj : τ j = some (.generator g)) (fn : Similar s σ τ f g),
      motive i j (.stream hi hj fn))
    (mux : ∀ {i j a b a' b' : StreamId} {c : β} (hi : σ i = some (.mux c a b))
      (hj : τ j = some (.mux c a' b')) (left : Similar s σ τ (.stream a) (.stream a'))
      (right : Similar s σ τ (.stream b) (.stream b')), motive a a' left → motive b b' right →
      motive i j (.streamMux hi hj left right))
    (muxLeft : ∀ {i j a b : StreamId} {c : β} (hi : σ i = some (.mux c a b))
      (left : Similar s σ τ (.stream a) (.stream j))
      (right : Similar s σ τ (.stream b) (.stream j)), motive a j left → motive b j right →
      motive i j (.streamLeft hi left right))
    (muxRight : ∀ {i j a b : StreamId} {c : β} (hj : τ j = some (.mux c a b))
      (left : Similar s σ τ (.stream i) (.stream a))
      (right : Similar s σ τ (.stream i) (.stream b)), motive i a left → motive i b right →
      motive i j (.streamRight hj left right))
    (kept : ∀ {i : StreamId} (hi : σ.kept i) (hj : τ.kept i), motive i i (.streamKept hi hj))
    {i j : StreamId} (h : Similar s σ τ (.stream i) (.stream j)) : motive i j h := by
  suffices hall : ∀ {v w : Value β}, Similar s σ τ v w →
      ∀ {i j : StreamId} (h : Similar s σ τ (.stream i) (.stream j)), Value.stream i = v →
        Value.stream j = w → motive i j h from hall h h rfl rfl
  intro v w h
  induction h with intro i j _ hv hw
  | stream hi hj fn _ =>
      cases hv
      cases hw
      exact generator hi hj fn
  | streamMux hi hj left right ihl ihr =>
      cases hv
      cases hw
      exact mux hi hj left right (ihl _ rfl rfl) (ihr _ rfl rfl)
  | streamLeft hi left right ihl ihr =>
      cases hv
      cases hw
      exact muxLeft hi left right (ihl _ rfl rfl) (ihr _ rfl rfl)
  | streamRight hj left right ihl ihr =>
      cases hv
      cases hw
      exact muxRight hj left right (ihl _ rfl rfl) (ihr _ rfl rfl)
  | streamKept hi hj =>
      cases hv
      cases hw
      exact kept hi hj
  | atom h | mergedRight h => subst hv; cases h
  | _ => cases hv

end Similar

variable {s : Store} {σ τ : Sources β} {v w : Value β}

theorem similar_vector {as bs : List (Value β)} (h : List.Forall₂ (Similar s σ τ) as bs) :
    Similar s σ τ (.vector as) (.vector bs) :=
  have ⟨length, elems⟩ := forall₂_iff_getElem?.mp h
  .vector length elems

theorem similar_ctor {ident : Ident} {as bs : List (Value β)}
    (h : List.Forall₂ (Similar s σ τ) as bs) :
    Similar s σ τ (.ctor ident as) (.ctor ident bs) :=
  have ⟨length, elems⟩ := forall₂_iff_getElem?.mp h
  .ctor length elems

theorem similar_partialApp {prim : Ident} {as bs : List (Value β)}
    (h : List.Forall₂ (Similar s σ τ) as bs) :
    Similar s σ τ (.partialApp prim as) (.partialApp prim bs) :=
  have ⟨length, elems⟩ := forall₂_iff_getElem?.mp h
  .partialApp length elems

/-- The environments have values at the same indices, and these are similar. -/
theorem similarOn_iff {indices : List Nat} {env env' : Env β} :
    SimilarOn s σ τ indices env env' ↔
      (∀ i ∈ indices, env[i]? = none ↔ env'[i]? = none) ∧
        ∀ i ∈ indices, ∀ a b, env[i]? = some a → env'[i]? = some b → Similar s σ τ a b := by
  refine ⟨fun h => ⟨fun i hi => ?_, fun i hi a b ha hb => ?_⟩, fun ⟨bound, elems⟩ i hi => ?_⟩
  · obtain ⟨hn, hn'⟩ | ⟨a, b, ha, hb, -⟩ := h i hi <;> simp [*]
  · obtain ⟨hn, -⟩ | ⟨a', b', ha', hb', hab⟩ := h i hi
    · simp [hn] at ha
    · rw [ha, Option.some_inj] at ha'
      rw [hb, Option.some_inj] at hb'
      rwa [ha', hb']
  · cases ha : env[i]? with
    | none => exact .inl ⟨rfl, (bound i hi).mp ha⟩
    | some a =>
        cases hb : env'[i]? with
        | none => rw [(bound i hi).mpr hb] at ha; cases ha
        | some b => exact .inr ⟨a, b, rfl, rfl, elems i hi a b ha hb⟩

theorem similar_closure {lambda : TermId} {env env' : Env β}
    (h : SimilarOn s σ τ (s.looseVars lambda) env env') :
    Similar s σ τ (.closure lambda env) (.closure lambda env') :=
  have ⟨bound, elems⟩ := similarOn_iff.mp h
  .closure bound elems

theorem similar_record {fs gs : List (String × Value β)} (h : SimilarFields s σ τ fs gs) :
    Similar s σ τ (.record fs) (.record gs) := by
  refine .record (names_eq_of_forall₂ h) fun i f g hf hg => ?_
  exact ((forall₂_iff_getElem?.mp h).2 i f g hf hg).2

/-! ## Data -/

/-- Data is similar to itself, whatever streams there are. -/
theorem similar_self_of_isData (v : Value β) : v.isData = true → Similar s σ τ v v := by
  induction v using inductOn with
  | vector as ih =>
      intro h
      simp only [isData, isDataList_eq, List.all_eq_true] at h
      exact similar_vector (List.forall₂_same.mpr fun a ha => ih a ha (h a ha))
  | pair a b iha ihb =>
      intro h
      simp only [isData, Bool.and_eq_true] at h
      exact .pair (iha h.1) (ihb h.2)
  | record fs ih =>
      intro h
      simp only [isData, isDataFields_eq, List.all_eq_true] at h
      exact similar_record (List.forall₂_same.mpr fun f hf => ⟨rfl, ih f hf (h f hf)⟩)
  | ctor i as ih =>
      intro h
      simp only [isData, isDataList_eq, List.all_eq_true] at h
      exact similar_ctor (List.forall₂_same.mpr fun a ha => ih a ha (h a ha))
  | closure _ _ _ | partialApp _ _ _ | funMux _ _ _ _ _ | stream _ =>
      intro h
      cases h
  | _ => exact fun _ => .atom rfl

/-- Lists related element by element are equal when related elements are. -/
theorem eq_of_forall₂ {α : Type} {R : α → α → Prop} {as bs : List α} (h : List.Forall₂ R as bs) :
    (∀ a ∈ as, ∀ b, R a b → b = a) → bs = as := by
  induction h with
  | nil => exact fun _ => rfl
  | cons hab _ ih =>
      intro heq
      rw [heq _ List.mem_cons_self _ hab, ih fun a ha => heq a (List.mem_cons_of_mem _ ha)]

/-- Data is similar to itself only. -/
theorem Similar.eq_of_isData (v : Value β) :
    ∀ {w : Value β}, Similar s σ τ v w → v.isData = true → w = v := by
  induction v using inductOn with
  | vector as ih =>
      intro w h hv
      simp only [isData, isDataList_eq, List.all_eq_true] at hv
      obtain ⟨bs, rfl, hab⟩ := h.of_vector
      rw [eq_of_forall₂ hab fun a ha b hab => ih a ha hab (hv a ha)]
  | pair a b iha ihb =>
      intro w h hv
      simp only [isData, Bool.and_eq_true] at hv
      obtain ⟨a', b', rfl, ha, hb⟩ := h.of_pair
      rw [iha ha hv.1, ihb hb hv.2]
  | record fs ih =>
      intro w h hv
      simp only [isData, isDataFields_eq, List.all_eq_true] at hv
      obtain ⟨gs, rfl, hfg⟩ := h.of_record
      rw [eq_of_forall₂ hfg fun f hf g hfg => Prod.ext hfg.1.symm (ih f hf hfg.2 (hv f hf))]
  | ctor i as ih =>
      intro w h hv
      simp only [isData, isDataList_eq, List.all_eq_true] at hv
      obtain ⟨bs, rfl, hab⟩ := h.of_ctor
      rw [eq_of_forall₂ hab fun a ha b hab => ih a ha hab (hv a ha)]
  | closure _ _ _ | partialApp _ _ _ | funMux _ _ _ _ _ | stream _ =>
      intro w _ hv
      cases hv
  | _ => exact fun h _ => h.eq_of_isAtom rfl

/-! ## Similarity is transitive -/

theorem exists_getElem?_of_length_eq {α γ : Type} {as : List α} {bs : List γ} {i : Nat} {a : α}
    (length : as.length = bs.length) (ha : as[i]? = some a) : ∃ b, bs[i]? = some b := by
  obtain ⟨hi, -⟩ := List.getElem?_eq_some_iff.mp ha
  exact ⟨_, List.getElem?_eq_getElem (length ▸ hi)⟩

/-- Similarity is transitive.  The first value may have been merged from others on its own side,
and the last one on its own, so either derivation is followed while the other one stays. -/
theorem Similar.trans {υ : Sources β} {u : Value β} (h : Similar s σ τ u v) :
    ∀ {w : Value β}, Similar s τ υ v w → Similar s σ υ u w := by
  induction h with
  | atom hu =>
      intro w h'
      rw [h'.eq_of_isAtom hu]
      exact .atom hu
  | vector length _ ih =>
      intro w h'
      obtain ⟨cs, rfl, hcs⟩ := h'.of_vector
      obtain ⟨length', hcs⟩ := forall₂_iff_getElem?.mp hcs
      refine .vector (length.trans length') fun i a c ha hc => ?_
      obtain ⟨b, hb⟩ := exists_getElem?_of_length_eq length ha
      exact ih i a b ha hb (hcs i b c hb hc)
  | pair _ _ ihl ihr =>
      intro w h'
      obtain ⟨a, b, rfl, hl, hr⟩ := h'.of_pair
      exact .pair (ihl hl) (ihr hr)
  | record names _ ih =>
      intro w h'
      obtain ⟨hs, rfl, hhs⟩ := h'.of_record
      have names' := names_eq_of_forall₂ hhs
      refine .record (names.trans names') fun i f k hf hk => ?_
      obtain ⟨g, hg⟩ := exists_getElem?_of_length_eq (by simpa using congrArg List.length names) hf
      exact ih i f g hf hg ((forall₂_iff_getElem?.mp hhs).2 i g k hg hk).2
  | ctor length _ ih =>
      intro w h'
      obtain ⟨cs, rfl, hcs⟩ := h'.of_ctor
      obtain ⟨length', hcs⟩ := forall₂_iff_getElem?.mp hcs
      refine .ctor (length.trans length') fun i a c ha hc => ?_
      obtain ⟨b, hb⟩ := exists_getElem?_of_length_eq length ha
      exact ih i a b ha hb (hcs i b c hb hc)
  | @closure lambda env env' bound _ ih =>
      intro w h'
      generalize hv : Value.closure lambda env' = v at h'
      induction h' with
      | closure bound' elems' =>
          cases hv
          refine .closure (fun i hi => (bound i hi).trans (bound' i hi)) fun i hi a c ha hc => ?_
          obtain ⟨b, hb⟩ : ∃ b, env'[i]? = some b :=
            Option.ne_none_iff_exists'.mp fun hnone => by simp [(bound i hi).mpr hnone] at ha
          exact ih i hi a b ha hb (elems' i hi b c hb hc)
      | mergedRight _ _ _ ihl ihr => exact .mergedRight rfl (ihl hv) (ihr hv)
      | atom h => cases hv; cases h
      | _ => cases hv
  | @partialApp prim as bs length _ ih =>
      intro w h'
      generalize hv : Value.partialApp prim bs = v at h'
      induction h' with
      | partialApp length' elems' =>
          cases hv
          refine .partialApp (length.trans length') fun i a c ha hc => ?_
          obtain ⟨b, hb⟩ := exists_getElem?_of_length_eq length ha
          exact ih i a b ha hb (elems' i b c hb hc)
      | mergedRight _ _ _ ihl ihr => exact .mergedRight rfl (ihl hv) (ihr hv)
      | atom h => cases hv; cases h
      | _ => cases hv
  | @funMux c a b a' b' _ _ ihl ihr =>
      intro w h'
      generalize hv : Value.funMux c a' b' = v at h'
      induction h' with
      | funMux left right => cases hv; exact .funMux (ihl left) (ihr right)
      | mergedLeft kind left right => cases hv; exact .mergedLeft kind (ihl left) (ihr right)
      | mergedRight _ _ _ ihl' ihr' => exact .mergedRight rfl (ihl' hv) (ihr' hv)
      | atom h => cases hv; cases h
      | _ => cases hv
  | mergedLeft kind _ _ ihl ihr =>
      intro w h'
      exact .mergedLeft (h'.kind_eq.symm.trans kind) (ihl h') (ihr h')
  | @mergedRight c a b u kind _ _ ihl ihr =>
      intro w h'
      generalize hv : Value.funMux c a b = v at h'
      induction h' with
      | funMux left right => cases hv; exact .mergedRight kind (ihl left) (ihr right)
      | mergedLeft kind' left _ => cases hv; exact ihl left
      | mergedRight _ _ _ ihl' ihr' => exact .mergedRight kind (ihl' hv) (ihr' hv)
      | atom h => cases hv; cases h
      | _ => cases hv
  | stream hi hj _ ih =>
      intro w h'
      obtain ⟨k, rfl⟩ := h'.of_stream
      induction h' using Similar.stream_induction with
      | generator hj' hk fn =>
          cases hj.symm.trans hj'
          exact .stream hi hk (ih fn)
      | muxRight hk _ _ ihl ihr => exact .streamRight hk (ihl hj) (ihr hj)
      | mux hj' | muxLeft hj' => cases hj.symm.trans hj'
      | kept hkept => exact absurd hkept (Sources.not_kept_of_source hj)
  | streamMux hi hj _ _ ihl ihr =>
      intro w h'
      obtain ⟨k, rfl⟩ := h'.of_stream
      induction h' using Similar.stream_induction with
      | mux hj' hk left right =>
          cases hj.symm.trans hj'
          exact .streamMux hi hk (ihl left) (ihr right)
      | muxLeft hj' left right =>
          cases hj.symm.trans hj'
          exact .streamLeft hi (ihl left) (ihr right)
      | muxRight hk _ _ ihl' ihr' => exact .streamRight hk (ihl' hj) (ihr' hj)
      | generator hj' => cases hj.symm.trans hj'
      | kept hkept => exact absurd hkept (Sources.not_kept_of_source hj)
  | streamLeft hi _ _ ihl ihr =>
      intro w h'
      obtain ⟨k, rfl⟩ := h'.of_stream
      exact .streamLeft hi (ihl h') (ihr h')
  | streamRight hj _ _ ihl ihr =>
      intro w h'
      obtain ⟨k, rfl⟩ := h'.of_stream
      induction h' using Similar.stream_induction with
      | mux hj' hk left right =>
          cases hj.symm.trans hj'
          exact .streamRight hk (ihl left) (ihr right)
      | muxLeft hj' left _ =>
          cases hj.symm.trans hj'
          exact ihl left
      | muxRight hk _ _ ihl' ihr' => exact .streamRight hk (ihl' hj) (ihr' hj)
      | generator hj' => cases hj.symm.trans hj'
      | kept hkept => exact absurd hkept (Sources.not_kept_of_source hj)
  | streamKept hi hj =>
      intro w h'
      obtain ⟨k, rfl⟩ := h'.of_stream
      induction h' using Similar.stream_induction with
      | kept _ hk => exact .streamKept hi hk
      | muxRight hk _ _ ihl ihr => exact .streamRight hk (ihl hi hj) (ihr hi hj)
      | generator hj' | mux hj' | muxLeft hj' => exact absurd hj (Sources.not_kept_of_source hj')

/-! ## Streams that exist -/

/-- Every stream that a value can reach is one of `σ`. -/
inductive Fits (s : Store) (σ : Sources β) : Value β → Prop where
  | atom {v : Value β} (h : v.isAtom = true) : Fits s σ v
  | vector {as : List (Value β)} (elems : ∀ a ∈ as, Fits s σ a) : Fits s σ (.vector as)
  | pair {a b : Value β} (left : Fits s σ a) (right : Fits s σ b) : Fits s σ (.pair a b)
  | record {fs : List (String × Value β)} (elems : ∀ f ∈ fs, Fits s σ f.2) :
      Fits s σ (.record fs)
  | ctor {ident : Ident} {as : List (Value β)} (elems : ∀ a ∈ as, Fits s σ a) :
      Fits s σ (.ctor ident as)
  | closure {lambda : TermId} {env : Env β}
      (elems : ∀ i ∈ s.looseVars lambda, ∀ a, env[i]? = some a → Fits s σ a) :
      Fits s σ (.closure lambda env)
  | partialApp {prim : Ident} {as : List (Value β)} (elems : ∀ a ∈ as, Fits s σ a) :
      Fits s σ (.partialApp prim as)
  | funMux {c : β} {a b : Value β} (left : Fits s σ a) (right : Fits s σ b) :
      Fits s σ (.funMux c a b)
  | stream {i : StreamId} {f : Value β} (hi : σ i = some (.generator f)) (fn : Fits s σ f) :
      Fits s σ (.stream i)
  | streamMux {i a b : StreamId} {c : β} (hi : σ i = some (.mux c a b))
      (left : Fits s σ (.stream a)) (right : Fits s σ (.stream b)) : Fits s σ (.stream i)
  | streamKept {i : StreamId} (hi : σ.kept i) : Fits s σ (.stream i)

/-- What is similar position by position holds of the elements of the first list when the
second is as long. -/
theorem forall_mem_of_getElem? {α γ : Type} {P : α → Prop} {as : List α} {bs : List γ}
    (length : as.length = bs.length)
    (h : ∀ (i : Nat) a b, as[i]? = some a → bs[i]? = some b → P a) : ∀ a ∈ as, P a := by
  intro a ha
  obtain ⟨i, hi, rfl⟩ := List.mem_iff_getElem.mp ha
  exact h i _ _ (List.getElem?_eq_getElem hi) (List.getElem?_eq_getElem (length ▸ hi))

theorem Similar.fits (h : Similar s σ τ v w) : Fits s σ v := by
  induction h with
  | atom h => exact .atom h
  | vector length _ ih => exact .vector (forall_mem_of_getElem? length ih)
  | pair _ _ ihl ihr => exact .pair ihl ihr
  | record names _ ih =>
      exact .record (forall_mem_of_getElem? (by simpa using congrArg List.length names) ih)
  | ctor length _ ih => exact .ctor (forall_mem_of_getElem? length ih)
  | @closure lambda env env' bound _ ih =>
      refine .closure fun i hi a ha => ?_
      cases hb : env'[i]? with
      | none => rw [(bound i hi).mpr hb] at ha; cases ha
      | some b => exact ih i hi a b ha hb
  | partialApp length _ ih => exact .partialApp (forall_mem_of_getElem? length ih)
  | funMux _ _ ihl ihr => exact .funMux ihl ihr
  | mergedLeft _ _ _ ihl ihr => exact .funMux ihl ihr
  | mergedRight _ _ _ ihl _ => exact ihl
  | stream hi _ _ ih => exact .stream hi ih
  | streamMux hi _ _ _ ihl ihr => exact .streamMux hi ihl ihr
  | streamLeft hi _ _ ihl ihr => exact .streamMux hi ihl ihr
  | streamRight _ _ _ ihl _ => exact ihl
  | streamKept hi _ => exact .streamKept hi

/-- A stream that exists already has the source that it has later on. -/
theorem Fits.source {i : StreamId} {σ' : Sources β} {src : StreamSource β}
    (h : Fits s σ (.stream i)) (hσ : σ.Le σ') (hi : σ' i = some src) :
    (∃ f, src = .generator f ∧ σ i = some (.generator f) ∧ Fits s σ f) ∨
      ∃ c a b, src = .mux c a b ∧ σ i = some (.mux c a b) ∧
        Fits s σ (.stream a) ∧ Fits s σ (.stream b) := by
  cases h with
  | atom h => cases h
  | stream hf fn =>
      cases hi.symm.trans (hσ.source _ _ hf)
      exact .inl ⟨_, rfl, hf, fn⟩
  | streamMux hc left right =>
      cases hi.symm.trans (hσ.source _ _ hc)
      exact .inr ⟨_, _, _, rfl, hc, left, right⟩
  | streamKept hk => exact absurd (hσ.kept _ hk) (Sources.not_kept_of_source hi)

/-- A stream that exists already is kept if it is kept later on. -/
theorem Fits.kept {i : StreamId} {σ' : Sources β} (h : Fits s σ (.stream i)) (hσ : σ.Le σ')
    (hi : σ'.kept i) : σ.kept i := by
  cases h with
  | atom h => cases h
  | stream hf _ => exact absurd hi (Sources.not_kept_of_source (hσ.source _ _ hf))
  | streamMux hc _ _ => exact absurd hi (Sources.not_kept_of_source (hσ.source _ _ hc))
  | streamKept hk => exact hk

/-- Streams added later do not decide whether a value from before is similar to another. -/
theorem Similar.restrict {σ' : Sources β} (h : Similar s σ' τ v w) (hσ : σ.Le σ') :
    Fits s σ v → Similar s σ τ v w := by
  induction h with
  | atom h => exact fun _ => .atom h
  | vector length _ ih =>
      intro hv
      cases hv with
      | atom h => cases h
      | vector elems =>
          exact .vector length fun i a b ha hb => ih i a b ha hb (elems a (List.mem_of_getElem? ha))
  | pair _ _ ihl ihr =>
      intro hv
      cases hv with
      | atom h => cases h
      | pair left right =>
          exact .pair (ihl left) (ihr right)
  | record names _ ih =>
      intro hv
      cases hv with
      | atom h => cases h
      | record elems =>
          exact .record names fun i f g hf hg => ih i f g hf hg (elems f (List.mem_of_getElem? hf))
  | ctor length _ ih =>
      intro hv
      cases hv with
      | atom h => cases h
      | ctor elems =>
          exact .ctor length fun i a b ha hb => ih i a b ha hb (elems a (List.mem_of_getElem? ha))
  | closure bound _ ih =>
      intro hv
      cases hv with
      | atom h => cases h
      | closure elems =>
          exact .closure bound fun i hi a b ha hb => ih i hi a b ha hb (elems i hi a ha)
  | partialApp length _ ih =>
      intro hv
      cases hv with
      | atom h => cases h
      | partialApp elems =>
          exact .partialApp length fun i a b ha hb =>
              ih i a b ha hb (elems a (List.mem_of_getElem? ha))
  | funMux _ _ ihl ihr =>
      intro hv
      cases hv with
      | atom h => cases h
      | funMux left right =>
          exact .funMux (ihl left) (ihr right)
  | mergedLeft kind _ _ ihl ihr =>
      intro hv
      cases hv with
      | atom h => cases h
      | funMux left right =>
          exact .mergedLeft kind (ihl left) (ihr right)
  | mergedRight kind _ _ ihl ihr => exact fun hv => .mergedRight kind (ihl hv) (ihr hv)
  | stream hi hj _ ih =>
      intro hv
      obtain ⟨f, heq, hf, fn⟩ | ⟨c, a, b, heq, -⟩ := hv.source hσ hi <;> cases heq
      exact .stream hf hj (ih fn)
  | streamMux hi hj _ _ ihl ihr =>
      intro hv
      obtain ⟨f, heq, -⟩ | ⟨c, a, b, heq, hc, left, right⟩ := hv.source hσ hi <;> cases heq
      exact .streamMux hc hj (ihl left) (ihr right)
  | streamLeft hi _ _ ihl ihr =>
      intro hv
      obtain ⟨f, heq, -⟩ | ⟨c, a, b, heq, hc, left, right⟩ := hv.source hσ hi <;> cases heq
      exact .streamLeft hc (ihl left) (ihr right)
  | streamRight hj _ _ ihl ihr => exact fun hv => .streamRight hj (ihl hv) (ihr hv)
  | streamKept hi hj => exact fun hv => .streamKept (hv.kept hσ hi) hj

/-! ## Environments -/

theorem SimilarOn.mono {σ' τ' : Sources β} {indices : List Nat} {env env' : Env β}
    (h : SimilarOn s σ τ indices env env') (hσ : σ.Le σ') (hτ : τ.Le τ') :
    SimilarOn s σ' τ' indices env env' :=
  fun i hi => (h i hi).imp_right fun ⟨a, b, ha, hb, hab⟩ => ⟨a, b, ha, hb, hab.mono hσ hτ⟩

/-- What is similar for a term is similar for what stands inside it, under similar values
of the binders in between. -/
theorem SimilarOn.within {id c : TermId} {d : Nat} {env env' bound bound' : Env β}
    (hc : s.Within id d c) (h : SimilarOn s σ τ (s.looseVars id) env env')
    (hb : List.Forall₂ (Similar s σ τ) bound bound') (hd : bound.length = d) :
    SimilarOn s σ τ (s.looseVars c) (bound ++ env) (bound' ++ env') := by
  intro i hi
  have hd' : bound'.length = d := hb.length_eq ▸ hd
  by_cases hlt : i < d
  · rw [List.getElem?_append_left (by omega), List.getElem?_append_left (by omega)]
    have ha := List.getElem?_eq_getElem (hd ▸ hlt : i < bound.length)
    have hb' := List.getElem?_eq_getElem (hd' ▸ hlt : i < bound'.length)
    exact .inr ⟨_, _, ha, hb', (forall₂_iff_getElem?.mp hb).2 i _ _ ha hb'⟩
  · rw [List.getElem?_append_right (by omega), List.getElem?_append_right (by omega), hd, hd']
    refine h (i - d) (hc.mem_looseVars ?_)
    rwa [Nat.sub_add_cancel (by omega)]

/-! ## Reading and building vectors -/

/-- Similar values have similar elements, or no elements both. -/
theorem Similar.elems? (h : Similar s σ τ v w) :
    (v.elems? = none ∧ w.elems? = none) ∨
      ∃ as bs, v.elems? = some as ∧ w.elems? = some bs ∧ List.Forall₂ (Similar s σ τ) as bs := by
  cases v with
  | vector as =>
      obtain ⟨bs, rfl, hab⟩ := h.of_vector
      exact .inr ⟨as, bs, rfl, rfl, hab⟩
  | word bits =>
      rw [h.eq_of_isAtom rfl]
      refine .inr ⟨_, _, rfl, rfl, List.forall₂_same.mpr fun a ha => ?_⟩
      obtain ⟨bit, -, rfl⟩ := List.mem_map.mp ha
      exact .atom rfl
  | _ =>
      have hkind := h.kind_eq
      cases w <;> first | exact .inl ⟨rfl, rfl⟩ | cases hkind

theorem Similar.asBit?_eq (h : Similar s σ τ v w) : v.asBit? = w.asBit? := by
  cases v with
  | bool b => rw [h.eq_of_isAtom rfl]
  | _ =>
      have hkind := h.kind_eq
      cases w <;> first | rfl | cases hkind

theorem mapM_asBit?_eq {as bs : List (Value β)} (h : List.Forall₂ (Similar s σ τ) as bs) :
    as.mapM asBit? = bs.mapM asBit? := by
  induction h with
  | nil => rfl
  | cons hab _ ih => rw [List.mapM_cons, List.mapM_cons, hab.asBit?_eq, ih]

theorem similar_ofElems {as bs : List (Value β)} (h : List.Forall₂ (Similar s σ τ) as bs) :
    Similar s σ τ (ofElems as) (ofElems bs) := by
  cases h with
  | nil => exact similar_vector .nil
  | cons hab hrest =>
      simp only [ofElems, mapM_asBit?_eq (hrest.cons hab)]
      split
      · exact .atom rfl
      · exact similar_vector (hrest.cons hab)

/-! ## Building records -/

theorem similar_ofFields {fs gs : List (String × Value β)} (h : SimilarFields s σ τ fs gs) :
    Similar s σ τ (ofFields fs) (ofFields gs) :=
  similar_record (forall₂_sortFields h)

end Value

/-! ## Values that stand for themselves -/

section Fits

open Value (Similar Fits)

variable {β : Type} {s : Store} {σ τ : Sources β} {v : Value β}

/-- A value whose streams are there on both sides stands for itself. -/
theorem similar_of_fits_both {υ : Sources β} (h : Fits s υ v) (hσ : υ.Le σ) (hτ : υ.Le τ) :
    Similar s σ τ v v := by
  induction h with
  | atom h => exact .atom h
  | vector _ ih => exact Value.similar_vector (List.forall₂_same.mpr ih)
  | pair _ _ ihl ihr => exact .pair ihl ihr
  | record _ ih => exact Value.similar_record (List.forall₂_same.mpr fun f hf => ⟨rfl, ih f hf⟩)
  | ctor _ ih => exact Value.similar_ctor (List.forall₂_same.mpr ih)
  | closure _ ih =>
      refine .closure (fun _ _ => Iff.rfl) fun i hi a b ha hb => ?_
      rw [ha] at hb
      cases hb
      exact ih i hi a ha
  | partialApp _ ih => exact Value.similar_partialApp (List.forall₂_same.mpr ih)
  | funMux _ _ ihl ihr => exact .funMux ihl ihr
  | stream hi _ ih => exact .stream (hσ.source _ _ hi) (hτ.source _ _ hi) ih
  | streamMux hi _ _ ihl ihr => exact .streamMux (hσ.source _ _ hi) (hτ.source _ _ hi) ihl ihr
  | streamKept hi => exact .streamKept (hσ.kept _ hi) (hτ.kept _ hi)

/-- A value whose streams are there stands for itself. -/
theorem similar_of_fits (h : Fits s σ v) (hle : σ.Le τ) : Similar s σ τ v v :=
  similar_of_fits_both h (.refl _) hle

theorem fits_mono (h : Fits s σ v) (hle : σ.Le τ) : Fits s τ v :=
  (similar_of_fits h hle).symm.fits

end Fits

end TermGraph
