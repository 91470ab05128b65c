import Mathlib
import TermGraph.Translate.Module

/-!
# What a run that may emit declarations ensures

A computation of the translator either fails or returns a value and what has been
emitted so far.  `Ensures I R m Q` says that whenever `m` succeeds on an emission
where `I` holds, the emissions before and after are related by `R` and `Q` holds of
the value.  `Succeeds I m` says that `m` does succeed on such an emission.
-/

namespace TermGraph

/-! ## Outcomes -/

namespace Emit

variable {α β : Type}

@[simp] theorem exec_pure (a : α) (e : Emission) : (pure a : Emit α).exec e = (.ok a, e) :=
  rfl

@[simp] theorem exec_throw (err : TranslateError) (e : Emission) :
    (throw err : Emit α).exec e = (.error err, e) :=
  rfl

@[simp] theorem exec_get (e : Emission) : (get : Emit Emission).exec e = (.ok e, e) :=
  rfl

@[simp] theorem exec_modify (f : Emission → Emission) (e : Emission) :
    (modify f : Emit Unit).exec e = (.ok ⟨⟩, f e) :=
  rfl

theorem exec_bind (m : Emit α) (f : α → Emit β) (e : Emission) :
    (m >>= f).exec e =
      match m.exec e with
      | (.ok a, e₁) => (f a).exec e₁
      | (.error err, e₁) => (.error err, e₁) := by
  rw [exec, ExceptT.run_bind, StateT.run_bind, exec]
  rcases StateT.run (ExceptT.run m) e with ⟨err | a, e₁⟩ <;> rfl

@[simp] theorem run_pure (a : α) (e : Emission) : (pure a : Emit α).run e = pure (a, e) :=
  rfl

@[simp] theorem run_throw (err : TranslateError) (e : Emission) :
    (throw err : Emit α).run e = throw err :=
  rfl

@[simp] theorem run_get (e : Emission) : (get : Emit Emission).run e = pure (e, e) :=
  rfl

@[simp] theorem run_modify (f : Emission → Emission) (e : Emission) :
    (modify f : Emit Unit).run e = pure (⟨⟩, f e) :=
  rfl

@[simp] theorem run_bind (m : Emit α) (f : α → Emit β) (e : Emission) :
    (m >>= f).run e = m.run e >>= fun p => (f p.1).run p.2 := by
  rw [run, exec_bind, run]
  rcases m.exec e with ⟨err | a, e₁⟩ <;> rfl

@[simp] theorem run_map (f : α → β) (m : Emit α) (e : Emission) :
    (f <$> m).run e = (fun p => (f p.1, p.2)) <$> m.run e := by
  rw [map_eq_pure_bind, run_bind]
  cases m.run e <;> rfl

/-- A computation that does not fail has a value as its outcome. -/
theorem run_eq_ok {m : Emit α} {e e' : Emission} {a : α} :
    m.run e = .ok (a, e') ↔ m.exec e = (.ok a, e') := by
  rw [run]
  rcases m.exec e with ⟨err | b, e₁⟩ <;> simp

end Emit

/-- An attempt succeeds when the computation does not fail. -/
theorem Emission.attempt_eq_ok {α : Type} {m : Emit α} {e e' : Emission} {a : α} :
    e.attempt m = (.ok a, e') ↔ m.run e = .ok (a, e') := by
  rw [attempt, Emit.run_eq_ok]
  rcases m.exec e with ⟨err | b, e₁⟩ <;> simp

/-! ## Runs that do not fail -/

/-- A relation between the emissions before and after that composes along runs, and
that keeps what is assumed of the emission before. -/
structure Composes (I : Emission → Prop) (R : Emission → Emission → Prop) : Prop where
  refl : ∀ e, R e e
  trans : ∀ {a b c}, R a b → R b c → R a c
  stable : ∀ {a b}, R a b → I a → I b

/-- What holds after every successful run of a computation. -/
def Ensures {α : Type} (I : Emission → Prop) (R : Emission → Emission → Prop) (m : Emit α)
    (Q : α → Prop) : Prop :=
  ∀ e a e', I e → m.run e = .ok (a, e') → R e e' ∧ Q a

section Ensures

variable {α β : Type} {I I' : Emission → Prop} {R : Emission → Emission → Prop} {m : Emit α}
  {Q Q' : α → Prop}

theorem Ensures.imp (h : Ensures I R m Q) (hQ : ∀ a, Q a → Q' a) : Ensures I R m Q' :=
  fun e a e' he hrun => ⟨(h e a e' he hrun).1, hQ a (h e a e' he hrun).2⟩

theorem Ensures.assume (h : Ensures I R m Q) (hI : ∀ e, I' e → I e) : Ensures I' R m Q :=
  fun e a e' he => h e a e' (hI e he)

theorem ensures_pure (hR : Composes I R) {a : α} (h : Q a) : Ensures I R (pure a) Q := by
  intro e b e' _ hrun
  cases hrun
  exact ⟨hR.refl e, h⟩

/-- A successful run of two computations in a row. -/
theorem run_bind_eq_ok {f : α → Emit β} {e e' : Emission} {b : β} :
    (m >>= f).run e = .ok (b, e') ↔
      ∃ a e₁, m.run e = .ok (a, e₁) ∧ (f a).run e₁ = .ok (b, e') := by
  rw [Emit.run_bind]
  cases hm : m.run e with
  | error err => simp [bind, Except.bind]
  | ok p => simp [bind, Except.bind, Prod.ext_iff]

theorem ensures_bind (hR : Composes I R) {f : α → Emit β} {Q' : β → Prop}
    (hm : Ensures I R m Q) (hf : ∀ a, Q a → Ensures I R (f a) Q') :
    Ensures I R (m >>= f) Q' := by
  intro e b e' he hrun
  obtain ⟨a, e₁, hfirst, hsecond⟩ := run_bind_eq_ok.mp hrun
  obtain ⟨hR₁, hQ⟩ := hm e a e₁ he hfirst
  obtain ⟨hR₂, hQ'⟩ := hf a hQ e₁ b e' (hR.stable hR₁ he) hsecond
  exact ⟨hR.trans hR₁ hR₂, hQ'⟩

theorem ensures_throw {err : TranslateError} : Ensures I R (throw err : Emit α) Q := by
  intro e a e' _ hrun
  cases hrun

theorem ensures_get (hR : Composes I R) : Ensures I R (get : Emit Emission) I := by
  intro e a e' he hrun
  cases hrun
  exact ⟨hR.refl e, he⟩

theorem ensures_modify {f : Emission → Emission} (h : ∀ e, R e (f e)) :
    Ensures I R (modify f : Emit Unit) fun _ => True := by
  intro e a e' _ hrun
  cases hrun
  exact ⟨h e, trivial⟩

/-- Several computations in a row. -/
theorem ensures_mapM (hR : Composes I R) {f : α → Emit β} {Q : α → β → Prop} :
    {xs : List α} → (∀ x ∈ xs, Ensures I R (f x) (Q x)) →
      Ensures I R (xs.mapM f) fun ys => List.Forall₂ Q xs ys
  | [], _ => by
      rw [List.mapM_nil]
      exact ensures_pure hR .nil
  | x :: xs, h => by
      rw [List.mapM_cons]
      refine ensures_bind hR (h x (by simp)) fun y hy => ?_
      refine ensures_bind hR (ensures_mapM hR fun x hx => h x (by simp [hx])) fun ys hys => ?_
      exact ensures_pure hR (.cons hy hys)

end Ensures

/-- A computation that succeeds on every emission where something holds. -/
def Succeeds {α : Type} (I : Emission → Prop) (m : Emit α) : Prop :=
  ∀ e, I e → ∃ a e', m.run e = .ok (a, e')

section Succeeds

variable {α β : Type} {I : Emission → Prop} {R : Emission → Emission → Prop} {m : Emit α}
  {Q : α → Prop}

theorem succeeds_pure (a : α) : Succeeds I (pure a : Emit α) :=
  fun e _ => ⟨a, e, rfl⟩

theorem succeeds_get : Succeeds I (get : Emit Emission) :=
  fun e _ => ⟨e, e, rfl⟩

theorem succeeds_modify (f : Emission → Emission) : Succeeds I (modify f : Emit Unit) :=
  fun e _ => ⟨(), f e, rfl⟩

/-- Two computations in a row succeed if the first one does and what it ensures is
enough for the second one. -/
theorem succeeds_bind (hR : Composes I R) {f : α → Emit β} (hm : Succeeds I m)
    (hens : Ensures I R m Q) (hf : ∀ a, Q a → Succeeds I (f a)) : Succeeds I (m >>= f) := by
  intro e he
  obtain ⟨a, e₁, hfirst⟩ := hm e he
  obtain ⟨hrel, hQ⟩ := hens e a e₁ he hfirst
  obtain ⟨b, e', hsecond⟩ := hf a hQ e₁ (hR.stable hrel he)
  exact ⟨b, e', run_bind_eq_ok.mpr ⟨a, e₁, hfirst, hsecond⟩⟩

theorem succeeds_mapM (hR : Composes I R) {f : α → Emit β} {Q : α → β → Prop} :
    {xs : List α} → (∀ x ∈ xs, Succeeds I (f x)) → (∀ x ∈ xs, Ensures I R (f x) (Q x)) →
      Succeeds I (xs.mapM f)
  | [], _, _ => by
      rw [List.mapM_nil]
      exact succeeds_pure []
  | x :: xs, h, hens => by
      rw [List.mapM_cons]
      have hrest : Succeeds I (xs.mapM f) :=
        succeeds_mapM hR (fun y hy => h y (by simp [hy])) fun y hy => hens y (by simp [hy])
      refine succeeds_bind hR (h x (by simp)) (hens x (by simp)) fun y _ => ?_
      exact succeeds_bind hR hrest (ensures_mapM hR fun y hy => hens y (by simp [hy]))
        fun ys _ => succeeds_pure _

end Succeeds

/-! ## Calls that do not fail -/

section Calls

open Target

variable {cfg : Config} {s : Store} {e e' : Emission}

/-- What an emission holds beyond an earlier one is what has been added to it. -/
theorem Emission.declarationsFrom_eq {ds : List Decl}
    (h : e'.declarations.toList = e.declarations.toList ++ ds) :
    e'.declarationsFrom e.declarations.size = ds := by
  rw [declarationsFrom, h, ← Array.length_toList, List.drop_left]

/-- A term is translated in a unit of its own, and comes with the declarations that have been
added by then. -/
theorem run_of_translate_eq_ok {root : TermId} {t : TranslatedTerm}
    (h : cfg.translate s root e = (.ok t, e')) :
    (translateLifted cfg s (cfg.translateNode s) (Scope.ofUnit cfg e s [root]) root).run e =
        .ok (t.term, e') ∧
      t.declarations = e'.declarationsFrom e.declarations.size := by
  obtain ⟨_, _, hbefore, hrun⟩ := run_bind_eq_ok.mp (Emission.attempt_eq_ok.mp h)
  cases hbefore
  obtain ⟨term, e₁, hroot, hrun⟩ := run_bind_eq_ok.mp hrun
  obtain ⟨_, _, hafter, hrun⟩ := run_bind_eq_ok.mp hrun
  cases hafter
  cases hrun
  obtain ⟨_, _, hstart, hlifted⟩ := run_bind_eq_ok.mp hroot
  cases hstart
  exact ⟨hlifted, rfl⟩

/-- A definition is translated in a unit of its own, and added behind the declarations that
have been added by then. -/
theorem run_of_define_eq_ok {name : String} {ty body : TermId} {d : Decl}
    (h : cfg.define s name ty body e = (.ok d, e')) :
    ∃ e₁, (translateDefinition cfg s (cfg.translateNode s) (Scope.ofUnit cfg e s [ty, body])
        (escape name) ty body).run e = .ok (d, e₁) ∧ e' = e₁.push d := by
  obtain ⟨_, _, hstart, hrun⟩ := run_bind_eq_ok.mp (Emission.attempt_eq_ok.mp h)
  cases hstart
  obtain ⟨d', e₁, hd, hrun⟩ := run_bind_eq_ok.mp hrun
  obtain ⟨_, _, hpush, hrun⟩ := run_bind_eq_ok.mp hrun
  cases hpush
  cases hrun
  exact ⟨e₁, hd, rfl⟩

end Calls

end TermGraph
