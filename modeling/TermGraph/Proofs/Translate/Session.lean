import Mathlib
import TermGraph.Proofs.Translate.Append

/-!
# Module passes

A module pass is a sequence of calls, each for a term or a definition of some store.  A call
that fails takes back what it has emitted, and this leaves everything as it was before the
call: a pass without its failing calls has the same results and ends in the same state.
-/

namespace TermGraph

open Target
open Emit (Appends)

/-- A call of a module pass. -/
inductive ModuleCall where
  | translate (s : Store) (root : TermId)
  | define (s : Store) (name : String) (ty body : TermId)

/-- What a call of a module pass gives. -/
inductive ModuleResult where
  | term (t : TranslatedTerm)
  | definition (d : Decl)

namespace Config

/-- Carries out a call. -/
def perform (cfg : Config) (e : Emission) :
    ModuleCall → Except TranslateError ModuleResult × Emission
  | .translate s root =>
      let (result, e) := cfg.translate s root e
      (result.map .term, e)
  | .define s name ty body =>
      let (result, e) := cfg.define s name ty body e
      (result.map .definition, e)

/-- Carries out several calls, one after the other. -/
def performAll (cfg : Config) (e : Emission) :
    List ModuleCall → List (Except TranslateError ModuleResult) × Emission
  | [] => ([], e)
  | call :: calls =>
      let (result, e) := cfg.perform e call
      let (results, e) := performAll cfg e calls
      (result :: results, e)

/-- The calls that do not fail when all are carried out. -/
def successful (cfg : Config) (e : Emission) (calls : List ModuleCall) : List ModuleCall :=
  ((calls.zip (cfg.performAll e calls).1).filter fun p => p.2.isOk).map (·.1)

end Config

/-! ## Taking back what has been emitted -/

/-- Going back to a point undoes everything that has been added to it. -/
theorem Emission.rollback_checkpoint {e e' : Emission}
    (h : e.declarations.toList <+: e'.declarations.toList) : e'.rollback e.checkpoint = e := by
  have hkept : e'.declarations.take e.declarations.size = e.declarations := by
    rw [← Array.toList_inj, Array.take_eq_extract, Array.toList_extract, List.extract_eq_take_drop]
    simpa using (List.prefix_iff_eq_take.mp h).symm
  rw [rollback, checkpoint, hkept]

/-- An attempt that fails changes nothing. -/
theorem Emission.attempt_error {α : Type} {m : Emit α} (hm : Appends m) {e e' : Emission}
    {err : TranslateError} (h : e.attempt m = (.error err, e')) : e' = e := by
  have hkept := hm e
  rw [attempt] at h
  rcases hrun : m.exec e with ⟨err' | a, e₁⟩ <;> rw [hrun] at h hkept
  · cases h
    exact rollback_checkpoint hkept
  · cases h

section Failures

variable {cfg : Config} {e e' : Emission} {call : ModuleCall} {calls : List ModuleCall}

/-- A call for a term that does not fail gives what its translation gives. -/
theorem perform_translate_eq_ok {s : Store} {root : TermId} {r : ModuleResult}
    (h : cfg.perform e (.translate s root) = (.ok r, e')) :
    ∃ t, cfg.translate s root e = (.ok t, e') ∧ r = .term t := by
  rcases hcall : cfg.translate s root e with ⟨err | t, e₁⟩ <;>
    simp only [Config.perform, hcall] at h <;> cases h
  exact ⟨t, rfl, rfl⟩

/-- A call for a definition that does not fail gives what its translation gives. -/
theorem perform_define_eq_ok {s : Store} {name : String} {ty body : TermId} {r : ModuleResult}
    (h : cfg.perform e (.define s name ty body) = (.ok r, e')) :
    ∃ d, cfg.define s name ty body e = (.ok d, e') ∧ r = .definition d := by
  rcases hcall : cfg.define s name ty body e with ⟨err | d, e₁⟩ <;>
    simp only [Config.perform, hcall] at h <;> cases h
  exact ⟨d, rfl, rfl⟩

/-- A call that fails changes nothing. -/
theorem perform_error {err : TranslateError} (h : cfg.perform e call = (.error err, e')) :
    e' = e := by
  cases call with
  | translate s root =>
      rcases hcall : cfg.translate s root e with ⟨err' | t, e₁⟩ <;>
        simp only [Config.perform, hcall] at h <;> cases h
      exact Emission.attempt_error (appends_termWithDeclarations cfg s root) hcall
  | define s name ty body =>
      rcases hcall : cfg.define s name ty body e with ⟨err' | d, e₁⟩ <;>
        simp only [Config.perform, hcall] at h <;> cases h
      exact Emission.attempt_error (appends_emitDefinition cfg s name ty body) hcall

/-- The first call is carried out before the others. -/
theorem performAll_cons {r : Except TranslateError ModuleResult}
    (h : cfg.perform e call = (r, e')) (calls : List ModuleCall) :
    cfg.performAll e (call :: calls) =
      (r :: (cfg.performAll e' calls).1, (cfg.performAll e' calls).2) := by
  simp [Config.performAll, h]

/-- A first call that does not fail is carried out by the successful calls as well, before
the others. -/
theorem successful_cons_ok {r : ModuleResult} (h : cfg.perform e call = (.ok r, e')) :
    cfg.successful e (call :: calls) = call :: cfg.successful e' calls := by
  simp [Config.successful, performAll_cons h, Except.isOk, Except.toBool]

/-- A first call that fails is left out. -/
theorem successful_cons_error {err : TranslateError}
    (h : cfg.perform e call = (.error err, e')) :
    cfg.successful e (call :: calls) = cfg.successful e calls := by
  obtain rfl := perform_error h
  simp [Config.successful, performAll_cons h, Except.isOk, Except.toBool]

/-- Leaving out the calls that fail leaves out their results only. -/
theorem performAll_successful (cfg : Config) (calls : List ModuleCall) (e : Emission) :
    cfg.performAll e (cfg.successful e calls) =
      ((cfg.performAll e calls).1.filter Except.isOk, (cfg.performAll e calls).2) := by
  induction calls generalizing e with
  | nil => rfl
  | cons call calls ih =>
      rcases h : cfg.perform e call with ⟨err | r, e₁⟩
      · -- The other calls start from the same state, as the failed one has changed nothing.
        rw [successful_cons_error h, ih e]
        obtain rfl := perform_error h
        rw [performAll_cons h]
        rfl
      · rw [successful_cons_ok h, performAll_cons h, performAll_cons h, ih e₁]
        rfl

end Failures

end TermGraph
