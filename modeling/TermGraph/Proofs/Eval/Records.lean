import Mathlib
import TermGraph.Proofs.Eval.Independent
import TermGraph.Proofs.Translate.Records

/-!
# Records with fields in any order

The order in which a record lists its fields makes no difference.  The translator and the shapes
of types sort the fields before they look at any of them.  The evaluator takes them in the order
in which they are listed and sorts what they give, so there the reason is another one: the fields
do not depend on each other.  Data is the same in both orders.  A function that both of two fields
give may hold what either of them has been applied to, without ever reading it, and which of the
two it holds depends on the order.
-/

namespace TermGraph

open EvalM (Converges)
open Value (Similar SimilarFields SimilarOn Fits)

variable {β : Type} {s : Store}

/-! ## Fields one after the other -/

theorem mapM_named {α : Type} (f : String × TermId → EvalM β α) (fields : List (String × TermId)) :
    (fields.mapM fun p => do return (p.1, ← f p)) = do
      return (fields.map (·.1)).zip (← fields.mapM f) := by
  induction fields with
  | nil => rfl
  | cons p rest ih =>
      rw [List.mapM_cons, List.mapM_cons, ih]
      simp only [bind_assoc, pure_bind, List.map_cons, List.zip_cons_cons]

/-- Values that stand for fields make a record that stands for what the fields give. -/
theorem DenotesAt.fields {c : Setting β} {T : Side c} {σ τ : Sources β}
    {f : Nat → String × TermId → EvalM β (Value β)} {U : String × TermId → Value β}
    {fields : List (String × TermId)}
    (h : ∀ p ∈ fields, DenotesAt s T σ τ (fun n => f n p) (U p)) :
    DenotesAt s T σ τ
      (fun n => do return .ofFields (← fields.mapM fun p => do return (p.1, ← f n p)))
      (.ofFields (fields.map fun p => (p.1, U p))) := by
  intro ev' hev'
  obtain ⟨ws, ev₁, hconv, hlater, hws⟩ := DenotesAt.mapM h hev'
  have hfields : SimilarFields s σ (T.sources ev₁) (fields.map fun p => (p.1, U p))
      ((fields.map (·.1)).zip ws) := by
    clear h hconv
    induction hws with
    | nil => exact .nil
    | cons hw _ ih => exact .cons ⟨rfl, hw⟩ ih
  refine ⟨_, ev₁, ?_, hlater, Value.similar_ofFields hfields⟩
  simp only [mapM_named, bind_assoc, pure_bind]
  exact hconv.bind (.of_forall fun _ => rfl)

/-! ## Nodes -/

section Fits

variable {σ : Sources β} {id id' : TermId} {fields fields' : List (String × TermId)} {env : Env β}

theorem Env.Fits.nil (s : Store) (σ : Sources β) (id : TermId) : Env.Fits s σ id [] :=
  fun i _ v hv => by simp at hv

theorem Store.Reorders.fits_field (h : s.Reorders id id' fields fields') (henv : env.Fits s σ id)
    {p : String × TermId} (hp : p ∈ fields) : env.Fits s σ p.2 :=
  fun i hi => henv i (Store.mem_looseVars_of_part (h.part_mem hp) hi)

theorem Store.Reorders.fits (h : s.Reorders id id' fields fields') (henv : env.Fits s σ id) :
    env.Fits s σ id' :=
  fun i hi => henv i (h.mem_looseVars hi)

end Fits

variable [BitLike β] [DecidableEq β] {ev₀ ev : Evaluator β} {id id' : TermId}
  {fields fields' : List (String × TermId)} {env : Env β}

/-- What stands for a node that is evaluated by the reference stands for it whatever has been
kept, unless it is given. -/
theorem Coherent.denotesAt_node (h₀ : Coherent s ev₀) (hstretch : Stretch s ev₀ ev₀ ev)
    (henv : env.Fits s (ev.heap.sources ev₀.view) id) (hgiven : ev₀.given.nodes id = none)
    (hnode : ∀ ident ty body, s.node id ≠ .constant ident ty body) {υ : Sources β} {u : Value β}
    (h : DenotesAt s ev₀.side υ (ev.heap.sources ev₀.view)
      (fun n => evalNode s ((ev₀.reference s).calls n) id env) u) :
    DenotesAt s ((ev₀.reference s).keeper ev₀.view) υ (ev.heap.sources ev₀.view)
      (fun n => Evaluator.eval s n id env) u := by
  have hstep (n : Nat) : ((ev₀.reference s).calls (n + 1)).eval id env =
      evalNode s ((ev₀.reference s).calls n) id env := by
    have hnone : (ev₀.reference s).given.nodes id = none := hgiven
    rw [Reference.eval_succ, Given.step, hnone]
    dsimp only
    split
    · rename_i ident ty body hconstant
      exact absurd hconstant (hnode ident ty body)
    · rfl
  have hreference : DenotesAt s ev₀.side υ (ev.heap.sources ev₀.view)
      (fun n => ((ev₀.reference s).calls n).eval id env) u := by
    intro ev' hev'
    obtain ⟨w, ev₁, hconv, hrest⟩ := h ev' hev'
    refine ⟨w, ev₁, .of_succ ?_, hrest⟩
    simpa only [hstep] using hconv
  exact hreference.across (hstretch.at_side h₀) fun fuel =>
    (h₀.followed fuel).eval (henv.similarOn (.refl _) (.refl _))

/-- A record stands for its node if its fields stand for what they are in the reference. -/
theorem Coherent.denotesAt_record (h₀ : Coherent s ev₀) (hstretch : Stretch s ev₀ ev₀ ev)
    (henv : env.Fits s (ev.heap.sources ev₀.view) id) (hgiven : ev₀.given.nodes id = none)
    (hnode : s.node id = .record fields) {υ : Sources β} {U : String × TermId → Value β}
    (hU : ∀ p ∈ fields, DenotesAt s ev₀.side υ (ev.heap.sources ev₀.view)
      (fun n => ((ev₀.reference s).calls n).eval p.2 env) (U p)) :
    DenotesAt s ((ev₀.reference s).keeper ev₀.view) υ (ev.heap.sources ev₀.view)
      (fun n => Evaluator.eval s n id env) (.ofFields (fields.map fun p => (p.1, U p))) := by
  refine h₀.denotesAt_node hstretch henv hgiven (by simp [hnode]) ?_
  simp only [evalNode, hnode]
  exact DenotesAt.fields hU

/-- One record stands for two nodes that have the same fields in different orders. -/
theorem Store.Reorders.exists_denotesAt (h : s.Reorders id id' fields fields')
    (hnode : s.node id = .record fields) (h₀ : Coherent s ev₀) (hstretch : Stretch s ev₀ ev₀ ev)
    (henv : env.Fits s (ev.heap.sources ev₀.view) id)
    (hgiven : ev₀.given.nodes id = none) (hgiven' : ev₀.given.nodes id' = none)
    (hfields : ∀ p ∈ fields, ∃ ev_p fuel v ev_v,
      ((ev₀.reference s).keeper ev₀.view).At (ev.heap.sources ev₀.view) ev_p ∧
        (Evaluator.eval s fuel p.2 env).exec ev_p = (.ok v, ev_v)) :
    ∃ (υ : Sources β) (vs : List (String × Value β)), vs.map (·.1) = fields.map (·.1) ∧
      DenotesAt s ((ev₀.reference s).keeper ev₀.view) υ (ev.heap.sources ev₀.view)
        (fun n => Evaluator.eval s n id env) (.ofFields vs) ∧
      DenotesAt s ((ev₀.reference s).keeper ev₀.view) υ (ev.heap.sources ev₀.view)
        (fun n => Evaluator.eval s n id' env) (.ofFields vs) := by
  have hnode' := h.node_record hnode
  have hself {p : String × TermId} (hp : p ∈ fields) :=
    (h.fits_field henv hp).similarOn (.refl _) (.refl _)
  obtain ⟨ev_u, -, hu⟩ := TermGraph.exists_denotesAt (s := s)
    (f := fun n (p : String × TermId) => (Evaluator.calls s n).eval p.2 env)
    (g := fun n (p : String × TermId) => ((ev₀.reference s).calls n).eval p.2 env)
    (fun p (hp : p ∈ fields) fuel => (h₀.follows fuel).eval (hself hp))
    (fun p hp fuel => (h₀.followed fuel).eval (hself hp)) (hstretch.at_side h₀) hfields
  choose! U hU using hu
  -- What stands for the fields stands for them in the reference as well, which evaluates both
  -- records field by field.
  have hfield (p : String × TermId) (hp : p ∈ fields) :=
    (hU p hp).across (hstretch.at_keeper h₀) fun fuel => (h₀.follows fuel).eval (hself hp)
  refine ⟨_, fields.map fun p => (p.1, U p), by simp [Function.comp_def],
    h₀.denotesAt_record hstretch henv hgiven hnode hfield, ?_⟩
  have hsorted : Value.ofFields (fields.map fun p => (p.1, U p)) =
      .ofFields (fields'.map fun p => (p.1, U p)) := by
    refine congrArg Value.record (Value.sortFields_eq_of_perm ?_ (h.perm.map _))
    simpa [Function.comp_def] using h.names
  rw [hsorted]
  exact h₀.denotesAt_record hstretch (h.fits henv) hgiven' hnode' fun p hp =>
    hfield p (h.perm.mem_iff.mpr hp)

/-- Two evaluations, each from its own state, give one record, up to what an evaluator may keep: a
record of some names in ascending order, whose fields stand for the same.  Records of data are
equal. -/
def SameRecord (s : Store) (ev₀ : Evaluator β) (names : List String)
    (m : Nat → EvalM β (Value β)) (ev : Evaluator β) (m' : Nat → EvalM β (Value β))
    (ev' : Evaluator β) : Prop :=
  ∃ vs ev₁ ws ev₁', Converges m ev (.ok (.record vs), ev₁) ∧
    Converges m' ev' (.ok (.record ws), ev₁') ∧ (vs.map (·.1)).Pairwise (· < ·) ∧
    (vs.map (·.1)).Perm names ∧
    List.Forall₂ (fun f g => f.1 = g.1 ∧ SameMeaning s ev₀ ev₁ f.2 ev₁' g.2) vs ws ∧
    ((Value.record vs).isData = true → ws = vs)

theorem sameRecord_of_denotesAt {σ υ : Sources β} {vs : List (String × Value β)}
    (hnames : (vs.map (·.1)).Nodup) {m m' : Nat → EvalM β (Value β)} {ev' : Evaluator β}
    (hev : ((ev₀.reference s).keeper ev₀.view).At σ ev)
    (hev' : ((ev₀.reference s).keeper ev₀.view).At σ ev')
    (hm : DenotesAt s ((ev₀.reference s).keeper ev₀.view) υ σ m (.ofFields vs))
    (hm' : DenotesAt s ((ev₀.reference s).keeper ev₀.view) υ σ m' (.ofFields vs)) :
    SameRecord s ev₀ (vs.map (·.1)) m ev m' ev' := by
  obtain ⟨v, ev₁, hconv, -, hv⟩ := hm ev hev
  obtain ⟨w, ev₁', hconv', -, hw⟩ := hm' ev' hev'
  obtain ⟨fs, rfl, hfs⟩ := hv.of_record
  obtain ⟨gs, rfl, hgs⟩ := hw.of_record
  have hsame : SameMeaning s ev₀ ev₁ (.record fs) ev₁' (.record gs) := hv.symm.trans hw
  have hsorted : (Value.sortFields vs).map (·.1) = fs.map (·.1) := Value.names_eq_of_forall₂ hfs
  obtain ⟨_, hrecord, hfields⟩ := Similar.of_record hsame
  cases hrecord
  refine ⟨fs, ev₁, gs, ev₁', hconv, hconv', ?_, ?_, hfields, fun hdata => ?_⟩
  · rw [← hsorted, List.pairwise_map]
    exact Value.pairwise_sortFields vs
  · rw [← hsorted]
    exact (Value.sortFields_perm hnames).map _
  · exact Value.record.inj (hsame.eq_of_isData hdata)

/-! ## Evaluations -/

/-- A later state of a stretch. -/
theorem Stretch.at_keeper_later (h₀ : Coherent s ev₀) (hstretch : Stretch s ev₀ ev₀ ev)
    {ev₁ : Evaluator β} (hlater : Stretch s ev₀ ev ev₁) :
    ((ev₀.reference s).keeper ev₀.view).At (ev.heap.sources ev₀.view) ev₁ :=
  (hlater.later h₀ (hstretch.later h₀ h₀.sound).holds).at (hstretch.at_keeper h₀)

/-- Such a state when an evaluation starts. -/
theorem Stretch.at_keeper_startPass (h₀ : Coherent s ev₀) (hstretch : Stretch s ev₀ ev₀ ev)
    {ev₁ : Evaluator β} (hlater : Stretch s ev₀ ev ev₁)
    (hnodes : ∀ c, ev₀.given.nodes c = none) (root : TermId) :
    ((ev₀.reference s).keeper ev₀.view).At (ev.heap.sources ev₀.view)
      (ev₁.startPass (s.sharedTerms root s.isMemoizable)) :=
  have h := hstretch.at_keeper_later h₀ hlater
  ⟨h.holds.startPass hnodes root, h.sources_le⟩

section Reordered

variable {ev₁ ev₂ : Evaluator β} (h : s.Reorders id id' fields fields') (h₀ : Coherent s ev₀)
  (hstretch : Stretch s ev₀ ev₀ ev) (hev₁ : Stretch s ev₀ ev ev₁) (hev₂ : Stretch s ev₀ ev ev₂)

include h h₀ hstretch hev₁ hev₂

/-- Two records give one record in an environment. -/
theorem Store.Reorders.sameRecord_eval (hnode : s.node id = .record fields)
    (henv : env.Fits s (ev.heap.sources ev₀.view) id)
    (hgiven : ev₀.given.nodes id = none) (hgiven' : ev₀.given.nodes id' = none)
    (hfields : ∀ p ∈ fields, ∃ ev_p fuel v ev_v, Stretch s ev₀ ev ev_p ∧
      (Evaluator.eval s fuel p.2 env).exec ev_p = (.ok v, ev_v)) :
    SameRecord s ev₀ (fields.map (·.1)) (fun fuel => Evaluator.eval s fuel id env) ev₁
      (fun fuel => Evaluator.eval s fuel id' env) ev₂ := by
  obtain ⟨υ, vs, hnames, hid, hid'⟩ := h.exists_denotesAt hnode h₀ hstretch henv hgiven hgiven'
    fun p hp => by
      obtain ⟨ev_p, fuel, v, ev_v, hev_p, hrun⟩ := hfields p hp
      exact ⟨ev_p, fuel, v, ev_v, hstretch.at_keeper_later h₀ hev_p, hrun⟩
  rw [← hnames]
  exact sameRecord_of_denotesAt (hnames ▸ h.names) (hstretch.at_keeper_later h₀ hev₁)
    (hstretch.at_keeper_later h₀ hev₂) hid hid'

/-- Two records give one record as terms of their own. -/
theorem Store.Reorders.sameRecord_evaluate (hnode : s.node id = .record fields)
    (hnodes : ∀ c, ev₀.given.nodes c = none)
    (hfields : ∀ p ∈ fields, ∃ ev_p fuel v ev_v, Stretch s ev₀ ev ev_p ∧
      (Evaluator.evaluate s fuel p.2).exec ev_p = (.ok v, ev_v)) :
    SameRecord s ev₀ (fields.map (·.1)) (fun fuel => Evaluator.evaluate s fuel id) ev₁
      (fun fuel => Evaluator.evaluate s fuel id') ev₂ := by
  obtain ⟨υ, vs, hnames, hid, hid'⟩ := h.exists_denotesAt hnode h₀ hstretch (.nil s _ id)
    (hnodes id) (hnodes id') fun p hp => by
      obtain ⟨ev_p, fuel, v, ev_v, hev_p, hrun⟩ := hfields p hp
      rw [exec_evaluate_eq] at hrun
      exact ⟨_, fuel, v, ev_v, hstretch.at_keeper_startPass h₀ hev_p hnodes p.2, hrun⟩
  rw [← hnames]
  obtain ⟨vs', ev₁', ws, ev₂', hconv, hconv', hrest⟩ := sameRecord_of_denotesAt (hnames ▸ h.names)
    (hstretch.at_keeper_startPass h₀ hev₁ hnodes id)
    (hstretch.at_keeper_startPass h₀ hev₂ hnodes id') hid hid'
  refine ⟨vs', ev₁', ws, ev₂', ?_, ?_, hrest⟩
  · simpa only [Converges, exec_evaluate_eq] using hconv
  · simpa only [Converges, exec_evaluate_eq] using hconv'

end Reordered

/-- A record type is erased, whatever its fields. -/
theorem Coherent.converges_recordType (h₀ : Coherent s ev₀) (hstretch : Stretch s ev₀ ev₀ ev)
    {ev₁ : Evaluator β} (hev₁ : ((ev₀.reference s).keeper ev₀.view).At
      (ev.heap.sources ev₀.view) ev₁)
    (henv : env.Fits s (ev.heap.sources ev₀.view) id) (hgiven : ev₀.given.nodes id = none)
    (hnode : s.node id = .recordType fields) :
    ∃ ev', Converges (fun fuel => Evaluator.eval s fuel id env) ev₁ (.ok .type, ev') := by
  have hdenotes : DenotesAt s ((ev₀.reference s).keeper ev₀.view) (ev.heap.sources ev₀.view)
      (ev.heap.sources ev₀.view) (fun n => Evaluator.eval s n id env) .type := by
    refine h₀.denotesAt_node hstretch henv hgiven (by simp [hnode]) fun ev' hev' => ?_
    refine ⟨.type, ev', .of_forall fun n => ?_, .refl hev'.holds, .atom rfl⟩
    rw [evalNode, hnode]
    rfl
  obtain ⟨w, ev', hconv, -, hw⟩ := hdenotes ev₁ hev₁
  rw [hw.eq_of_isAtom rfl] at hconv
  exact ⟨ev', hconv⟩

theorem Coherent.converges_evaluate_recordType (h₀ : Coherent s ev₀)
    (hstretch : Stretch s ev₀ ev₀ ev) {ev₁ : Evaluator β} (hev₁ : Stretch s ev₀ ev ev₁)
    (hnodes : ∀ c, ev₀.given.nodes c = none) (hnode : s.node id = .recordType fields) :
    ∃ ev', Converges (fun fuel => Evaluator.evaluate s fuel id) ev₁ (.ok .type, ev') := by
  have htype := h₀.converges_recordType hstretch
    (hstretch.at_keeper_startPass h₀ hev₁ hnodes id) (.nil s _ id) (hnodes id) hnode
  simpa only [Converges, exec_evaluate_eq] using htype

/-! ## From one state -/

/-- What has been kept for nodes makes no difference to an evaluation, which starts by dropping
it. -/
theorem exec_evaluate_startPass (s : Store) (fuel : Nat) (root : TermId) (shared : List TermId)
    (ev : Evaluator β) : (Evaluator.evaluate s fuel root).exec (ev.startPass shared) =
      (Evaluator.evaluate s fuel root).exec ev := by
  rw [exec_evaluate_eq, exec_evaluate_eq]
  rfl

omit [BitLike β] [DecidableEq β] in
theorem Coherent.startPass (h : Coherent s ev) : Coherent s (ev.startPass []) where
  host := h.host
  closed id hid := by simp [Evaluator.startPass] at hid
  overrides := h.overrides
  freeValues := h.freeValues
  memo id v hv := by simp [Evaluator.startPass] at hv
  constants := h.constants
  elements := h.elements
  sources := h.sources

omit [BitLike β] [DecidableEq β] in
theorem given_nodes_startPass (ev : Evaluator β) (c : TermId) :
    (ev.startPass []).given.nodes c = none := by
  simp [Evaluator.given, Evaluator.startPass]

theorem Store.Reorders.sameRecord_evaluate_self (h : s.Reorders id id' fields fields')
    (h₀ : Coherent s ev₀) (hnode : s.node id = .record fields)
    (hfields : ∀ p ∈ fields, ∃ fuel v ev_v,
      (Evaluator.evaluate s fuel p.2).exec ev₀ = (.ok v, ev_v)) :
    SameRecord s ev₀ (fields.map (·.1)) (fun fuel => Evaluator.evaluate s fuel id) ev₀
      (fun fuel => Evaluator.evaluate s fuel id') ev₀ := by
  obtain ⟨vs, ev₁, ws, ev₁', hconv, hconv', hrest⟩ :=
    h.sameRecord_evaluate h₀.startPass .refl .refl .refl hnode (given_nodes_startPass ev₀)
      fun p hp => by
        obtain ⟨fuel, v, ev_v, hrun⟩ := hfields p hp
        exact ⟨_, fuel, v, ev_v, .refl, (exec_evaluate_startPass s fuel p.2 [] ev₀).trans hrun⟩
  refine ⟨vs, ev₁, ws, ev₁', ?_, ?_, hrest⟩
  · simpa only [Converges, exec_evaluate_startPass] using hconv
  · simpa only [Converges, exec_evaluate_startPass] using hconv'

theorem Coherent.converges_evaluate_recordType_self (h₀ : Coherent s ev₀)
    (hnode : s.node id = .recordType fields) :
    ∃ ev', Converges (fun fuel => Evaluator.evaluate s fuel id) ev₀ (.ok .type, ev') := by
  have htype := h₀.startPass.converges_evaluate_recordType .refl .refl (given_nodes_startPass ev₀)
    hnode
  simpa only [Converges, exec_evaluate_startPass] using htype

/-! ## Main results -/

/-- The order in which records and record types list their fields makes no difference.  Let two
records, or two record types, have the same fields in two orders, and let the names be different.

At every place of a term the translator runs the same computation for both of them, and so it does
for both of them as terms of a session, whatever has been emitted: it gives the same term or the
same error, and emits the same declarations in the same order.  The record types have one shape,
or one error, and the shape has the fields in ascending order of their names.

While nothing that an evaluator reads is changed, the records evaluate as soon as each of their
fields does, in an environment as well as on their own.  They give records of the same names in
ascending order, whose fields stand for the same; if they are data, they are equal.  Values of the
two nodes that have been kept from before are taken as they are in an environment, so there may be
none.  Evaluations of terms drop what has been kept: from one state they give one record, whatever
this state keeps.  Record types are erased. -/
theorem records_ignore_order (h : s.Reorders id id' fields fields') :
    (∀ cfg : Config, (∀ scope, cfg.translateNode s scope id = cfg.translateNode s scope id') ∧
      ∀ e, cfg.translate s id e = cfg.translate s id' e) ∧
    (s.node id = .recordType fields → Shape.ofType s id = Shape.ofType s id' ∧
      ∀ shape, Shape.ofType s id = .ok shape → ∃ shapes, shape = .record shapes ∧
        (shapes.map (·.1)).Pairwise (· < ·) ∧ (shapes.map (·.1)).Perm (fields.map (·.1))) ∧
    ∀ (β : Type) [BitLike β] [DecidableEq β] (ev₀ : Evaluator β), Coherent s ev₀ →
      (∀ ev ev₁ ev₂, Stretch s ev₀ ev₀ ev → Stretch s ev₀ ev ev₁ → Stretch s ev₀ ev ev₂ →
        (∀ env, env.Fits s (ev.heap.sources ev₀.view) id → ev₀.given.nodes id = none →
          ev₀.given.nodes id' = none →
          (s.node id = .record fields →
            (∀ p ∈ fields, ∃ ev_p fuel v ev_v, Stretch s ev₀ ev ev_p ∧
              (Evaluator.eval s fuel p.2 env).exec ev_p = (.ok v, ev_v)) →
            SameRecord s ev₀ (fields.map (·.1)) (fun fuel => Evaluator.eval s fuel id env) ev₁
              (fun fuel => Evaluator.eval s fuel id' env) ev₂) ∧
          (s.node id = .recordType fields →
            (∃ ev', Converges (fun fuel => Evaluator.eval s fuel id env) ev₁ (.ok .type, ev')) ∧
            ∃ ev', Converges (fun fuel => Evaluator.eval s fuel id' env) ev₂ (.ok .type, ev'))) ∧
        ((∀ c, ev₀.given.nodes c = none) →
          (s.node id = .record fields →
            (∀ p ∈ fields, ∃ ev_p fuel v ev_v, Stretch s ev₀ ev ev_p ∧
              (Evaluator.evaluate s fuel p.2).exec ev_p = (.ok v, ev_v)) →
            SameRecord s ev₀ (fields.map (·.1)) (fun fuel => Evaluator.evaluate s fuel id) ev₁
              (fun fuel => Evaluator.evaluate s fuel id') ev₂) ∧
          (s.node id = .recordType fields →
            (∃ ev', Converges (fun fuel => Evaluator.evaluate s fuel id) ev₁ (.ok .type, ev')) ∧
            ∃ ev', Converges (fun fuel => Evaluator.evaluate s fuel id') ev₂
              (.ok .type, ev')))) ∧
      (s.node id = .record fields →
        (∀ p ∈ fields, ∃ fuel v ev_v, (Evaluator.evaluate s fuel p.2).exec ev₀ = (.ok v, ev_v)) →
        SameRecord s ev₀ (fields.map (·.1)) (fun fuel => Evaluator.evaluate s fuel id) ev₀
          (fun fuel => Evaluator.evaluate s fuel id') ev₀) ∧
      (s.node id = .recordType fields →
        (∃ ev', Converges (fun fuel => Evaluator.evaluate s fuel id) ev₀ (.ok .type, ev')) ∧
        ∃ ev', Converges (fun fuel => Evaluator.evaluate s fuel id') ev₀ (.ok .type, ev')) := by
  refine ⟨fun cfg => ⟨h.translateNode_eq cfg, h.translate_eq cfg⟩, fun hnode => ⟨?_, ?_⟩,
    fun β _ _ ev₀ h₀ => ⟨fun ev ev₁ ev₂ hstretch hev₁ hev₂ => ⟨fun env henv hgiven hgiven' =>
      ⟨?_, fun hnode => ?_⟩, fun hnodes => ⟨?_, fun hnode => ?_⟩⟩, ?_, fun hnode => ?_⟩⟩
  · exact Shape.ofType_eq_of_perm hnode (h.node_recordType hnode) h.names h.perm
  · exact fun shape => Shape.of_ofType_recordType hnode h.names
  · exact fun hnode hfields =>
      h.sameRecord_eval h₀ hstretch hev₁ hev₂ hnode henv hgiven hgiven' hfields
  · exact ⟨h₀.converges_recordType hstretch (hstretch.at_keeper_later h₀ hev₁) henv hgiven hnode,
      h₀.converges_recordType hstretch (hstretch.at_keeper_later h₀ hev₂) (h.fits henv) hgiven'
        (h.node_recordType hnode)⟩
  · exact fun hnode hfields => h.sameRecord_evaluate h₀ hstretch hev₁ hev₂ hnode hnodes hfields
  · exact ⟨h₀.converges_evaluate_recordType hstretch hev₁ hnodes hnode,
      h₀.converges_evaluate_recordType hstretch hev₂ hnodes (h.node_recordType hnode)⟩
  · exact fun hnode hfields => h.sameRecord_evaluate_self h₀ hnode hfields
  · exact ⟨h₀.converges_evaluate_recordType_self hnode,
      h₀.converges_evaluate_recordType_self (h.node_recordType hnode)⟩

/-- One function in two environments, which it does not read, as the fields of two records; and two
record types. -/
def swappedStore : Store :=
  .ofNodes [.unitType, .bound 0, .lam "z" 0 1, .nat 1, .nat 2, .letIn "x" 0 3 2, .letIn "x" 0 4 2,
    .record [("a", 5), ("b", 6)], .record [("b", 6), ("a", 5)], .pairType 0 0,
    .recordType [("a", 0), ("b", 9)], .recordType [("b", 9), ("a", 0)]]

theorem swappedStore_node :
    swappedStore.node 0 = .unitType ∧ swappedStore.node 1 = .bound 0 ∧
    swappedStore.node 2 = .lam "z" 0 1 ∧ swappedStore.node 3 = .nat 1 ∧
    swappedStore.node 4 = .nat 2 ∧ swappedStore.node 5 = .letIn "x" 0 3 2 ∧
    swappedStore.node 6 = .letIn "x" 0 4 2 ∧
    swappedStore.node 7 = .record [("a", 5), ("b", 6)] ∧
    swappedStore.node 8 = .record [("b", 6), ("a", 5)] ∧
    swappedStore.node 10 = .recordType [("a", 0), ("b", 9)] ∧
    swappedStore.node 11 = .recordType [("b", 9), ("a", 0)] :=
  ⟨rfl, rfl, rfl, rfl, rfl, rfl, rfl, rfl, rfl, rfl, rfl⟩

theorem swappedStore_reorders :
    swappedStore.Reorders 7 8 [("a", 5), ("b", 6)] [("b", 6), ("a", 5)] ∧
      swappedStore.Reorders 10 11 [("a", 0), ("b", 9)] [("b", 9), ("a", 0)] :=
  ⟨⟨.inl ⟨rfl, rfl⟩, by decide, .swap _ _ _⟩, ⟨.inr ⟨rfl, rfl⟩, by decide, .swap _ _ _⟩⟩

/-- Each binding shares nothing, and the first record shares the function. -/
theorem swappedStore_sharedTerms :
    swappedStore.sharedTerms 5 swappedStore.isMemoizable = [] ∧
    swappedStore.sharedTerms 6 swappedStore.isMemoizable = [] ∧
    swappedStore.sharedTerms 7 swappedStore.isMemoizable = [2] := by
  obtain ⟨h0, h1, h2, h3, h4, h5, h6, h7, -⟩ := swappedStore_node
  have hsize : swappedStore.size = 12 := rfl
  have hmemoizable : swappedStore.isMemoizable 0 = false ∧ swappedStore.isMemoizable 1 = false ∧
      swappedStore.isMemoizable 2 = true := by decide +kernel
  refine ⟨Store.sharedTermsBy_eq (by simp) fun t => ?_,
    Store.sharedTermsBy_eq (by simp) fun t => ?_,
    Store.sharedTermsBy_eq (by simp) fun t => ?_⟩ <;>
  match t with
  | 0 | 1 | 2 | 3 | 4 | 5 | 6 | 7 | t + 8 =>
      simp [hsize, Store.tally, Store.tallyOne, h0, h1, h2, h3, h4, h5, h6, h7, Node.children,
        Node.childrenWithDepth, Std.HashMap.getElem_insert, hmemoizable]

/-- A binding gives the function with the number that is bound, unless another value of the
function is kept. -/
theorem exec_swappedStore_binding (ev : Evaluator β) (fuel : Nat) {num k : Nat}
    (hnode : swappedStore.node id = .letIn "x" 0 num 2) (hnum : swappedStore.node num = .nat k)
    (hid : ev.shared.contains id = false) (hn : ev.shared.contains num = false) :
    ∃ ev', (Evaluator.eval swappedStore (fuel + 2) id []).exec ev =
        (.ok (if ev.shared.contains 2 then ev.memo[(2 : TermId)]?.getD (.closure 2 [.nat k])
          else .closure 2 [.nat k]), ev') ∧
      ev'.shared = ev.shared ∧ (ev.shared.contains 2 = true →
        ev'.memo[(2 : TermId)]? = some (ev.memo[(2 : TermId)]?.getD (.closure 2 [.nat k]))) := by
  obtain ⟨-, -, h2, -⟩ := swappedStore_node
  have hvalue : ((Evaluator.calls swappedStore (fuel + 1)).eval num []).exec ev =
      (.ok (.nat k), ev) := by
    refine (exec_eval_of_not_shared fuel [] hn).trans ?_
    rw [evalNode, hnum]
    rfl
  have hfunction (ev : Evaluator β) :
      (evalNode swappedStore (Evaluator.calls swappedStore fuel) 2 [.nat k]).exec ev =
        (.ok (.closure 2 [.nat k]), ev) := by
    rw [evalNode, h2]
    rfl
  rw [exec_eval_of_not_shared (fuel + 1) [] hid, evalNode, hnode]
  dsimp only
  rw [EvalM.exec_bind_ok hvalue]
  change ∃ ev', (evalStep swappedStore (Evaluator.calls swappedStore fuel) 2 [.nat k]).exec ev =
    _ ∧ _
  rw [evalStep, EvalM.exec_bind_ok (EvalM.exec_get _)]
  split
  · cases hmemo : ev.memo[(2 : TermId)]? with
    | some v => exact ⟨ev, rfl, rfl, fun _ => hmemo⟩
    | none =>
        refine ⟨_, EvalM.exec_bind_ok (hfunction ev) _, rfl, fun _ => ?_⟩
        simp
  · exact ⟨ev, hfunction ev, rfl, fun h => absurd h ‹_›⟩

/-- On its own each binding gives the function with its number. -/
theorem evaluate_swappedStore_binding (p : String × TermId)
    (hp : p ∈ [("a", 5), ("b", 6)]) (ev : Evaluator β) :
    ∃ k ev', (Evaluator.evaluate swappedStore 2 p.2).exec ev =
      (.ok (.closure 2 [.nat k]), ev') := by
  obtain ⟨-, -, -, h3, h4, h5, h6, -⟩ := swappedStore_node
  obtain ⟨hshared5, hshared6, -⟩ := swappedStore_sharedTerms
  simp only [List.mem_cons, List.not_mem_nil, or_false] at hp
  obtain ⟨num, k, hnode, hnum, hshared⟩ : ∃ num k, swappedStore.node p.2 = .letIn "x" 0 num 2 ∧
      swappedStore.node num = .nat k ∧
      swappedStore.sharedTerms p.2 swappedStore.isMemoizable = [] := by
    rcases hp with rfl | rfl
    · exact ⟨3, 1, h5, h3, hshared5⟩
    · exact ⟨4, 2, h6, h4, hshared6⟩
  obtain ⟨ev', hrun, -⟩ := exec_swappedStore_binding (ev.startPass []) 0 hnode hnum
    (by simp [Evaluator.startPass]) (by simp [Evaluator.startPass])
  refine ⟨k, ev', ?_⟩
  rw [exec_evaluate_eq, hshared, hrun, if_neg (by simp [Evaluator.startPass])]

/-- A record of two bindings holds the function as the first of them gives it. -/
theorem evaluate_swappedStore_record {id b b' num num' k k' : Nat} {x y : String}
    (hnode : swappedStore.node id = .record [(x, b), (y, b')])
    (hshared : swappedStore.sharedTerms id swappedStore.isMemoizable = [2])
    (hb : swappedStore.node b = .letIn "x" 0 num 2) (hnum : swappedStore.node num = .nat k)
    (hb' : swappedStore.node b' = .letIn "x" 0 num' 2) (hnum' : swappedStore.node num' = .nat k')
    (hne : id ≠ 2 ∧ b ≠ 2 ∧ num ≠ 2 ∧ b' ≠ 2 ∧ num' ≠ 2) (ev : Evaluator β) :
    ∃ ev', (Evaluator.evaluate swappedStore 3 id).exec ev =
      (.ok (.ofFields [(x, .closure 2 [.nat k]), (y, .closure 2 [.nat k])]), ev') := by
  have hnot {c : TermId} (hc : c ≠ 2) : (ev.startPass [2]).shared.contains c = false := by
    simp [Evaluator.startPass, hc.symm]
  have h2 : (ev.startPass [2]).shared.contains 2 = true := by simp [Evaluator.startPass]
  obtain ⟨ev₁, hfirst, hshared₁, hmemo₁⟩ := exec_swappedStore_binding (ev.startPass [2]) 0 hb
    hnum (hnot hne.2.1) (hnot hne.2.2.1)
  obtain ⟨ev₂, hsecond, -⟩ := exec_swappedStore_binding ev₁ 0 hb' hnum'
    (hshared₁ ▸ hnot hne.2.2.2.1) (hshared₁ ▸ hnot hne.2.2.2.2)
  have hnone : (ev.startPass [2]).memo[(2 : TermId)]? = none := Std.HashMap.getElem?_empty
  rw [if_pos h2, hnone, Option.getD_none] at hfirst
  rw [hshared₁, if_pos h2, hmemo₁ h2, hnone, Option.getD_none, Option.getD_some] at hsecond
  refine ⟨ev₂, ?_⟩
  rw [exec_evaluate_eq, hshared, exec_eval_of_not_shared 2 [] (hnot hne.1), evalNode, hnode]
  dsimp only
  have hvalues : ([(x, b), (y, b')].mapM fun p : String × TermId =>
      (Evaluator.calls swappedStore 2).eval p.2 []).exec (ev.startPass [2]) =
        (.ok [.closure 2 [.nat k], .closure 2 [.nat k]], ev₂) := by
    have hrest : ([(y, b')].mapM fun p : String × TermId =>
        (Evaluator.calls swappedStore 2).eval p.2 []).exec ev₁ =
          (.ok [.closure 2 [.nat k]], ev₂) := by
      rw [List.mapM_cons]
      exact EvalM.exec_bind_ok hsecond _
    rw [List.mapM_cons]
    exact (EvalM.exec_bind_ok hfirst _).trans (EvalM.exec_bind_ok hrest _)
  rw [mapM_named fun p => (Evaluator.calls swappedStore 2).eval p.2 [], bind_assoc]
  exact EvalM.exec_bind_ok hvalues _

/-- The records are translated alike, and the record types have one shape.  The two records give
one record, up to the number that the functions in it hold, also if other terms are evaluated in
between. -/
theorem records_ignore_order_swapped :
    swappedStore.Reorders 7 8 [("a", 5), ("b", 6)] [("b", 6), ("a", 5)] ∧
    swappedStore.Reorders 10 11 [("a", 0), ("b", 9)] [("b", 9), ("a", 0)] ∧
    (∀ e, untreated.translate swappedStore 7 e = untreated.translate swappedStore 8 e) ∧
    Shape.ofType swappedStore 10 = Shape.ofType swappedStore 11 ∧
    Coherent swappedStore (.new : Evaluator Anf) ∧
    SameRecord swappedStore (.new : Evaluator Anf) ["a", "b"]
      (fun fuel => Evaluator.evaluate swappedStore fuel 7) .new
      (fun fuel => Evaluator.evaluate swappedStore fuel 8) .new ∧
    ∀ ev, Stretch swappedStore .new .new ev →
      SameRecord swappedStore (.new : Evaluator Anf) ["a", "b"]
        (fun fuel => Evaluator.evaluate swappedStore fuel 7) .new
        (fun fuel => Evaluator.evaluate swappedStore fuel 8) ev := by
  obtain ⟨hrecords, htypes⟩ := swappedStore_reorders
  obtain ⟨-, -, -, -, -, -, -, h7, -, h10, -⟩ := swappedStore_node
  have hcoherent : Coherent swappedStore (.new : Evaluator Anf) := coherent_new swappedStore
  obtain ⟨htranslate, -, hevaluate⟩ := records_ignore_order hrecords
  obtain ⟨-, hshape, -⟩ := records_ignore_order htypes
  obtain ⟨hlater, hself, -⟩ := hevaluate Anf .new hcoherent
  refine ⟨hrecords, htypes, (htranslate untreated).2, (hshape h10).1, hcoherent,
    hself h7 fun p hp => ?_, fun ev hev => ?_⟩
  · obtain ⟨k, ev', hrun⟩ := evaluate_swappedStore_binding p hp (.new : Evaluator Anf)
    exact ⟨2, _, ev', hrun⟩
  · obtain ⟨-, hterms⟩ := hlater .new .new ev .refl .refl hev
    refine (hterms fun c => by simp [Evaluator.given, Evaluator.new]).1 h7 fun p hp => ?_
    obtain ⟨k, ev', hrun⟩ := evaluate_swappedStore_binding p hp (.new : Evaluator Anf)
    exact ⟨.new, 2, _, ev', .refl, hrun⟩

/-- The two records are not equal, though all fields evaluate: both fields hold the function with
the number that it has been met with first. -/
theorem records_hold_first_environment :
    swappedStore.Reorders 7 8 [("a", 5), ("b", 6)] [("b", 6), ("a", 5)] ∧
    (∀ p ∈ [("a", 5), ("b", 6)], ∃ v ev,
      (Evaluator.evaluate swappedStore 2 p.2).exec (.new : Evaluator Anf) = (.ok v, ev)) ∧
    ∃ ev ev' : Evaluator Anf,
      (Evaluator.evaluate swappedStore 3 7).exec .new =
        (.ok (.record [("a", .closure 2 [.nat 1]), ("b", .closure 2 [.nat 1])]), ev) ∧
      (Evaluator.evaluate swappedStore 3 8).exec .new =
        (.ok (.record [("a", .closure 2 [.nat 2]), ("b", .closure 2 [.nat 2])]), ev') ∧
      (Value.record [("a", .closure 2 [.nat 1]), ("b", .closure 2 [.nat 1])] : Value Anf) ≠
        .record [("a", .closure 2 [.nat 2]), ("b", .closure 2 [.nat 2])] := by
  obtain ⟨-, -, -, h3, h4, h5, h6, h7, h8, -⟩ := swappedStore_node
  obtain ⟨-, -, hshared⟩ := swappedStore_sharedTerms
  -- The two records share the same nodes.
  have hshared' : swappedStore.sharedTerms 8 swappedStore.isMemoizable = [2] := by
    rw [← hshared]
    exact (Store.sharedTermsBy_eq_of_perm (fun _ _ => swappedStore.lt_of_mem_children) rfl
      swappedStore_reorders.1.children_perm _).symm
  refine ⟨swappedStore_reorders.1, fun p hp => ?_, ?_⟩
  · obtain ⟨k, ev', hrun⟩ := evaluate_swappedStore_binding p hp (.new : Evaluator Anf)
    exact ⟨_, ev', hrun⟩
  · obtain ⟨ev, hrun⟩ := evaluate_swappedStore_record h7 hshared h5 h3 h6 h4 (by decide)
      (.new : Evaluator Anf)
    obtain ⟨ev', hrun'⟩ := evaluate_swappedStore_record h8 hshared' h6 h4 h5 h3 (by decide)
      (.new : Evaluator Anf)
    exact ⟨ev, ev', hrun, hrun', by simp⟩

end TermGraph
