import Mathlib
import TermGraph.Proofs.Value.IndexTrie
import TermGraph.Proofs.Value.Similar

/-!
# Heaps that grow

Streams are added to a heap and their elements are remembered; neither takes a stream away
or changes where its elements come from.
-/

namespace TermGraph

/-- Which streams of a heap are looked into: those from `start` on.  The ones before are out
of use, unless they are kept as they are. -/
structure View where
  start : StreamId
  keeps : Prop

namespace View

/-- The streams from some on; those before are out of use. -/
def since (start : StreamId) : View :=
  ⟨start, False⟩

/-- All streams. -/
def all : View :=
  .since 0

instance : Coe StreamId View :=
  ⟨.since⟩

end View

namespace Heap

variable {β : Type}

/-- Where the streams that are looked into get their elements from. -/
def sources (h : Heap β) (view : View) : Sources β where
  source id := if view.start ≤ id then h.source? id else none
  kept id := view.keeps ∧ id < view.start
  source_eq_none _ hid := if_neg (Nat.not_le.mpr hid.2)

theorem sources_source (h : Heap β) {view : View} {id : StreamId} (hid : view.start ≤ id) :
    h.sources view id = h.source? id :=
  if_pos hid

theorem of_sources_eq_some {h : Heap β} {view : View} {id : StreamId} {src : StreamSource β}
    (hs : h.sources view id = some src) : view.start ≤ id ∧ h.source? id = some src := by
  change (if view.start ≤ id then h.source? id else none) = some src at hs
  split at hs
  · next hid => exact ⟨hid, hs⟩
  · cases hs

/-- A heap with more streams, of which no element is remembered yet. -/
structure Adds (h h' : Heap β) : Prop where
  size_le : h.cells.size ≤ h'.cells.size
  source : ∀ id src, h.source? id = some src → h'.source? id = some src
  element : ∀ id n, h'.element? id n = h.element? id n

theorem Adds.refl (h : Heap β) : h.Adds h :=
  ⟨le_rfl, fun _ _ hs => hs, fun _ _ => rfl⟩

theorem Adds.trans {h₁ h₂ h₃ : Heap β} (h : h₁.Adds h₂) (h' : h₂.Adds h₃) : h₁.Adds h₃ :=
  ⟨h.size_le.trans h'.size_le, fun id src hs => h'.source id src (h.source id src hs),
    fun id n => (h'.element id n).trans (h.element id n)⟩

theorem adds_alloc (h : Heap β) (src : StreamSource β) : h.Adds (h.alloc src).2 where
  size_le := by simp [alloc]
  source id src' hs := by
    have hid : id ≠ h.cells.size := by
      rintro rfl
      simp [source?] at hs
    simpa [source?, alloc, Array.getElem?_push, hid] using hs
  element id n := by
    by_cases hid : id = h.cells.size
    · subst hid
      simp [element?, alloc, IndexTrie.get?]
    · simp [element?, alloc, Array.getElem?_push, hid]

/-- A new stream has the source that it is made with. -/
theorem sources_alloc {view : View} (h : Heap β) (src : StreamSource β)
    (hstart : view.start ≤ h.cells.size) :
    (h.alloc src).2.sources view (h.alloc src).1 = some src := by
  rw [sources_source _ (by simpa [alloc] using hstart)]
  simp [source?, alloc]

theorem source?_remember (h : Heap β) (id : StreamId) (n : Nat) (v : Value β) (i : StreamId) :
    (h.remember id n v).source? i = h.source? i := by
  by_cases hi : id = i
  · subst hi
    rw [source?, remember, Array.getElem?_modify, if_pos rfl, Option.map_map]
    rfl
  · simp [source?, remember, Array.getElem?_modify, hi]

theorem size_remember (h : Heap β) (id : StreamId) (n : Nat) (v : Value β) :
    (h.remember id n v).cells.size = h.cells.size := by
  simp [remember]

theorem sources_remember (h : Heap β) (id : StreamId) (n : Nat) (v : Value β)
    (view : View) : (h.remember id n v).sources view = h.sources view := by
  simp only [sources, source?_remember]

/-- Remembering an element of a stream that is there changes no other. -/
theorem element?_remember (h : Heap β) (id : StreamId) (n : Nat) (v : Value β) (i : StreamId)
    (m : Nat) : (h.remember id n v).element? i m =
      if i = id ∧ m = n ∧ (h.source? i).isSome then some v else h.element? i m := by
  by_cases hi : i = id
  · subst hi
    rw [element?, element?, remember, Array.getElem?_modify, if_pos rfl, source?]
    cases h.cells[i]? with
    | none => simp
    | some cell =>
        show (cell.memo.insert n v).get? m = _
        rw [IndexTrie.get?_insert]
        by_cases hm : m = n <;> simp [hm]
  · simp [element?, remember, Array.getElem?_modify, hi, Ne.symm hi]

/-- A stream that has an element is there. -/
theorem lt_of_element? {h : Heap β} {id : StreamId} {n : Nat} (hn : h.element? id n ≠ none) :
    id < h.cells.size := by
  by_contra hge
  simp [element?, Array.getElem?_eq_none (Nat.not_lt.mp hge)] at hn

/-- A heap that still has the streams of another one, with the elements remembered there. -/
structure Retains (h h' : Heap β) : Prop where
  source : ∀ id src, h.source? id = some src → h'.source? id = some src
  element : ∀ id n v, h.element? id n = some v → h'.element? id n = some v

theorem Retains.refl (h : Heap β) : h.Retains h :=
  ⟨fun _ _ hs => hs, fun _ _ _ hv => hv⟩

theorem Retains.trans {h₁ h₂ h₃ : Heap β} (h : h₁.Retains h₂) (h' : h₂.Retains h₃) :
    h₁.Retains h₃ :=
  ⟨fun id src hs => h'.source id src (h.source id src hs),
    fun id n v hv => h'.element id n v (h.element id n v hv)⟩

theorem Adds.retains {h h' : Heap β} (hadds : h.Adds h') : h.Retains h' :=
  ⟨hadds.source, fun id n _ hv => (hadds.element id n).trans hv⟩

theorem Retains.sources_le {h h' : Heap β} (hr : h.Retains h') (view : View) :
    (h.sources view).Le (h'.sources view) where
  source id src hs := by
    obtain ⟨hid, hsrc⟩ := of_sources_eq_some hs
    rw [sources_source _ hid]
    exact hr.source id src hsrc
  kept _ hid := hid

theorem Adds.sources_le {h h' : Heap β} (hadds : h.Adds h') (view : View) :
    (h.sources view).Le (h'.sources view) :=
  hadds.retains.sources_le view

/-- What is remembered later on replaces no element if there was none at first. -/
theorem Retains.remember {h h' : Heap β} (hr : h.Retains h') {id : StreamId} {n : Nat}
    (hnone : h.element? id n = none) (v : Value β) : h.Retains (h'.remember id n v) where
  source i src hs := (source?_remember h' id n v i).trans (hr.source i src hs)
  element i m w hw := by
    rw [element?_remember, if_neg]
    · exact hr.element i m w hw
    · rintro ⟨rfl, rfl, -⟩
      rw [hnone] at hw
      cases hw

end Heap

end TermGraph
