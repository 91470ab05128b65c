import Mathlib
import TermGraph.Target.Render

/-!
# The layout of what is written

A writer adds to its text and reads nothing of it.  What it adds depends on the level of
indentation, on whether a line has just begun, and on what it is asked to do: the characters
that it receives, each at the level then in force, cut at the line breaks, are the lines that
it adds, and a line has the margin of its first character.

A declaration leaves the level as it found it, and its last line is ended.  So the
declarations of a list are written as if each list were written by itself.
-/

namespace TermGraph

namespace Target

namespace Writer

/-! ## One character -/

theorem put_newline (w : Writer) :
    w.put '\n' = ⟨w.text ++ "\n", w.level, true⟩ := by
  rw [put, if_pos rfl, String.push_eq_append]
  rfl

theorem put_of_ne {c : Char} (hc : c ≠ '\n') (w : Writer) :
    w.put c =
      ⟨w.text ++ (if w.lineStart then margin w.level else "") ++ String.singleton c,
        w.level, false⟩ := by
  simp only [put, if_neg hc, String.push_eq_append]
  split <;> simp

/-! ## What is there stays -/

/-- The same writer with a text before what it has written. -/
def behind (t : String) (w : Writer) : Writer :=
  { w with text := t ++ w.text }

/-- Writing that does not depend on the text that is there. -/
def Adds (f : Writer → Writer) : Prop :=
  ∀ t w, f (w.behind t) = (f w).behind t

section Adds

variable {f g : Writer → Writer}

theorem Adds.comp (hf : Adds f) (hg : Adds g) : Adds (g ∘ f) := by
  intro t w
  simp only [Function.comp_apply]
  rw [hf, hg]

theorem adds_put (c : Char) : Adds (put · c) := by
  intro t w
  by_cases hc : c = '\n'
  · subst hc
    simp only [put_newline, behind, String.append_assoc]
  · simp only [put_of_ne hc, behind, String.append_assoc]

theorem adds_write (s : String) : Adds (write s) := by
  unfold write
  induction s.toList with
  | nil => exact fun _ _ => rfl
  | cons c cs ih => exact (adds_put c).comp ih

theorem adds_newline : Adds newline :=
  adds_put '\n'

theorem adds_indent (onNewline : Bool) : Adds (indent onNewline) := by
  intro t w
  cases onNewline with
  | false => rfl
  | true =>
      simp only [indent, if_true]
      rw [adds_newline]
      rfl

theorem adds_dedent (onNewline : Bool) : Adds (dedent onNewline) := by
  intro t w
  cases onNewline with
  | false => rfl
  | true => exact adds_newline t { w with level := w.level - 1 }

theorem adds_writeSep {α : Type} (separator : String) {item : α → Writer → Writer}
    (hitem : ∀ a, Adds (item a)) (items : List α) : Adds (writeSep separator item items) := by
  induction items with
  | nil => exact fun _ _ => rfl
  | cons a rest ih =>
      cases rest with
      | nil => exact hitem a
      | cons b rest => exact ((hitem a).comp (adds_write separator)).comp ih

end Adds

/-- Texts that are written one after the other are written as one text. -/
theorem write_append (a b : String) (w : Writer) : (w.write a).write b = w.write (a ++ b) := by
  simp [write, List.foldl_append]

theorem level_put (c : Char) (w : Writer) : (w.put c).level = w.level := by
  unfold put
  split <;> rfl

theorem level_write (s : String) (w : Writer) : (w.write s).level = w.level := by
  unfold write
  induction s.toList generalizing w with
  | nil => rfl
  | cons c cs ih => rw [List.foldl_cons, ih, level_put]

theorem level_newline (w : Writer) : w.newline.level = w.level :=
  level_put '\n' w

theorem level_writeSep {α : Type} (separator : String) {item : α → Writer → Writer}
    (hitem : ∀ a w, (item a w).level = w.level) (items : List α) (w : Writer) :
    (w.writeSep separator item items).level = w.level := by
  induction items generalizing w with
  | nil => rfl
  | cons a rest ih =>
      cases rest with
      | nil => exact hitem a w
      | cons b rest => exact (ih _).trans ((level_write _ _).trans (hitem a w))

/-- Items are written in two lists with a separator between the lists. -/
theorem writeSep_append {α : Type} (separator : String) (item : α → Writer → Writer)
    {as bs : List α} (has : as ≠ []) (hbs : bs ≠ []) (w : Writer) :
    w.writeSep separator item (as ++ bs) =
      ((w.writeSep separator item as).write separator).writeSep separator item bs := by
  induction as generalizing w with
  | nil => exact absurd rfl has
  | cons a rest ih =>
      cases rest with
      | nil =>
          obtain ⟨b, bs, rfl⟩ := List.exists_cons_of_ne_nil hbs
          rfl
      | cons a' rest => exact ih (List.cons_ne_nil _ _) _

/-! ## The lines that are added -/

/-- What a writer can be asked to do. -/
inductive Request where
  | write (s : String)
  | newline
  | indent (onNewline : Bool)
  | dedent (onNewline : Bool)
  deriving DecidableEq, Repr

namespace Request

/-- Does what is asked. -/
def serve : Request → Writer → Writer
  | write s, w => w.write s
  | newline, w => w.newline
  | indent onNewline, w => w.indent onNewline
  | dedent onNewline, w => w.dedent onNewline

/-- The level after a request. -/
def levelAfter (level : Nat) : Request → Nat
  | write _ | newline => level
  | indent _ => level + 1
  | dedent _ => level - 1

/-- The characters of a request, each with the level in force when it is written. -/
def received (level : Nat) : Request → List (Char × Nat)
  | write s => s.toList.map (·, level)
  | newline => [('\n', level)]
  | indent onNewline => if onNewline then [('\n', level)] else []
  | dedent onNewline => if onNewline then [('\n', level - 1)] else []

end Request

/-- Does what is asked, one request after the other. -/
def serve (requests : List Request) (w : Writer) : Writer :=
  requests.foldl (fun w request => request.serve w) w

/-- The characters of all requests. -/
def received (level : Nat) : List Request → List (Char × Nat)
  | [] => []
  | request :: rest =>
      request.received level ++ received (request.levelAfter level) rest

/-- A line that has just begun: without characters it stays empty, otherwise it has the
margin of its first character. -/
def lineText : List (Char × Nat) → List Char
  | [] => []
  | (c, level) :: rest => (margin level).toList ++ c :: rest.map Prod.fst

/-- The lines of the characters that are received; the first one has no margin unless it
has just begun. -/
def laidOut (lineStart : Bool) (chars : List (Char × Nat)) : List (List Char) :=
  match chars.splitOnP fun p => p.1 == '\n' with
  | [] => []
  | first :: lines =>
      (if lineStart then lineText first else first.map Prod.fst) :: lines.map lineText

section laidOut

variable {lineStart : Bool} {chars : List (Char × Nat)}

theorem laidOut_nil : laidOut lineStart [] = [[]] := by
  cases lineStart <;> rfl

theorem laidOut_true (chars : List (Char × Nat)) :
    laidOut true chars = (chars.splitOnP fun p => p.1 == '\n').map lineText := by
  unfold laidOut
  cases chars.splitOnP fun p => p.1 == '\n' <;> rfl

theorem laidOut_ne_nil (lineStart : Bool) (chars : List (Char × Nat)) :
    laidOut lineStart chars ≠ [] := by
  unfold laidOut
  split
  · rename_i h
    exact absurd h (List.splitOnP_ne_nil _ _)
  · exact List.cons_ne_nil _ _

theorem laidOut_newline (level : Nat) :
    laidOut lineStart (('\n', level) :: chars) = [] :: laidOut true chars := by
  rw [laidOut, List.splitOnP_cons_eq_if_modifyHead, if_pos (by rfl), laidOut_true]
  cases lineStart <;> rfl

theorem laidOut_cons {c : Char} (hc : c ≠ '\n') (level : Nat) :
    laidOut lineStart ((c, level) :: chars) = (laidOut false chars).modifyHead fun line =>
      (if lineStart then (margin level).toList else []) ++ c :: line := by
  obtain ⟨first, lines, hcut⟩ := List.exists_cons_of_ne_nil
    (List.splitOnP_ne_nil (fun p : Char × Nat => p.1 == '\n') chars)
  simp only [laidOut, List.splitOnP_cons_eq_if_modifyHead, beq_iff_eq, hc, if_false, hcut]
  cases lineStart <;> rfl

/-- No line has a line break. -/
theorem newline_not_mem_of_mem_laidOut {line : List Char} (h : line ∈ laidOut lineStart chars) :
    '\n' ∉ line := by
  induction chars generalizing lineStart line with
  | nil =>
      rw [laidOut_nil, List.mem_singleton] at h
      simp [h]
  | cons p chars ih =>
      obtain ⟨c, level⟩ := p
      by_cases hc : c = '\n'
      · subst hc
        rw [laidOut_newline] at h
        rcases List.mem_cons.mp h with rfl | hmem
        · exact List.not_mem_nil
        · exact ih hmem
      · obtain ⟨first, lines, hlaid⟩ := List.exists_cons_of_ne_nil
          (laidOut_ne_nil false chars)
        rw [laidOut_cons hc, hlaid, List.modifyHead_cons] at h
        rcases List.mem_cons.mp h with rfl | hmem
        · have hfirst : '\n' ∉ first := ih (by rw [hlaid]; exact List.mem_cons_self)
          cases lineStart <;> simp [hfirst, margin, Ne.symm hc]
        · exact ih (by rw [hlaid]; exact List.mem_cons_of_mem _ hmem)

end laidOut

/-! ### Characters, one at a time -/

/-- The same writer at another level. -/
def atLevel (level : Nat) (w : Writer) : Writer :=
  { w with level := level }

/-- Writes a character at its level. -/
def putAt (w : Writer) (p : Char × Nat) : Writer :=
  (w.atLevel p.2).put p.1

/-- Characters are laid out behind the text that is there. -/
theorem text_foldl_putAt (chars : List (Char × Nat)) (w : Writer) :
    (chars.foldl putAt w).text.toList =
      w.text.toList ++ ['\n'].intercalate (laidOut w.lineStart chars) := by
  induction chars generalizing w with
  | nil => simp [laidOut_nil]
  | cons p chars ih =>
      obtain ⟨c, level⟩ := p
      rw [List.foldl_cons, ih]
      by_cases hc : c = '\n'
      · subst hc
        obtain ⟨line, lines, hlaid⟩ := List.exists_cons_of_ne_nil
          (laidOut_ne_nil true chars)
        rw [laidOut_newline, putAt, put_newline]
        simp [atLevel, hlaid, List.intercalate_cons_cons]
      · obtain ⟨line, lines, hlaid⟩ := List.exists_cons_of_ne_nil
          (laidOut_ne_nil false chars)
        rw [laidOut_cons hc, putAt, put_of_ne hc, hlaid, List.modifyHead_cons]
        cases lines <;> cases hstart : w.lineStart <;>
          simp [atLevel, hstart, List.intercalate_cons_cons]

theorem foldl_putAt_atLevel (chars : List (Char × Nat)) (level : Nat) (w : Writer) :
    (chars.foldl putAt (w.atLevel level)).text = (chars.foldl putAt w).text := by
  cases chars <;> rfl

theorem putAt_level (w : Writer) (c : Char) : w.putAt (c, w.level) = w.put c :=
  rfl

theorem write_eq_foldl_putAt (s : String) (w : Writer) :
    w.write s = (s.toList.map (·, w.level)).foldl putAt w := by
  unfold write
  induction s.toList generalizing w with
  | nil => rfl
  | cons c cs ih =>
      rw [List.foldl_cons, ih, level_put, List.map_cons, List.foldl_cons, putAt_level]

/-- A request writes its characters and sets the level. -/
theorem Request.serve_eq (request : Request) (w : Writer) :
    request.serve w =
      ((request.received w.level).foldl putAt w).atLevel (request.levelAfter w.level) := by
  cases request with
  | write s =>
      rw [serve, received, ← write_eq_foldl_putAt, levelAfter, ← level_write s w]
      rfl
  | newline => rfl
  | indent onNewline =>
      cases onNewline with
      | false => rfl
      | true => rfl
  | dedent onNewline =>
      cases onNewline with
      | false => rfl
      | true => rfl

/-- Requests write the characters that are received in all. -/
theorem text_serve (requests : List Request) (w : Writer) :
    (serve requests w).text = ((received w.level requests).foldl putAt w).text := by
  unfold serve
  induction requests generalizing w with
  | nil => rfl
  | cons request rest ih =>
      rw [List.foldl_cons, ih, Request.serve_eq, foldl_putAt_atLevel, received, List.foldl_append]
      rfl

/-- What requests add to the text is laid out in lines. -/
theorem exists_text_serve (requests : List Request) (w : Writer) :
    ∃ added, (serve requests w).text = w.text ++ added ∧
      added.toList.splitOn '\n' = laidOut w.lineStart (received w.level requests) := by
  refine ⟨String.ofList (['\n'].intercalate (laidOut w.lineStart (received w.level requests))),
    ?_, ?_⟩
  · rw [← String.toList_inj, text_serve, text_foldl_putAt]
    simp
  · rw [String.toList_ofList]
    exact List.splitOn_intercalate '\n' (fun _ => newline_not_mem_of_mem_laidOut)
      (laidOut_ne_nil _ _)

end Writer

/-! ## Declarations -/

namespace Decl

/-- A declaration adds to the text. -/
theorem adds_write (d : Decl) : Writer.Adds d.write := by
  cases d with
  | definition name params type body =>
      exact ((((Writer.adds_write _).comp (Writer.adds_indent true)).comp
        (Writer.adds_write _)).comp (Writer.adds_dedent false))
  | postulate name type => exact Writer.adds_write _
  | snippet text => exact Writer.adds_write _
  | comment text => exact Writer.adds_writeSep "\n" (fun line => Writer.adds_write _) _

theorem adds_writeLine (d : Decl) : Writer.Adds d.writeLine :=
  d.adds_write.comp Writer.adds_newline

/-- A declaration leaves the level as it found it. -/
theorem level_write (d : Decl) (w : Writer) : (d.write w).level = w.level := by
  cases d with
  | definition name params type body =>
      simp [write, Writer.dedent, Writer.indent, Writer.level_write, Writer.level_newline]
  | postulate name type => exact Writer.level_write _ w
  | snippet text => exact Writer.level_write _ w
  | comment text => exact Writer.level_writeSep _ (fun line w => Writer.level_write _ w) _ w

theorem level_writeLine (d : Decl) (w : Writer) : (d.writeLine w).level = w.level :=
  (Writer.level_newline _).trans (d.level_write w)

theorem lineStart_writeLine (d : Decl) (w : Writer) : (d.writeLine w).lineStart = true :=
  rfl

end Decl

/-- Declarations end their last line and leave the level as they found it. -/
theorem writeSep_writeLine {ds : List Decl} (hds : ds ≠ []) (w : Writer) :
    w.writeSep "\n" Decl.writeLine ds =
      ⟨(w.writeSep "\n" Decl.writeLine ds).text, w.level, true⟩ := by
  have hlevel := Writer.level_writeSep "\n" Decl.level_writeLine ds w
  have hstart : (w.writeSep "\n" Decl.writeLine ds).lineStart = true := by
    induction ds generalizing w with
    | nil => exact absurd rfl hds
    | cons d rest ih =>
        cases rest with
        | nil => exact d.lineStart_writeLine w
        | cons d' rest =>
            exact ih (List.cons_ne_nil _ _) _ (Writer.level_writeSep _ Decl.level_writeLine _ _)
  rw [← hlevel, ← hstart]

/-- Lists of declarations are written apart, with an empty line between them. -/
theorem declsText_append {ds es : List Decl} (hds : ds ≠ []) (hes : es ≠ []) :
    declsText (ds ++ es) = declsText ds ++ "\n" ++ declsText es := by
  have hadds := Writer.adds_writeSep "\n" Decl.adds_writeLine es
  have hbreak : (Writer.empty.writeSep "\n" Decl.writeLine ds).write "\n" =
      Writer.empty.behind (declsText ds ++ "\n") := by
    rw [writeSep_writeLine hds]
    simp only [Writer.write, Writer.put_newline, Writer.behind, declsText, Writer.empty,
      String.reduceToList, List.foldl_cons, List.foldl_nil, String.append_empty]
  rw [declsText, Writer.writeSep_append "\n" _ hds hes, hbreak, hadds]
  rfl

/-- Declarations are rendered independently, and the writer lays out lines: texts written
one after the other are written as one, and whatever a writer is asked to do, it only adds
to its text, in lines that have the margin of the level at their first character and stay
empty without characters. -/
theorem text_is_laid_out {ds es : List Decl} (hds : ds ≠ []) (hes : es ≠ []) (a b : String)
    (requests : List Writer.Request) (w : Writer) :
    declsText (ds ++ es) = declsText ds ++ "\n" ++ declsText es ∧
      (w.write a).write b = w.write (a ++ b) ∧
      ∃ added, (Writer.serve requests w).text = w.text ++ added ∧
        added.toList.splitOn '\n' =
          Writer.laidOut w.lineStart (Writer.received w.level requests) :=
  ⟨declsText_append hds hes, Writer.write_append a b w, Writer.exists_text_serve requests w⟩

/-- A postulate, then a note on it. -/
theorem text_is_laid_out_postulate :
    declsText [.postulate "x" (.var "Bool"), .comment "an input"] =
        declsText [.postulate "x" (.var "Bool")] ++ "\n" ++ declsText [.comment "an input"] ∧
      (Writer.empty.write "def f ").write ":=" = Writer.empty.write ("def f " ++ ":=") ∧
      ∃ added, (Writer.serve [.write "def f :=", .indent true, .newline, .write "x"]
            Writer.empty).text = Writer.empty.text ++ added ∧
        added.toList.splitOn '\n' = ["def f :=".toList, [], "  x".toList] := by
  have hpostulate : [Decl.postulate "x" (.var "Bool")] ≠ [] := by decide
  have hcomment : [Decl.comment "an input"] ≠ [] := by decide
  exact text_is_laid_out hpostulate hcomment "def f " ":="
    [.write "def f :=", .indent true, .newline, .write "x"] Writer.empty

end Target

end TermGraph
