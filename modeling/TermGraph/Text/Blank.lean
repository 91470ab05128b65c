/-!
# Blank characters and lines

The characters with the Unicode property `White_Space`, and the cutting of a
text into its lines.
-/

namespace TermGraph

/-- Whether a character has the Unicode property `White_Space`. -/
def isBlank (c : Char) : Bool :=
  let n := c.toNat
  (0x09 ≤ n && n ≤ 0x0d) || n = 0x20 || n = 0x85 || n = 0xa0 || n = 0x1680 ||
    (0x2000 ≤ n && n ≤ 0x200a) || n = 0x2028 || n = 0x2029 || n = 0x202f ||
    n = 0x205f || n = 0x3000

/-- A text without the blanks at its end. -/
def trimEnd (s : String) : String :=
  String.ofList (s.toList.reverse.dropWhile isBlank).reverse

/-- The characters before the first line break with that break cut off, and what
follows it, if there is a break. -/
def breakLine : List Char → List Char × Option (List Char)
  | [] => ([], none)
  | '\n' :: rest => ([], some rest)
  | c :: rest =>
      let (line, after) := breakLine rest
      (c :: line, after)

theorem length_of_breakLine {cs line rest : List Char} (h : breakLine cs = (line, some rest)) :
    rest.length < cs.length := by
  fun_induction breakLine cs generalizing line with
  | case1 => simp at h
  | case2 rest' => simp_all
  | case3 c rest' hc line' after hrec ih =>
      simp only [Prod.mk.injEq] at h
      obtain ⟨-, rfl⟩ := h
      have := ih hrec
      simp only [List.length_cons]
      omega

/-- A line whose line break also had a carriage return, without it. -/
def dropReturn (line : List Char) : List Char :=
  if line.getLast? = some '\r' then line.dropLast else line

/-- The lines of a text.  A line ends with a line feed, or a carriage return and
a line feed; the last one may lack both and is then dropped if it is empty. -/
def lineChars (cs : List Char) : List (List Char) :=
  match h : breakLine cs with
  | ([], none) => []
  | (line, none) => [line]
  | (line, some rest) =>
      have := length_of_breakLine h
      dropReturn line :: lineChars rest
termination_by cs.length

/-- The lines of a text, without their line breaks. -/
def lines (s : String) : List String :=
  (lineChars s.toList).map String.ofList

end TermGraph
