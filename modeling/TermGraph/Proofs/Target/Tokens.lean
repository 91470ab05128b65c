import Mathlib
import TermGraph.Name.Sanitize
import TermGraph.Proofs.Name.Dots
import TermGraph.Target.Render
import TermGraph.Target.Reserved

/-!
# Tokens of the target language

The text of an expression is cut into words, marks and string literals by an
automaton that reads one character at a time.  `Expr.tokens` says which tokens an
expression is written with, and `Expr.lex_text` that the automaton finds exactly
these in its text, provided that every name is a dotted sequence of ASCII
identifiers none of which is a reserved word.

Texts are put together from two kinds of pieces: separators, after which anything
may follow, and pieces that may end in a word, which must not run into the next one.
-/

namespace TermGraph

namespace Target

/-! ## Names that can be read back -/

/-- Whether a character may stand in a dotted name. -/
def isNameChar (c : Char) : Bool :=
  isWordChar c || c = '.'

/-- Whether a text is an ASCII identifier and no reserved word. -/
def isSegment (part : List Char) : Bool :=
  part.all isWordChar && !part.head?.all isLateChar && !isReserved (String.ofList part)

/-- Whether a text is a dotted sequence of ASCII identifiers none of which is a
reserved word. -/
def isDottedName (x : String) : Bool :=
  (splitDots x.toList).all isSegment

section Names

variable {x : String}

theorem isSegment_of_isDottedName (h : isDottedName x) {part : List Char}
    (hpart : part ∈ splitDots x.toList) : isSegment part :=
  List.all_eq_true.mp h part hpart

theorem isNameChar_of_isDottedName (h : isDottedName x) {c : Char} (hc : c ∈ x.toList) :
    isNameChar c := by
  unfold isNameChar
  by_cases hdot : c = '.'
  · simp [hdot]
  · obtain ⟨part, hpart, hmem⟩ := exists_part_of_mem hc hdot
    have hseg := isSegment_of_isDottedName h hpart
    simp only [isSegment, Bool.and_eq_true, List.all_eq_true] at hseg
    simp [hseg.1.1 c hmem]

/-- A dotted name starts with a letter or an underscore. -/
theorem exists_first_of_isDottedName (h : isDottedName x) :
    ∃ c rest, x.toList = c :: rest ∧ isLateChar c = false := by
  cases hx : x.toList with
  | nil =>
      have := isSegment_of_isDottedName h (show [] ∈ splitDots x.toList by rw [hx]; simp)
      simp [isSegment] at this
  | cons c rest =>
      refine ⟨c, rest, rfl, ?_⟩
      obtain ⟨part, parts, -, heq⟩ := splitDots_cons c rest
      rw [← hx] at heq
      by_cases hdot : c = '.'
      · rw [hdot]
        decide
      · have := isSegment_of_isDottedName h
          (show c :: part ∈ splitDots x.toList by rw [heq, if_neg hdot]; simp)
        simp only [isSegment, Bool.and_eq_true] at this
        simpa using this.1.2

theorem not_isReserved_of_isDottedName (h : isDottedName x) : isReserved x = false := by
  rw [Bool.eq_false_iff]
  intro hres
  have hseg := isSegment_of_isDottedName h (show x.toList ∈ splitDots x.toList by
    rw [splitDots_of_not_mem (dot_not_mem_of_isReserved hres)]; simp)
  simp [isSegment, hres] at hseg

end Names

/-! ## Tokens -/

/-- A token. -/
inductive Token where
  | name (text : String)
  | number (value : Nat)
  | string (value : String)
  | kwFun
  | kwLet
  | kwIf
  | kwThen
  | kwElse
  | kwType
  | openParen
  | closeParen
  | openBrace
  | closeBrace
  | openBracket
  | closeBracket
  | comma
  | semicolon
  | colon
  | equals
  | greater
  | arrow
  | at
  /-- A character that no expression is written with. -/
  | other (c : Char)
  deriving DecidableEq, Repr

namespace Token

/-- The token of a word. -/
def ofWord (w : List Char) : Token :=
  if w.all Char.isDigit then number (Nat.ofDigitChars 10 w 0)
  else if String.ofList w = "fun" then kwFun
  else if String.ofList w = "let" then kwLet
  else if String.ofList w = "if" then kwIf
  else if String.ofList w = "then" then kwThen
  else if String.ofList w = "else" then kwElse
  else if String.ofList w = "Type" then kwType
  else name (String.ofList w)

/-- The token of a character that is part of no word and no string literal. -/
def ofMark (c : Char) : Token :=
  if c = '(' then openParen
  else if c = ')' then closeParen
  else if c = '\x7b' then openBrace
  else if c = '\x7d' then closeBrace
  else if c = '[' then openBracket
  else if c = ']' then closeBracket
  else if c = ',' then comma
  else if c = ';' then semicolon
  else if c = ':' then colon
  else if c = '=' then equals
  else if c = '>' then greater
  else if c = '→' then arrow
  else if c = '@' then .at
  else other c

theorem ofWord_of_isDottedName {x : String} (h : isDottedName x) : ofWord x.toList = name x := by
  obtain ⟨c, rest, hx, hc⟩ := exists_first_of_isDottedName h
  have hdigits : x.toList.all Char.isDigit = false := by
    simp only [isLateChar, Bool.or_eq_false_iff] at hc
    simp [hx, hc.1]
  have hne : ∀ w ∈ reservedWords, x ≠ w := by
    rintro w hw rfl
    simpa [isReserved, hw] using not_isReserved_of_isDottedName h
  unfold ofWord
  rw [if_neg (by simp [hdigits]), String.ofList_toList, if_neg (hne _ (by decide)),
    if_neg (hne _ (by decide)), if_neg (hne _ (by decide)),
    if_neg (hne _ (by decide)), if_neg (hne _ (by decide)),
    if_neg (hne _ (by decide))]

theorem ofWord_toDigits (n : Nat) : ofWord (Nat.toDigits 10 n) = number n := by
  have hdigits : (Nat.toDigits 10 n).all Char.isDigit := by
    rw [List.all_eq_true]
    exact fun c hc => Nat.isDigit_of_mem_toDigits (by decide) (by decide) hc
  rw [ofWord, if_pos hdigits, Nat.ofDigitChars_ten_toDigits]

end Token

/-! ## The automaton -/

/-- What the automaton is inside of, with the characters read there so far. -/
inductive Mode where
  | gap
  | word (read : List Char)
  | string (read : List Char)
  /-- A string literal, behind a backslash. -/
  | escape (read : List Char)

/-- A character that does not continue a word: the tokens it completes and the mode
behind it. -/
def enter (c : Char) : List Token × Mode :=
  if isNameChar c then ([], .word [c])
  else if c = '"' then ([], .string [])
  else if c = ' ' then ([], .gap)
  else ([.ofMark c], .gap)

/-- One character: the tokens it completes and the mode behind it. -/
def scan : Mode → Char → List Token × Mode
  | .gap, c => enter c
  | .word w, c =>
      if isNameChar c then ([], .word (w ++ [c]))
      else (.ofWord w :: (enter c).1, (enter c).2)
  | .string s, c =>
      if c = '"' then ([.string (String.ofList s)], .gap)
      else if c = '\\' then ([], .escape s)
      else ([], .string (s ++ [c]))
  | .escape s, c => ([], .string (s ++ [if c = 'n' then '\n' else c]))

/-- The tokens of a text, read from a mode on; a string literal that does not end is
dropped. -/
def lex : Mode → List Char → List Token
  | .word w, [] => [.ofWord w]
  | .gap, [] | .string _, [] | .escape _, [] => []
  | m, c :: rest => (scan m c).1 ++ lex (scan m c).2 rest

/-- A text that does not go on with a word. -/
def Fresh (rest : List Char) : Prop :=
  ∀ c ∈ rest.head?, isNameChar c = false

@[simp] theorem fresh_nil : Fresh [] := by
  simp [Fresh]

@[simp] theorem fresh_cons {c : Char} {rest : List Char} :
    Fresh (c :: rest) ↔ isNameChar c = false := by
  simp [Fresh]

theorem lex_cons (m : Mode) (c : Char) (rest : List Char) :
    lex m (c :: rest) = (scan m c).1 ++ lex (scan m c).2 rest := by
  cases m <;> rfl

theorem lex_word_of_fresh (w : List Char) {rest : List Char} (h : Fresh rest) :
    lex (.word w) rest = .ofWord w :: lex .gap rest := by
  cases rest with
  | nil => rfl
  | cons c rest =>
      rw [fresh_cons] at h
      simp [lex_cons, scan, h]

theorem lex_word_append (w : List Char) {cs rest : List Char} (hcs : ∀ c ∈ cs, isNameChar c)
    (h : Fresh rest) : lex (.word w) (cs ++ rest) = .ofWord (w ++ cs) :: lex .gap rest := by
  induction cs generalizing w with
  | nil => simpa using lex_word_of_fresh w h
  | cons c cs ih =>
      have hc : isNameChar c := hcs c List.mem_cons_self
      rw [List.cons_append, lex_cons, scan, if_pos hc]
      simpa using ih (w ++ [c]) fun d hd => hcs d (List.mem_cons_of_mem _ hd)

theorem lex_word {cs rest : List Char} (hne : cs ≠ []) (hcs : ∀ c ∈ cs, isNameChar c)
    (h : Fresh rest) : lex .gap (cs ++ rest) = .ofWord cs :: lex .gap rest := by
  obtain ⟨c, cs, rfl⟩ := List.exists_cons_of_ne_nil hne
  have hc : isNameChar c := hcs c List.mem_cons_self
  rw [List.cons_append, lex_cons, scan, enter, if_pos hc]
  exact lex_word_append [c] (fun d hd => hcs d (List.mem_cons_of_mem _ hd)) h

theorem lex_escapeChar (read : List Char) (c : Char) (rest : List Char) :
    lex (.string read) (escapeChar c ++ rest) = lex (.string (read ++ [c])) rest := by
  unfold escapeChar
  split
  · rename_i hc
    simp [lex_cons, scan, hc]
  · split
    · rename_i hc
      simp [lex_cons, scan, hc]
    · split
      · rename_i hc
        simp [lex_cons, scan, hc]
      · rename_i hquote hback _
        simp [lex_cons, scan, hquote, hback]

theorem lex_escaped (read s : List Char) (rest : List Char) :
    lex (.string read) (s.flatMap escapeChar ++ '"' :: rest) =
      .string (String.ofList (read ++ s)) :: lex .gap rest := by
  induction s generalizing read with
  | nil => simp [lex_cons, scan]
  | cons c s ih =>
      rw [List.flatMap_cons, List.append_assoc, lex_escapeChar, ih, List.append_assoc,
        List.singleton_append]

theorem lex_stringLit (s : String) (rest : List Char) :
    lex .gap ((stringLit s).toList ++ rest) = .string s :: lex .gap rest := by
  have htext : (stringLit s).toList ++ rest =
      '"' :: (s.toList.flatMap escapeChar ++ '"' :: rest) := by
    simp [stringLit]
  rw [htext, lex_cons]
  exact (lex_escaped [] s.toList rest).trans (by simp)

/-! ## Pieces of text -/

/-- A piece of text that anything may follow. -/
def Separates (text : String) (ts : List Token) : Prop :=
  ∀ rest, lex .gap (text.toList ++ rest) = ts ++ lex .gap rest

/-- A piece of text that anything may follow but the rest of a word. -/
def Lexes (text : String) (ts : List Token) : Prop :=
  ∀ rest, Fresh rest → lex .gap (text.toList ++ rest) = ts ++ lex .gap rest

section Pieces

variable {a b : String} {ts us : List Token}

theorem Separates.lexes (h : Separates a ts) : Lexes a ts :=
  fun rest _ => h rest

theorem Separates.append (ha : Separates a ts) (hb : Separates b us) :
    Separates (a ++ b) (ts ++ us) := by
  intro rest
  rw [String.toList_append, List.append_assoc, ha, hb, List.append_assoc]

theorem Separates.append_lexes (ha : Separates a ts) (hb : Lexes b us) :
    Lexes (a ++ b) (ts ++ us) := by
  intro rest hrest
  rw [String.toList_append, List.append_assoc, ha, hb rest hrest, List.append_assoc]

theorem Lexes.append (ha : Lexes a ts) (hb : Lexes b us)
    (hstart : ∀ rest, Fresh rest → Fresh (b.toList ++ rest)) : Lexes (a ++ b) (ts ++ us) := by
  intro rest hrest
  rw [String.toList_append, List.append_assoc, ha _ (hstart rest hrest), hb rest hrest,
    List.append_assoc]

theorem Lexes.append_separates (ha : Lexes a ts) (hb : Separates b us)
    (hstart : b.toList.head?.any fun c => !isNameChar c) : Separates (a ++ b) (ts ++ us) := by
  intro rest
  have hfresh : Fresh (b.toList ++ rest) := by
    cases hlist : b.toList with
    | nil => simp [hlist] at hstart
    | cons c tail => simpa [hlist] using hstart
  rw [String.toList_append, List.append_assoc, ha _ hfresh, hb rest, List.append_assoc]

theorem separates_empty : Separates "" [] :=
  fun _ => rfl

theorem lexes_name {x : String} (h : isDottedName x) : Lexes x [.name x] := by
  intro rest hrest
  obtain ⟨c, tail, hx, -⟩ := exists_first_of_isDottedName h
  rw [lex_word (by simp [hx]) (fun c hc => isNameChar_of_isDottedName h hc) hrest,
    Token.ofWord_of_isDottedName h, List.singleton_append]

theorem lexes_number (n : Nat) : Lexes (toString n) [.number n] := by
  intro rest hrest
  rw [Nat.toString_eq_ofList_toDigits, String.toList_ofList,
    lex_word Nat.toDigits_ne_nil (fun c hc => ?_) hrest, Token.ofWord_toDigits,
    List.singleton_append]
  have hdigit := Nat.isDigit_of_mem_toDigits (by decide) (by decide) hc
  simp [isNameChar, isWordChar, Char.isAlphanum, hdigit]

theorem separates_string (s : String) : Separates (stringLit s) [.string s] :=
  lex_stringLit s

end Pieces

/-! ## Expressions -/

namespace Expr

/-- Whether an expression can be the head of an application whose text is read back
as it is. -/
def isHead : Expr → Bool
  | app _ _ | sort _ => false
  | _ => true

mutual

/-- Whether the text of an expression can be read back: all names are dotted names,
lists of arguments, binders and bindings are not empty, the head of an application is
neither an application nor a sort, binders without a name are explicit, and there is
no ascription. -/
def isReadable : Expr → Bool
  | var x | explicitVar x => isDottedName x
  | app fn args => fn.isHead && isReadable fn && !args.isEmpty && areReadable args
  | lam binders body => !binders.isEmpty && bindersReadable binders && isReadable body
  | pi binders body => !binders.isEmpty && piBindersReadable binders && isReadable body
  | letIn bindings body => !bindings.isEmpty && bindingsReadable bindings && isReadable body
  | ite c t e => isReadable c && isReadable t && isReadable e
  | sort _ | nat _ | string _ => true
  | list elems => areReadable elems
  | ascription _ _ => false

/-- `isReadable` of several expressions. -/
def areReadable : List Expr → Bool
  | [] => true
  | e :: rest => isReadable e && areReadable rest

/-- `isReadable` of the types of binders, whose names are dotted names. -/
def bindersReadable : List (Binder Expr) → Bool
  | [] => true
  | ⟨x, ty, _⟩ :: rest => isDottedName x && isReadable ty && bindersReadable rest

/-- `isReadable` of the types of binders of a function type, which have a dotted name
or are explicit. -/
def piBindersReadable : List (PiBinder Expr) → Bool
  | [] => true
  | ⟨some x, ty, _⟩ :: rest => isDottedName x && isReadable ty && piBindersReadable rest
  | ⟨none, ty, implicit⟩ :: rest => !implicit && isReadable ty && piBindersReadable rest

/-- `isReadable` of the types and values of bindings, whose names are dotted names. -/
def bindingsReadable : List (Binding Expr) → Bool
  | [] => true
  | ⟨x, none, v⟩ :: rest => isDottedName x && isReadable v && bindingsReadable rest
  | ⟨x, some ty, v⟩ :: rest =>
      isDottedName x && isReadable ty && isReadable v && bindingsReadable rest

end

/-- Tokens in parentheses unless they can do without. -/
def grouped (bare : Bool) (ts : List Token) : List Token :=
  if bare then ts else .openParen :: ts ++ [.closeParen]

/-- The tokens of a binder, in the brackets of its kind. -/
def bracketed (x : String) (type : List Token) (implicit : Bool) : List Token :=
  if implicit then .openBrace :: .name x :: .colon :: type ++ [.closeBrace]
  else .openParen :: .name x :: .colon :: type ++ [.closeParen]

mutual

/-- The tokens of an expression. -/
def tokens : Expr → List Token
  | var x => [.name x]
  | explicitVar x => [.at, .name x]
  | app fn args => grouped fn.isAtomic (tokens fn) ++ argTokens args
  | lam binders body => .kwFun :: (binderTokens binders ++ .equals :: .greater :: tokens body)
  | pi binders body => piTokens binders ++ tokens body
  | letIn bindings body => letTokens bindings ++ tokens body
  | ite c t e => .kwIf :: (tokens c ++ .kwThen :: (tokens t ++ .kwElse :: tokens e))
  | sort level => if level = 0 then [.kwType] else [.kwType, .number level]
  | nat n => [.number n]
  | string s => [.string s]
  | list elems => .openBracket :: (elemTokens elems ++ [.closeBracket])
  | ascription e ty => .openParen :: (tokens e ++ .colon :: (tokens ty ++ [.closeParen]))

/-- The tokens of arguments. -/
def argTokens : List Expr → List Token
  | [] => []
  | e :: rest => grouped e.isAtomic (tokens e) ++ argTokens rest

/-- The tokens of several expressions, with a comma between neighbours. -/
def elemTokens : List Expr → List Token
  | [] => []
  | [e] => tokens e
  | e :: f :: rest => tokens e ++ .comma :: elemTokens (f :: rest)

/-- The tokens of binders. -/
def binderTokens : List (Binder Expr) → List Token
  | [] => []
  | ⟨x, ty, implicit⟩ :: rest => bracketed x (tokens ty) implicit ++ binderTokens rest

/-- The tokens of the binders of a function type, each before an arrow. -/
def piTokens : List (PiBinder Expr) → List Token
  | [] => []
  | ⟨some x, ty, implicit⟩ :: rest =>
      bracketed x (tokens ty) implicit ++ .arrow :: piTokens rest
  | ⟨none, ty, _⟩ :: rest => grouped (!ty.isOpen) (tokens ty) ++ .arrow :: piTokens rest

/-- The tokens of bindings, each before a semicolon. -/
def letTokens : List (Binding Expr) → List Token
  | [] => []
  | ⟨x, none, v⟩ :: rest =>
      .kwLet :: .name x :: .colon :: .equals :: (tokens v ++ .semicolon :: letTokens rest)
  | ⟨x, some ty, v⟩ :: rest =>
      .kwLet :: .name x :: .colon :: (tokens ty ++
        .colon :: .equals :: (tokens v ++ .semicolon :: letTokens rest))

end

end Expr

section Literals

theorem lexes_word {w : String} {t : Token} (hne : w.toList ≠ [])
    (hw : w.toList.all isNameChar) (ht : .ofWord w.toList = t) : Lexes w [t] := by
  intro rest hrest
  rw [lex_word hne (List.all_eq_true.mp hw) hrest, ht, List.singleton_append]

theorem separates_space : Separates " " [] :=
  fun _ => rfl

theorem separates_word {w : String} {t : Token} (hne : w.toList ≠ [])
    (hw : w.toList.all isNameChar) (ht : .ofWord w.toList = t) :
    Separates (w ++ " ") [t] :=
  (lexes_word hne hw ht).append_separates separates_space (by decide)

theorem lexes_type : Lexes "Type" [.kwType] :=
  lexes_word (by decide) (by decide) (by decide)

theorem separates_type : Separates "Type " [.kwType] :=
  separates_word (w := "Type") (by decide) (by decide) (by decide)

theorem separates_fun : Separates "fun " [.kwFun] :=
  separates_word (w := "fun") (by decide) (by decide) (by decide)

theorem separates_let : Separates "let " [.kwLet] :=
  separates_word (w := "let") (by decide) (by decide) (by decide)

theorem separates_if : Separates "if " [.kwIf] :=
  separates_word (w := "if") (by decide) (by decide) (by decide)

theorem separates_then : Separates " then " [.kwThen] :=
  separates_space.append
    (separates_word (w := "then") (by decide) (by decide) (by decide))

theorem separates_else : Separates " else " [.kwElse] :=
  separates_space.append
    (separates_word (w := "else") (by decide) (by decide) (by decide))

theorem separates_colon : Separates " : " [.colon] := fun _ => rfl

theorem separates_assign : Separates " := " [.colon, .equals] := fun _ => rfl

theorem separates_implies : Separates " => " [.equals, .greater] := fun _ => rfl

theorem separates_arrow : Separates " → " [.arrow] := fun _ => rfl

theorem separates_semicolon : Separates "; " [.semicolon] := fun _ => rfl

theorem separates_comma : Separates ", " [.comma] := fun _ => rfl

theorem separates_at : Separates "@" [.at] := fun _ => rfl

theorem separates_openParen : Separates "(" [.openParen] := fun _ => rfl

theorem separates_closeParen : Separates ")" [.closeParen] := fun _ => rfl

theorem separates_openBrace : Separates "\x7b" [.openBrace] := fun _ => rfl

theorem separates_closeBrace : Separates "\x7d" [.closeBrace] := fun _ => rfl

theorem separates_openBracket : Separates "[" [.openBracket] := fun _ => rfl

theorem separates_closeBracket : Separates "]" [.closeBracket] := fun _ => rfl

end Literals

namespace Expr

variable {ts : List Token} {text : String}

theorem lexes_parensUnless (h : Lexes text ts) (bare : Bool) :
    Lexes (parensUnless bare text) (grouped bare ts) := by
  unfold parensUnless grouped
  cases bare with
  | true => exact h
  | false =>
      exact ((separates_openParen.append_lexes h).append_separates separates_closeParen
        (by decide)).lexes

theorem separates_binderText {x : String} (hx : isDottedName x) (h : Lexes text ts)
    (implicit : Bool) : Separates (binderText x text implicit) (bracketed x ts implicit) := by
  have hinner : Lexes (x ++ " : " ++ text) (.name x :: .colon :: ts) :=
    ((lexes_name hx).append_separates separates_colon (by decide)).append_lexes h
  unfold binderText bracketed
  cases implicit with
  | true =>
      have := (separates_openBrace.append_lexes hinner).append_separates separates_closeBrace
        (by decide)
      simpa [String.append_assoc] using this
  | false =>
      have := (separates_openParen.append_lexes hinner).append_separates separates_closeParen
        (by decide)
      simpa [parens, String.append_assoc] using this

/-- Arguments never continue the word in front of them. -/
theorem fresh_argsText (args : List Expr) {rest : List Char} (h : Fresh rest) :
    Fresh ((argsText args).toList ++ rest) := by
  cases args with
  | nil => exact h
  | cons e args =>
      simp [argsText]
      decide

mutual

/-- The text of an expression is cut into its tokens. -/
theorem lexes_text : ∀ e : Expr, e.isReadable → Lexes e.text e.tokens
  | var x, h => lexes_name h
  | explicitVar x, h => separates_at.append_lexes (lexes_name h)
  | app fn args, h => by
      simp only [isReadable, Bool.and_eq_true] at h
      exact (lexes_parensUnless (lexes_text fn h.1.1.2) _).append (lexes_argsText args h.2)
        fun rest => fresh_argsText args
  | lam binders body, h => by
      simp only [isReadable, Bool.and_eq_true] at h
      have hfront := (separates_fun.append (separates_bindersText binders h.1.2)).append
        separates_implies
      simpa [text, tokens] using hfront.append_lexes (lexes_text body h.2)
  | pi binders body, h => by
      simp only [isReadable, Bool.and_eq_true] at h
      exact (separates_piText binders h.1.2).append_lexes (lexes_text body h.2)
  | letIn bindings body, h => by
      simp only [isReadable, Bool.and_eq_true] at h
      exact (separates_letText bindings h.1.2).append_lexes (lexes_text body h.2)
  | ite c t e, h => by
      simp only [isReadable, Bool.and_eq_true] at h
      have hcond := (separates_if.append_lexes (lexes_text c h.1.1)).append_separates
        separates_then (by decide)
      have hthen := (hcond.append_lexes (lexes_text t h.1.2)).append_separates
        separates_else (by decide)
      simpa [text, tokens] using hthen.append_lexes (lexes_text e h.2)
  | sort level, _ => by
      unfold text tokens
      split
      · exact lexes_type
      · exact separates_type.append_lexes (lexes_number level)
  | nat n, _ => lexes_number n
  | string s, _ => (separates_string s).lexes
  | list elems, h => by
      have hfront := separates_openBracket.append_lexes (lexes_textList elems h)
      simpa [text, tokens] using
        (hfront.append_separates separates_closeBracket (by decide)).lexes
  | ascription _ _, h => by simp [isReadable] at h

/-- `lexes_text` of arguments. -/
theorem lexes_argsText : ∀ args : List Expr, areReadable args →
    Lexes (argsText args) (argTokens args)
  | [], _ => separates_empty.lexes
  | e :: rest, h => by
      simp only [areReadable, Bool.and_eq_true] at h
      have hfront := separates_space.append_lexes (lexes_parensUnless (lexes_text e h.1) e.isAtomic)
      exact hfront.append (lexes_argsText rest h.2) fun _ => fresh_argsText rest

/-- `lexes_text` of the elements of a list. -/
theorem lexes_textList : ∀ elems : List Expr, areReadable elems →
    Lexes (", ".intercalate (textList elems)) (elemTokens elems)
  | [], _ => separates_empty.lexes
  | [e], h => by
      simp only [areReadable, Bool.and_eq_true] at h
      simpa [textList, elemTokens] using lexes_text e h.1
  | e :: f :: rest, h => by
      rw [areReadable, Bool.and_eq_true] at h
      have hfront := (lexes_text e h.1).append_separates separates_comma (by decide)
      simpa [textList, elemTokens, String.intercalate_cons_cons] using
        hfront.append_lexes (lexes_textList (f :: rest) h.2)

/-- `lexes_text` of binders. -/
theorem separates_bindersText : ∀ binders : List (Binder Expr), bindersReadable binders →
    Separates (" ".intercalate (bindersText binders)) (binderTokens binders)
  | [], _ => separates_empty
  | [⟨x, ty, implicit⟩], h => by
      simp only [bindersReadable, Bool.and_eq_true] at h
      simpa [bindersText, binderTokens] using
        separates_binderText h.1.1 (lexes_text ty h.1.2) implicit
  | ⟨x, ty, implicit⟩ :: b :: rest, h => by
      rw [bindersReadable, Bool.and_eq_true, Bool.and_eq_true] at h
      have hfront := (separates_binderText h.1.1 (lexes_text ty h.1.2) implicit).append
        separates_space
      simpa [bindersText, binderTokens, String.intercalate_cons_cons] using
        hfront.append (separates_bindersText (b :: rest) h.2)

/-- `lexes_text` of the binders of a function type. -/
theorem separates_piText : ∀ binders : List (PiBinder Expr), piBindersReadable binders →
    Separates (piText binders) (piTokens binders)
  | [], _ => separates_empty
  | ⟨some x, ty, implicit⟩ :: rest, h => by
      simp only [piBindersReadable, Bool.and_eq_true] at h
      have hfront := (separates_binderText h.1.1 (lexes_text ty h.1.2) implicit).append
        separates_arrow
      simpa [piText, piTokens] using hfront.append (separates_piText rest h.2)
  | ⟨none, ty, _⟩ :: rest, h => by
      simp only [piBindersReadable, Bool.and_eq_true] at h
      have hfront := (lexes_parensUnless (lexes_text ty h.1.2) (!ty.isOpen)).append_separates
        separates_arrow (by decide)
      simpa [piText, piTokens] using hfront.append (separates_piText rest h.2)

/-- `lexes_text` of bindings. -/
theorem separates_letText : ∀ bindings : List (Binding Expr), bindingsReadable bindings →
    Separates (letText bindings) (letTokens bindings)
  | [], _ => separates_empty
  | ⟨x, none, v⟩ :: rest, h => by
      simp only [bindingsReadable, Bool.and_eq_true] at h
      have hname := (separates_let.append_lexes (lexes_name h.1.1)).append_separates
        separates_assign (by decide)
      have hvalue := (hname.append_lexes (lexes_text v h.1.2)).append_separates
        separates_semicolon (by decide)
      simpa [letText, letTokens] using hvalue.append (separates_letText rest h.2)
  | ⟨x, some ty, v⟩ :: rest, h => by
      simp only [bindingsReadable, Bool.and_eq_true] at h
      have hname := (separates_let.append_lexes (lexes_name h.1.1.1)).append_separates
        separates_colon (by decide)
      have htype := (hname.append_lexes (lexes_text ty h.1.1.2)).append_separates
        separates_assign (by decide)
      have hvalue := (htype.append_lexes (lexes_text v h.1.2)).append_separates
        separates_semicolon (by decide)
      simpa [letText, letTokens] using hvalue.append (separates_letText rest h.2)

end

/-- The automaton finds the tokens of an expression in its text. -/
theorem lex_text {e : Expr} (h : e.isReadable) : lex .gap e.text.toList = e.tokens := by
  have := lexes_text e h [] fresh_nil
  rwa [List.append_nil, lex, List.append_nil] at this

end Expr

end Target

end TermGraph
