import TermGraph.Toml.Value

/-!
# Numbers, booleans and points in time

Values without quotes or brackets are recognised as whole words: `Scalar.ofWord?`
says which value a word denotes, if any.  A date may be followed by a space and
a time, which then belong together.
-/

namespace TermGraph

namespace Toml

namespace Scalar

/-- The digits of a group in which single underscores may stand between
digits. -/
def groupDigits? (isDigit : Char → Bool) : List Char → Option (List Char)
  | [] => none
  | [c] => if isDigit c then some [c] else none
  | c :: '_' :: rest => if isDigit c then (groupDigits? isDigit rest).map (c :: ·) else none
  | c :: rest => if isDigit c then (groupDigits? isDigit rest).map (c :: ·) else none

/-- The number of some digits in a base. -/
def ofDigits (base : Nat) (digits : List Char) : Nat :=
  digits.foldl
    (fun n c =>
      let d := if c.isDigit then c.toNat - 48 else c.toLower.toNat - 87
      base * n + d)
    0

/-- Whether a character is a digit in base sixteen. -/
def isHexDigit (c : Char) : Bool :=
  c.isDigit || ('a' ≤ c && c ≤ 'f') || ('A' ≤ c && c ≤ 'F')

/-- The digits of a decimal whole number: no zero stands in front of others. -/
def wholeDigits? (cs : List Char) : Option (List Char) := do
  let digits ← groupDigits? Char.isDigit cs
  match digits with
  | '0' :: _ :: _ => none
  | digits => some digits

/-- A sign, and what follows it. -/
def splitSign : List Char → Bool × List Char
  | '+' :: rest => (false, rest)
  | '-' :: rest => (true, rest)
  | cs => (false, cs)

/-- An integer of 64 bits. -/
def integer? (cs : List Char) : Option Int := do
  let n : Int ← match cs with
    | '0' :: 'x' :: rest => (groupDigits? isHexDigit rest).map fun ds => (ofDigits 16 ds : Int)
    | '0' :: 'o' :: rest =>
        (groupDigits? (fun c => '0' ≤ c && c ≤ '7') rest).map fun ds => (ofDigits 8 ds : Int)
    | '0' :: 'b' :: rest =>
        (groupDigits? (fun c => c = '0' || c = '1') rest).map fun ds => (ofDigits 2 ds : Int)
    | cs =>
        let (negative, cs) := splitSign cs
        (wholeDigits? cs).map fun ds =>
          let n : Int := ofDigits 10 ds
          if negative then -n else n
  if -(1 <<< 63 : Nat) ≤ n ∧ n < (1 <<< 63 : Nat) then some n else none

/-- A decimal number: some digits, the last `places` of them behind the point,
times a power of ten. -/
structure Decimal where
  digits : List Char
  places : Nat
  exponent : Int

/-- The exponent after its mark, or zero where there is no mark. -/
def exponent? : List Char → Option Int
  | [] => some 0
  | _ :: cs =>
      let (negative, cs) := splitSign cs
      (groupDigits? Char.isDigit cs).map fun ds =>
        let n : Int := ofDigits 10 ds
        if negative then -n else n

/-- Whether a character starts an exponent. -/
def startsExponent (c : Char) : Bool :=
  c = 'e' || c = 'E'

/-- The size of a number with a fraction, an exponent, or both. -/
def decimal? (cs : List Char) : Option Decimal := do
  let isMark (c : Char) := c = '.' || startsExponent c
  let whole ← wholeDigits? (cs.takeWhile fun c => !isMark c)
  match cs.dropWhile fun c => !isMark c with
  | [] => none
  | '.' :: rest =>
      let fraction ← groupDigits? Char.isDigit (rest.takeWhile fun c => !startsExponent c)
      let exponent ← exponent? (rest.dropWhile fun c => !startsExponent c)
      return ⟨whole ++ fraction, fraction.length, exponent⟩
  | rest => return ⟨whole, 0, ← exponent? rest⟩

/-- The least number that has no nearest one among the binary floating-point
numbers of 64 bits: it lies halfway between the greatest of them and the next
power of two. -/
def floatBound : Nat :=
  (1 <<< 1024) - (1 <<< 970)

/-- Whether a number is less than `floatBound`.  The bound has 309 digits, so
there is no need to put more zeros than that behind a number, or to take more
digits from it than it has. -/
def Decimal.fits (d : Decimal) : Bool :=
  let shift := d.exponent - d.places
  ofDigits 10 d.digits * Nat.pow 10 (min shift.toNat 309) /
      Nat.pow 10 (min (-shift).toNat d.digits.length)
    < floatBound

/-- Whether characters are a floating-point number.  A positive number has to
fit; a negative one that does not is minus infinity. -/
def isFloat (cs : List Char) : Bool :=
  let (negative, cs) := splitSign cs
  if cs = ['i', 'n', 'f'] || cs = ['n', 'a', 'n'] then true
  else
    match decimal? cs with
    | some d => negative || d.fits
    | none => false

/-- A number of exactly some digits, and what follows it. -/
def fixedNumber? (count : Nat) (cs : List Char) : Option (Nat × List Char) :=
  let digits := cs.take count
  if digits.length = count && digits.all Char.isDigit then
    some (ofDigits 10 digits, cs.drop count)
  else none

/-- What follows a date at the start of some characters.  Every month may have
31 days. -/
def afterDate? (cs : List Char) : Option (List Char) := do
  let (_, cs) ← fixedNumber? 4 cs
  match cs with
  | '-' :: cs =>
      let (month, cs) ← fixedNumber? 2 cs
      match cs with
      | '-' :: cs =>
          let (day, cs) ← fixedNumber? 2 cs
          if 1 ≤ month && month ≤ 12 && 1 ≤ day && day ≤ 31 then some cs else none
      | _ => none
  | _ => none

/-- What follows a time of day at the start of some characters. -/
def afterTime? (cs : List Char) : Option (List Char) := do
  let (hour, cs) ← fixedNumber? 2 cs
  match cs with
  | ':' :: cs =>
      let (minute, cs) ← fixedNumber? 2 cs
      match cs with
      | ':' :: cs =>
          let (second, cs) ← fixedNumber? 2 cs
          if hour ≤ 23 && minute ≤ 59 && second ≤ 60 then
            match cs with
            | '.' :: d :: rest => if d.isDigit then some (rest.dropWhile Char.isDigit) else none
            | cs => some cs
          else none
      | _ => none
  | _ => none

/-- Whether characters are the offset of a time, or nothing. -/
def isOffset (cs : List Char) : Bool :=
  match cs with
  | [] => true
  | ['Z'] => true
  | ['z'] => true
  | c :: rest =>
      (c = '+' || c = '-') &&
        match fixedNumber? 2 rest with
        | some (hour, ':' :: rest) =>
            match fixedNumber? 2 rest with
            | some (minute, []) => hour ≤ 23 && minute ≤ 59
            | _ => false
        | _ => false

/-- Whether characters are a time of day with an offset or without one. -/
def isOffsetTime (cs : List Char) : Bool :=
  match afterTime? cs with
  | some rest => isOffset rest
  | none => false

/-- Whether characters are a date. -/
def isDate (cs : List Char) : Bool :=
  afterDate? cs = some []

/-- Whether characters are a date, a time, or both. -/
def isDatetime (cs : List Char) : Bool :=
  match afterDate? cs with
  | some [] => true
  | some (c :: rest) => (c = 'T' || c = 't') && isOffsetTime rest
  | none => afterTime? cs = some []

/-- The value of a word. -/
def ofWord? (word : List Char) : Option Value :=
  if word = ['t', 'r', 'u', 'e'] then some (.boolean true)
  else if word = ['f', 'a', 'l', 's', 'e'] then some (.boolean false)
  else if isDatetime word then some (.datetime (String.ofList word))
  else if isFloat word then some (.float (String.ofList word))
  else (integer? word).map .integer

/-- A character of a word. -/
def isWordChar (c : Char) : Bool :=
  c.isAlphanum || c = '+' || c = '-' || c = '_' || c = '.' || c = ':'

/-- Reads a word, or a date and a time with a space between them. -/
def read (cs : List Char) : Option (Value × List Char) :=
  let word := cs.takeWhile isWordChar
  let rest := cs.dropWhile isWordChar
  let joined : Option (Value × List Char) :=
    match isDate word, rest with
    | true, ' ' :: rest =>
        let time := rest.takeWhile isWordChar
        if isOffsetTime time then
          some (.datetime (String.ofList (word ++ ' ' :: time)), rest.dropWhile isWordChar)
        else none
    | _, _ => none
  match joined with
  | some result => some result
  | none => (ofWord? word).map fun v => (v, rest)

end Scalar

end Toml

end TermGraph
