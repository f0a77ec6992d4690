import SwitchHoist.Digits
import SwitchHoist.Json.Basic

/-!
# Reading JSON

A text is one value with blanks around it and nothing else.  The readers take
characters from the front of a list and return a value with the characters
behind it; `none` means that the text is not JSON.

Every array, every object and every item in one takes a character of its own, so
no more of them can follow than there are characters left.  The numeric argument
of a reader is a bound on these characters and starts as their number.
-/

namespace SwitchHoist

namespace Json

/-- The characters that may stand around values. -/
def isSpace (c : Char) : Bool :=
  c == ' ' || c == '\t' || c == '\n' || c == '\r'

/-- The text behind leading blanks. -/
def skipSpaces (cs : List Char) : List Char :=
  cs.dropWhile isSpace

/-- The number that four hexadecimal digits write. -/
def hexCode? (a b c d : Char) : Option Nat :=
  digits? 16 [a, b, c, d]

/-- An element of a string: a character, or a unit of two bytes written as `\u`
with four digits. -/
inductive StringElement where
  | char (c : Char)
  | unit (code : Nat)
  deriving DecidableEq, Repr

/-- The character that stands behind a backslash for another one. -/
def escaped? : Char → Option Char
  | '"' => some '"'
  | '\\' => some '\\'
  | '/' => some '/'
  | 'b' => some '\x08'
  | 'f' => some '\x0c'
  | 'n' => some '\n'
  | 'r' => some '\r'
  | 't' => some '\t'
  | _ => none

/-- The elements of a string up to its closing quote, and the text behind it. -/
def elements? : List Char → Option (List StringElement × List Char)
  | [] => none
  | '"' :: rest => some ([], rest)
  | '\\' :: 'u' :: a :: b :: c :: d :: rest => do
      let code ← hexCode? a b c d
      let (es, tail) ← elements? rest
      some (.unit code :: es, tail)
  | '\\' :: e :: rest => do
      let c ← escaped? e
      let (es, tail) ← elements? rest
      some (.char c :: es, tail)
  | c :: rest =>
      if c.toNat < 32 ∨ c = '\\' then none
      else do
        let (es, tail) ← elements? rest
        some (.char c :: es, tail)

/-- The first unit of a pair. -/
def isHighSurrogate (code : Nat) : Bool :=
  0xD800 ≤ code && code < 0xDC00

/-- The second unit of a pair. -/
def isLowSurrogate (code : Nat) : Bool :=
  0xDC00 ≤ code && code < 0xE000

/-- The characters that elements spell.  Surrogates must come in pairs. -/
def characters? : List StringElement → Option (List Char)
  | [] => some []
  | .char c :: rest => (characters? rest).map (c :: ·)
  | .unit code :: rest =>
      if isHighSurrogate code then
        match rest with
        | .unit low :: tail =>
            if isLowSurrogate low then
              let c := Char.ofNat (0x10000 + (code - 0xD800) * 0x400 + (low - 0xDC00))
              (characters? tail).map (c :: ·)
            else none
        | _ => none
      else if isLowSurrogate code then none
      else (characters? rest).map (Char.ofNat code :: ·)

/-- The text of a string behind its opening quote, if it denotes one. -/
def stringBody? (cs : List Char) : Option (Option String × List Char) := do
  let (es, tail) ← elements? cs
  some ((characters? es).map String.ofList, tail)

/-- A run of decimal digits, at least one. -/
def digitRun? (cs : List Char) : Option (List Char × List Char) :=
  let ds := cs.takeWhile Char.isDigit
  if ds.isEmpty then none else some (ds, cs.dropWhile Char.isDigit)

/-- The whole part of a number: a zero, or digits that start with another one. -/
def wholePart? : List Char → Option (List Char × List Char)
  | '0' :: rest => some (['0'], rest)
  | cs => digitRun? cs

/-- The fraction of a number, if there is one. -/
def fraction? : List Char → Option (List Char × List Char)
  | '.' :: rest => (digitRun? rest).map fun r => ('.' :: r.1, r.2)
  | cs => some ([], cs)

/-- The sign of an exponent, if there is one. -/
def exponentSign : List Char → List Char × List Char
  | '+' :: rest => (['+'], rest)
  | '-' :: rest => (['-'], rest)
  | cs => ([], cs)

/-- The exponent of a number, if there is one. -/
def exponent? : List Char → Option (List Char × List Char)
  | e :: rest =>
      if e = 'e' ∨ e = 'E' then
        let (sign, tail) := exponentSign rest
        (digitRun? tail).map fun r => (e :: sign ++ r.1, r.2)
      else some ([], e :: rest)
  | [] => some ([], [])

/-- A number without its sign. -/
def unsigned? (cs : List Char) : Option (List Char × List Char) := do
  let (whole, cs) ← wholePart? cs
  let (fraction, cs) ← fraction? cs
  let (exponent, cs) ← exponent? cs
  some (whole ++ fraction ++ exponent, cs)

/-- A number. -/
def number? : List Char → Option (Json × List Char)
  | '-' :: rest => (unsigned? rest).map fun r => (.number (String.ofList ('-' :: r.1)), r.2)
  | cs => (unsigned? cs).map fun r => (.number (String.ofList r.1), r.2)

/-- The items of an array up to its closing bracket, at least one and at most
`n`. -/
def items? (value? : List Char → Option (Json × List Char)) :
    Nat → List Char → Option (List Json × List Char)
  | 0, _ => none
  | n + 1, cs => do
      let (j, rest) ← value? cs
      match skipSpaces rest with
      | ',' :: tail =>
          let (js, behind) ← items? value? n tail
          some (j :: js, behind)
      | ']' :: tail => some ([j], tail)
      | _ => none

/-- An array behind its opening bracket. -/
def arrayBody? (n : Nat) (value? : List Char → Option (Json × List Char)) (cs : List Char) :
    Option (Json × List Char) :=
  match skipSpaces cs with
  | ']' :: tail => some (.array [], tail)
  | _ => (items? value? n cs).map fun r => (.array r.1, r.2)

/-- A member of an object: its key, if that denotes a text, and its value. -/
def member? (value? : List Char → Option (Json × List Char)) (cs : List Char) :
    Option ((Option String × Json) × List Char) :=
  match skipSpaces cs with
  | '"' :: rest => do
      let (key, rest) ← stringBody? rest
      match skipSpaces rest with
      | ':' :: rest =>
          let (j, tail) ← value? rest
          some ((key, j), tail)
      | _ => none
  | _ => none

/-- The members of an object up to its closing brace, at least one and at most
`n`. -/
def members? (value? : List Char → Option (Json × List Char)) :
    Nat → List Char → Option (List (Option String × Json) × List Char)
  | 0, _ => none
  | n + 1, cs => do
      let (m, rest) ← member? value? cs
      match skipSpaces rest with
      | ',' :: tail =>
          let (ms, behind) ← members? value? n tail
          some (m :: ms, behind)
      | '\x7d' :: tail => some ([m], tail)
      | _ => none

/-- The object with the given members, if every key denotes a text. -/
def ofMembers (members : List (Option String × Json)) : Json :=
  match members.mapM fun m => m.1.map fun key => (key, m.2) with
  | some keyed => .object keyed
  | none => .textless

/-- An object behind its opening brace. -/
def objectBody? (n : Nat) (value? : List Char → Option (Json × List Char)) (cs : List Char) :
    Option (Json × List Char) :=
  match skipSpaces cs with
  | '\x7d' :: tail => some (.object [], tail)
  | _ => (members? value? n cs).map fun r => (ofMembers r.1, r.2)

/-- A value in at most `n` characters. -/
def valueWithin? : Nat → List Char → Option (Json × List Char)
  | 0, _ => none
  | n + 1, cs =>
      match skipSpaces cs with
      | 'n' :: 'u' :: 'l' :: 'l' :: rest => some (.null, rest)
      | 't' :: 'r' :: 'u' :: 'e' :: rest => some (.boolean true, rest)
      | 'f' :: 'a' :: 'l' :: 's' :: 'e' :: rest => some (.boolean false, rest)
      | '"' :: rest =>
          (stringBody? rest).map fun r => ((r.1.map Json.string).getD .textless, r.2)
      | '[' :: rest => arrayBody? n (valueWithin? n) rest
      | '\x7b' :: rest => objectBody? n (valueWithin? n) rest
      | rest => number? rest

/-- The value that a text denotes. -/
def parse? (code : String) : Option Json := do
  let cs := code.toList
  let (j, rest) ← valueWithin? cs.length cs
  if (skipSpaces rest).isEmpty then some j else none

end Json

end SwitchHoist
