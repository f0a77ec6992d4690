/-!
# Identifiers

An identifier starts with a letter, `_` or `$` and goes on with letters, digits,
`_`, `$` and dots.  Letters and digits are those of ASCII, which is what the
language is written in outside strings and comments.
-/

namespace SwitchHoist

/-- A character that may start an identifier. -/
def isIdentStart (c : Char) : Bool :=
  c.isAlpha || c == '_' || c == '$'

/-- A character that may stand inside an identifier. -/
def isIdentPart (c : Char) : Bool :=
  c.isAlphanum || c == '_' || c == '$' || c == '.'

/-- The pattern that every identifier matches. -/
def isIdentifier (s : String) : Bool :=
  match s.toList with
  | [] => false
  | c :: rest => isIdentStart c && rest.all isIdentPart

/-- What starts an identifier may also stand inside one. -/
theorem isIdentPart_of_isIdentStart {c : Char} (h : isIdentStart c = true) :
    isIdentPart c = true := by
  simp only [isIdentStart, Bool.or_eq_true] at h
  rcases h with (h | h) | h <;> simp [isIdentPart, Char.isAlphanum, h]

end SwitchHoist
