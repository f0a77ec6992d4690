/-!
# Tokens

A token is a keyword, a punctuation mark, a number, a string or an identifier.
It carries its text and the byte offset where the text starts, so the place
where it ends is not stored but computed.
-/

namespace SwitchHoist

/-- The words with a meaning of their own. -/
inductive Keyword where
  | letK
  | functionK
  | ifK
  | switchK
  | caseK
  | defaultK
  | forK
  | breakK
  | continueK
  | leaveK
  | trueK
  | falseK
  deriving DecidableEq, Repr, Inhabited

namespace Keyword

/-- The spelling of a keyword. -/
def text : Keyword → String
  | letK => "let"
  | functionK => "function"
  | ifK => "if"
  | switchK => "switch"
  | caseK => "case"
  | defaultK => "default"
  | forK => "for"
  | breakK => "break"
  | continueK => "continue"
  | leaveK => "leave"
  | trueK => "true"
  | falseK => "false"

/-- Every keyword once. -/
def all : List Keyword :=
  [letK, functionK, ifK, switchK, caseK, defaultK, forK, breakK, continueK, leaveK, trueK, falseK]

theorem mem_all (k : Keyword) : k ∈ all := by
  cases k <;> decide

/-- The keyword spelled by a word, if it is one. -/
def ofText? (word : String) : Option Keyword :=
  all.find? fun k => k.text == word

theorem text_of_ofText? {word : String} {k : Keyword} (h : ofText? word = some k) :
    k.text = word := by
  simpa using List.find?_some h

end Keyword

/-- Punctuation. -/
inductive Mark where
  | gets
  | colon
  | comma
  | arrow
  | openParen
  | closeParen
  | openBrace
  | closeBrace
  deriving DecidableEq, Repr, Inhabited

namespace Mark

/-- The spelling of a mark. -/
def text : Mark → String
  | gets => ":="
  | colon => ":"
  | comma => ","
  | arrow => "->"
  | openParen => "("
  | closeParen => ")"
  | openBrace => "\x7b"
  | closeBrace => "\x7d"

/-- Every mark once, and a mark before those that are the start of it. -/
def all : List Mark :=
  [gets, colon, comma, arrow, openParen, closeParen, openBrace, closeBrace]

theorem mem_all (m : Mark) : m ∈ all := by
  cases m <;> decide

theorem text_ne_nil (m : Mark) : m.text.toList ≠ [] := by
  cases m <;> decide

end Mark

namespace Token

/-- What a token is. -/
inductive Kind where
  | keyword (k : Keyword)
  | mark (m : Mark)
  | number
  | string
  | identifier
  deriving DecidableEq, Repr, Inhabited

/-- The name of a kind in messages: keywords and marks name themselves. -/
def Kind.text : Kind → String
  | .keyword k => k.text
  | .mark m => m.text
  | .number => "number"
  | .string => "string"
  | .identifier => "identifier"

end Token

/-- A token of a source text, with the byte offset of its first character. -/
structure Token where
  kind : Token.Kind
  text : String
  start : Nat
  deriving DecidableEq, Repr, Inhabited

/-- The byte offset just behind a token. -/
def Token.stop (t : Token) : Nat :=
  t.start + t.text.utf8ByteSize

/-- The words that no variable and no function may be called: the keywords,
and `hex`, which the language keeps for itself. -/
def reservedWords : List String :=
  Keyword.all.map Keyword.text ++ ["hex"]

end SwitchHoist
