import SwitchHoist.Json.Basic

/-!
# Writing JSON

A value has a compact text without any blanks, and a pretty text in which every
item and every member stands on a line of its own, two blanks further in than
the bracket that opens its list.  In strings only quotes, backslashes and
control characters are escaped.
-/

namespace SwitchHoist

namespace Json

/-- The hexadecimal digit for a number below sixteen. -/
def hexDigit (n : Nat) : Char :=
  if n < 10 then Char.ofNat (48 + n) else Char.ofNat (87 + n)

/-- The characters that stand for one character inside a string. -/
def escape (c : Char) : List Char :=
  if c = '"' then ['\\', '"']
  else if c = '\\' then ['\\', '\\']
  else if c = '\x08' then ['\\', 'b']
  else if c = '\x0c' then ['\\', 'f']
  else if c = '\n' then ['\\', 'n']
  else if c = '\r' then ['\\', 'r']
  else if c = '\t' then ['\\', 't']
  else if c.toNat < 32 then
    ['\\', 'u', '0', '0', hexDigit (c.toNat / 16), hexDigit (c.toNat % 16)]
  else [c]

/-- A string between quotes. -/
def quoted (s : String) : String :=
  "\"" ++ String.ofList (s.toList.flatMap escape) ++ "\""

/-- The texts with a separator between neighbours. -/
def joined (separator : String) : List String → String
  | [] => ""
  | [s] => s
  | s :: rest => s ++ separator ++ joined separator rest

mutual

/-- The text of a value without blanks. -/
def compact : Json → String
  | null => "null"
  | boolean true => "true"
  | boolean false => "false"
  | number spelling => spelling
  | string s => quoted s
  | array items => "[" ++ joined "," (compactList items) ++ "]"
  | object members => "\x7b" ++ joined "," (compactMembers members) ++ "\x7d"
  | textless => "null"

/-- The compact texts of the items of an array. -/
def compactList : List Json → List String
  | [] => []
  | j :: rest => j.compact :: compactList rest

/-- The compact texts of the members of an object. -/
def compactMembers : List (String × Json) → List String
  | [] => []
  | (key, j) :: rest => (quoted key ++ ":" ++ j.compact) :: compactMembers rest

end

/-- Two blanks for each open bracket. -/
def margin : Nat → String
  | 0 => ""
  | level + 1 => "  " ++ margin level

/-- Texts on lines of their own between two brackets; without any text the
brackets stand together. -/
def stacked (level : Nat) (opening closing : String) (texts : List String) : String :=
  match texts with
  | [] => opening ++ closing
  | texts =>
      opening ++ "\n" ++ margin (level + 1) ++ joined (",\n" ++ margin (level + 1)) texts
        ++ "\n" ++ margin level ++ closing

mutual

/-- The pretty text of a value that starts on a line indented to `level`. -/
def prettyAt (level : Nat) : Json → String
  | null => "null"
  | boolean true => "true"
  | boolean false => "false"
  | number spelling => spelling
  | string s => quoted s
  | array items => stacked level "[" "]" (prettyList (level + 1) items)
  | object members => stacked level "\x7b" "\x7d" (prettyMembers (level + 1) members)
  | textless => "null"

/-- The pretty texts of the items of an array. -/
def prettyList (level : Nat) : List Json → List String
  | [] => []
  | j :: rest => prettyAt level j :: prettyList level rest

/-- The pretty texts of the members of an object. -/
def prettyMembers (level : Nat) : List (String × Json) → List String
  | [] => []
  | (key, j) :: rest => (quoted key ++ ": " ++ prettyAt level j) :: prettyMembers level rest

end

/-- The pretty text of a value. -/
def pretty (j : Json) : String :=
  prettyAt 0 j

end Json

end SwitchHoist
