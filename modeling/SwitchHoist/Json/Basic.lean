/-!
# JSON values

An object keeps its members in the order they are written and keeps repeated
keys, so that a reader can tell them apart.  A number is kept as it is spelled:
nothing in a program is a JSON number.
-/

namespace SwitchHoist

/-- A JSON value. -/
inductive Json where
  | null
  | boolean (value : Bool)
  | number (spelling : String)
  | string (value : String)
  | array (items : List Json)
  | object (members : List (String × Json))
  /-- A string whose escapes leave a surrogate unpaired, or an object with such
  a key.  It may be written in JSON, but it denotes no text. -/
  | textless
  deriving Repr, Inhabited

namespace Json

/-- The text of a string value. -/
def text? : Json → Option String
  | string s => some s
  | _ => none

mutual

/-- The greatest number of arrays and objects that are open at once. -/
def depth : Json → Nat
  | array items => 1 + depthList items
  | object members => 1 + depthMembers members
  | _ => 0

/-- The greatest depth in a list of values. -/
def depthList : List Json → Nat
  | [] => 0
  | j :: rest => max j.depth (depthList rest)

/-- The greatest depth in a list of members. -/
def depthMembers : List (String × Json) → Nat
  | [] => 0
  | (_, j) :: rest => max j.depth (depthMembers rest)

end

end Json

end SwitchHoist
