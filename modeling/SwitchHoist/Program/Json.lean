import SwitchHoist.Json.Basic
import SwitchHoist.Json.Reader
import SwitchHoist.Json.Writer
import SwitchHoist.Program.Basic

/-!
# Programs as JSON values

A record is an object with one member for each field; a choice is an object with
one member, whose key names the choice, or just that name if the choice carries
nothing.  A field that may be absent is `null` when it is.

Reading is a little more liberal than writing: members with other keys are
ignored, a field that may be absent may be left out, a record may be an array of
all its fields, and a choice that carries nothing may be an object with `null`.
Reading opens at most a given number of arrays and objects at once.  Values that
are ignored are not counted.
-/

namespace SwitchHoist

/-! ## Writing -/

/-- A text that may be absent. -/
def Json.ofText? : Option String → Json
  | none => .null
  | some s => .string s

/-- The JSON value of a typed name. -/
def TypedName.toJson (v : TypedName) : Json :=
  .object [("name", .string v.name), ("typ", .ofText? v.typ)]

/-- The JSON value of a list of typed names. -/
def TypedName.listToJson (vs : List TypedName) : Json :=
  .array (vs.map TypedName.toJson)

/-- The word for a kind of literal. -/
def LiteralKind.word : LiteralKind → String
  | .number => "Number"
  | .boolean => "Boolean"
  | .string => "String"

/-- The JSON value of a literal. -/
def Literal.toJson (l : Literal) : Json :=
  .object [("kind", .string l.kind.word), ("value", .string l.value), ("typ", .ofText? l.typ)]

mutual

/-- The JSON value of an expression. -/
def Expr.toJson : Expr → Json
  | .literal l => .object [("Literal", l.toJson)]
  | .variable x => .object [("Identifier", .string x)]
  | .call f args =>
      .object [("FunctionCall",
        .object [("function", .string f), ("args", .array (Expr.listToJson args))])]

/-- The JSON values of the arguments of a call. -/
def Expr.listToJson : List Expr → List Json
  | [] => []
  | e :: rest => e.toJson :: Expr.listToJson rest

end

/-- The JSON value of an expression that may be absent. -/
def Expr.optionToJson : Option Expr → Json
  | none => .null
  | some e => e.toJson

/-- The JSON value of the value of a case. -/
def Literal.optionToJson : Option Literal → Json
  | none => .null
  | some l => l.toJson

mutual

/-- The JSON value of a statement. -/
def Stmt.toJson : Stmt → Json
  | .expr e => .object [("ExpressionStatement", e.toJson)]
  | .assign targets value =>
      .object [("Assignment",
        .object [("targets", .array (targets.map Json.string)), ("value", value.toJson)])]
  | .declare vars value =>
      .object [("VariableDeclaration",
        .object [("variables", TypedName.listToJson vars),
          ("value", Expr.optionToJson value)])]
  | .define name params returns body =>
      .object [("FunctionDefinition",
        .object [("name", .string name), ("params", TypedName.listToJson params),
          ("returns", TypedName.listToJson returns),
          ("body", .object [("statements", .array (Block.listToJson body))])])]
  | .branch condition body =>
      .object [("If",
        .object [("condition", condition.toJson),
          ("body", .object [("statements", .array (Block.listToJson body))])])]
  | .switch scrutinee cases =>
      .object [("Switch",
        .object [("expression", scrutinee.toJson), ("cases", .array (Case.listToJson cases))])]
  | .loop pre condition post body =>
      .object [("ForLoop",
        .object [("pre", .object [("statements", .array (Block.listToJson pre))]),
          ("condition", condition.toJson),
          ("post", .object [("statements", .array (Block.listToJson post))]),
          ("body", .object [("statements", .array (Block.listToJson body))])])]
  | .break => .string "Break"
  | .continue => .string "Continue"
  | .leave => .string "Leave"
  | .block body =>
      .object [("Block", .object [("statements", .array (Block.listToJson body))])]

/-- The JSON values of the statements of a block. -/
def Block.listToJson : List Stmt → List Json
  | [] => []
  | s :: rest => s.toJson :: Block.listToJson rest

/-- The JSON values of the cases of a switch. -/
def Case.listToJson : List Case → List Json
  | [] => []
  | ⟨value, body⟩ :: rest =>
      .object [("value", Literal.optionToJson value),
        ("body", .object [("statements", .array (Block.listToJson body))])]
        :: Case.listToJson rest

end

/-- The JSON value of a program. -/
def Block.toJson (b : Block) : Json :=
  .object [("statements", .array (Block.listToJson b))]

/-! ## Records, choices and lists -/

namespace Json

/-- The value of a field in the members of an object: `none` if its key is
repeated, `some none` if it is missing. -/
def field? (members : List (String × Json)) (name : String) : Option (Option Json) :=
  match members.filter fun m => m.1 == name with
  | [] => some none
  | [m] => some (some m.2)
  | _ => none

/-- The fields of a record, in the order of their names. -/
def record? (names : List String) : Json → Option (List (Option Json))
  | object members => names.mapM (field? members)
  | array items => if items.length = names.length then some (items.map some) else none
  | _ => none

/-- The choice that an object makes, and what it carries. -/
def choice? : Json → Option (String × Json)
  | object [(key, j)] => some (key, j)
  | _ => none

/-- The values in an array, each read in the same way. -/
def list? {α : Type} (item? : Json → Option α) : Json → Option (List α)
  | array items => items.mapM item?
  | _ => none

/-- A field that may be absent. -/
def optional? {α : Type} (read? : Json → Option α) : Option Json → Option (Option α)
  | none => some none
  | some .null => some none
  | some j => (read? j).map some

/-- A field that must be present. -/
def required? {α : Type} (read? : Json → Option α) (field : Option Json) : Option α :=
  field.bind read?

end Json

/-! ## Reading

A reader with the bound `n` opens at most `n` arrays and objects at once. -/

open Json (record? choice? list? optional? required?)

/-- A typed name. -/
def TypedName.ofJson? : Nat → Json → Option TypedName
  | 0, _ => none
  | _ + 1, j =>
      match record? ["name", "typ"] j with
      | some [name, typ] => do
          let x ← required? Json.text? name
          let t ← optional? Json.text? typ
          some ⟨x, t⟩
      | _ => none

/-- A list of typed names. -/
def TypedName.listOfJson? : Nat → Json → Option (List TypedName)
  | 0, _ => none
  | n + 1, j => list? (TypedName.ofJson? n) j

/-- A list of texts. -/
def Json.texts? : Nat → Json → Option (List String)
  | 0, _ => none
  | _ + 1, j => list? Json.text? j

/-- The kind of literal that a word names. -/
def LiteralKind.ofWord? : String → Option LiteralKind
  | "Number" => some .number
  | "Boolean" => some .boolean
  | "String" => some .string
  | _ => none

/-- The kind of a literal. -/
def LiteralKind.ofJson? : Nat → Json → Option LiteralKind
  | _, .string word => LiteralKind.ofWord? word
  | 0, _ => none
  | _ + 1, j =>
      match choice? j with
      | some (word, .null) => LiteralKind.ofWord? word
      | _ => none

/-- A literal. -/
def Literal.ofJson? : Nat → Json → Option Literal
  | 0, _ => none
  | n + 1, j =>
      match record? ["kind", "value", "typ"] j with
      | some [kind, value, typ] => do
          let k ← required? (LiteralKind.ofJson? n) kind
          let v ← required? Json.text? value
          let t ← optional? Json.text? typ
          some ⟨k, v, t⟩
      | _ => none

mutual

/-- An expression. -/
def Expr.ofJson? : Nat → Json → Option Expr
  | 0, _ => none
  | n + 1, j =>
      match choice? j with
      | some ("Literal", content) => (Literal.ofJson? n content).map .literal
      | some ("Identifier", content) => content.text?.map .variable
      | some ("FunctionCall", content) => Expr.callOfJson? n content
      | _ => none

/-- A call. -/
def Expr.callOfJson? : Nat → Json → Option Expr
  | 0, _ => none
  | n + 1, j =>
      match record? ["function", "args"] j with
      | some [function, args] => do
          let f ← required? Json.text? function
          let es ← required? (Expr.listOfJson? n) args
          some (.call f es)
      | _ => none

/-- The arguments of a call. -/
def Expr.listOfJson? : Nat → Json → Option (List Expr)
  | 0, _ => none
  | n + 1, j => list? (Expr.ofJson? n) j

end

/-- An assignment. -/
def Stmt.assignOfJson? : Nat → Json → Option Stmt
  | 0, _ => none
  | n + 1, j =>
      match record? ["targets", "value"] j with
      | some [targets, value] => do
          let xs ← required? (Json.texts? n) targets
          let e ← required? (Expr.ofJson? n) value
          some (.assign xs e)
      | _ => none

/-- A declaration. -/
def Stmt.declareOfJson? : Nat → Json → Option Stmt
  | 0, _ => none
  | n + 1, j =>
      match record? ["variables", "value"] j with
      | some [vars, value] => do
          let xs ← required? (TypedName.listOfJson? n) vars
          let e ← optional? (Expr.ofJson? n) value
          some (.declare xs e)
      | _ => none

/-- The statement that a word names. -/
def Stmt.ofWord? : String → Option Stmt
  | "Break" => some .break
  | "Continue" => some .continue
  | "Leave" => some .leave
  | _ => none

mutual

/-- A statement. -/
def Stmt.ofJson? : Nat → Json → Option Stmt
  | _, .string word => Stmt.ofWord? word
  | 0, _ => none
  | n + 1, j =>
      match choice? j with
      | some (word, .null) => Stmt.ofWord? word
      | some ("ExpressionStatement", content) => (Expr.ofJson? n content).map .expr
      | some ("Assignment", content) => Stmt.assignOfJson? n content
      | some ("VariableDeclaration", content) => Stmt.declareOfJson? n content
      | some ("FunctionDefinition", content) => Stmt.defineOfJson? n content
      | some ("If", content) => Stmt.branchOfJson? n content
      | some ("Switch", content) => Stmt.switchOfJson? n content
      | some ("ForLoop", content) => Stmt.loopOfJson? n content
      | some ("Block", content) => (Block.ofJsonWithin? n content).map .block
      | _ => none

/-- The definition of a function. -/
def Stmt.defineOfJson? : Nat → Json → Option Stmt
  | 0, _ => none
  | n + 1, j =>
      match record? ["name", "params", "returns", "body"] j with
      | some [name, params, returns, body] => do
          let f ← required? Json.text? name
          let ps ← required? (TypedName.listOfJson? n) params
          let rs ← required? (TypedName.listOfJson? n) returns
          let b ← required? (Block.ofJsonWithin? n) body
          some (.define f ps rs b)
      | _ => none

/-- An `if`. -/
def Stmt.branchOfJson? : Nat → Json → Option Stmt
  | 0, _ => none
  | n + 1, j =>
      match record? ["condition", "body"] j with
      | some [condition, body] => do
          let c ← required? (Expr.ofJson? n) condition
          let b ← required? (Block.ofJsonWithin? n) body
          some (.branch c b)
      | _ => none

/-- A switch. -/
def Stmt.switchOfJson? : Nat → Json → Option Stmt
  | 0, _ => none
  | n + 1, j =>
      match record? ["expression", "cases"] j with
      | some [expression, cases] => do
          let e ← required? (Expr.ofJson? n) expression
          let cs ← required? (Case.listOfJson? n) cases
          some (.switch e cs)
      | _ => none

/-- A loop. -/
def Stmt.loopOfJson? : Nat → Json → Option Stmt
  | 0, _ => none
  | n + 1, j =>
      match record? ["pre", "condition", "post", "body"] j with
      | some [pre, condition, post, body] => do
          let p ← required? (Block.ofJsonWithin? n) pre
          let c ← required? (Expr.ofJson? n) condition
          let q ← required? (Block.ofJsonWithin? n) post
          let b ← required? (Block.ofJsonWithin? n) body
          some (.loop p c q b)
      | _ => none

/-- The cases of a switch. -/
def Case.listOfJson? : Nat → Json → Option (List Case)
  | 0, _ => none
  | n + 1, j => list? (Case.ofJson? n) j

/-- A case. -/
def Case.ofJson? : Nat → Json → Option Case
  | 0, _ => none
  | n + 1, j =>
      match record? ["value", "body"] j with
      | some [value, body] => do
          let v ← optional? (Literal.ofJson? n) value
          let b ← required? (Block.ofJsonWithin? n) body
          some ⟨v, b⟩
      | _ => none

/-- A block. -/
def Block.ofJsonWithin? : Nat → Json → Option (List Stmt)
  | 0, _ => none
  | n + 1, j =>
      match record? ["statements"] j with
      | some [statements] => required? (Stmt.listOfJson? n) statements
      | _ => none

/-- The statements of a block. -/
def Stmt.listOfJson? : Nat → Json → Option (List Stmt)
  | 0, _ => none
  | n + 1, j => list? (Stmt.ofJson? n) j

end

/-- The program that a JSON value stands for, however deep it is. -/
def Block.ofJson? (j : Json) : Option Block :=
  Block.ofJsonWithin? j.depth j

/-- The number of arrays and objects of a program that may be open at once in a
JSON text. -/
def Json.nestingLimit : Nat := 127

/-- The program that a JSON text stands for. -/
def Block.parseJson? (code : String) : Option Block := do
  let j ← Json.parse? code
  Block.ofJsonWithin? Json.nestingLimit j

end SwitchHoist
