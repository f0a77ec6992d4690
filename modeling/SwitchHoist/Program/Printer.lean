import SwitchHoist.Program.Basic

/-!
# The text of a program

Every tree has one text: a statement on a line of its own, four blanks for each
block around it, and braces around the lines of a block.  The text of a
statement starts without indentation, because its first line is placed by
whatever stands before it.
-/

namespace SwitchHoist

/-- The pieces one after another. -/
def concat : List String → String
  | [] => ""
  | s :: rest => s ++ concat rest

/-- The pieces with a comma and a blank between neighbours. -/
def commaSeparated : List String → String
  | [] => ""
  | [s] => s
  | s :: rest => s ++ ", " ++ commaSeparated rest

/-- The blanks in front of a line at a nesting level. -/
def indentation : Nat → String
  | 0 => ""
  | level + 1 => "    " ++ indentation level

/-- The annotation after a name or a literal. -/
def typeSuffix : Option String → String
  | none => ""
  | some typ => ":" ++ typ

/-- `a` or `a:u256` -/
def TypedName.text (v : TypedName) : String :=
  v.name ++ typeSuffix v.typ

/-- The text of a list of typed names. -/
def TypedName.texts (vs : List TypedName) : String :=
  commaSeparated (vs.map TypedName.text)

/-- A string literal gets its quotes back; nothing inside it is escaped. -/
def Literal.text (l : Literal) : String :=
  match l.kind with
  | .string => "\"" ++ l.value ++ "\"" ++ typeSuffix l.typ
  | .number | .boolean => l.value ++ typeSuffix l.typ

mutual

/-- The text of an expression. -/
def Expr.text : Expr → String
  | .literal l => l.text
  | .variable x => x
  | .call f args => f ++ "(" ++ commaSeparated (Expr.texts args) ++ ")"

/-- The texts of the arguments of a call. -/
def Expr.texts : List Expr → List String
  | [] => []
  | e :: rest => e.text :: Expr.texts rest

end

/-- What follows `:=`, if a value is given. -/
def initializer : Option Expr → String
  | none => ""
  | some e => " := " ++ e.text

/-- The part of a function's head that names its returns. -/
def returnsText : List TypedName → String
  | [] => ""
  | rs => " -> " ++ TypedName.texts rs

/-- The word or words that open a case. -/
def caseHead : Option Literal → String
  | none => "default "
  | some l => "case " ++ l.text ++ " "

/-- A line inside the braces of a block. -/
def blockLine (level : Nat) (text : String) : String :=
  indentation level ++ text ++ "\n"

/-- The texts of statements between braces.  The opening brace ends the current
line and the closing brace stands at `level`. -/
def braced (level : Nat) (texts : List String) : String :=
  match texts with
  | [] => "\x7b \x7d"
  | texts => "\x7b\n" ++ concat (texts.map (blockLine (level + 1))) ++ indentation level ++ "\x7d"

mutual

/-- The text of a statement whose first line is already indented to `level`. -/
def Stmt.textAt (level : Nat) : Stmt → String
  | .expr e => e.text
  | .assign targets value => commaSeparated targets ++ " := " ++ value.text
  | .declare vars value => "let " ++ TypedName.texts vars ++ initializer value
  | .define name params returns body =>
      "function " ++ name ++ "(" ++ TypedName.texts params ++ ")" ++ returnsText returns ++ " "
        ++ braced level (Block.textsAt (level + 1) body)
  | .branch condition body =>
      "if " ++ condition.text ++ " " ++ braced level (Block.textsAt (level + 1) body)
  | .switch scrutinee cases => "switch " ++ scrutinee.text ++ Case.textsAt level cases
  | .loop pre condition post body =>
      "for " ++ braced level (Block.textsAt (level + 1) pre) ++ " " ++ condition.text ++ " "
        ++ braced level (Block.textsAt (level + 1) post) ++ " "
        ++ braced level (Block.textsAt (level + 1) body)
  | .break => "break"
  | .continue => "continue"
  | .leave => "leave"
  | .block body => braced level (Block.textsAt (level + 1) body)

/-- The texts of the statements of a block, all at one level. -/
def Block.textsAt (level : Nat) : List Stmt → List String
  | [] => []
  | s :: rest => s.textAt level :: Block.textsAt level rest

/-- The text of the cases of a switch, each on a line of its own. -/
def Case.textsAt (level : Nat) : List Case → String
  | [] => ""
  | ⟨value, body⟩ :: rest =>
      "\n" ++ indentation level ++ caseHead value ++ braced level (Block.textsAt (level + 1) body)
        ++ Case.textsAt level rest

end

/-- The text of a statement at the left margin. -/
def Stmt.text (s : Stmt) : String :=
  s.textAt 0

/-- The text of a whole program. -/
def Block.text (b : Block) : String :=
  braced 0 (Block.textsAt 1 b)

theorem Expr.texts_eq_map (es : List Expr) : Expr.texts es = es.map Expr.text := by
  induction es with
  | nil => rfl
  | cons e rest ih => simp [Expr.texts, ih]

theorem Block.textsAt_eq_map (level : Nat) (b : Block) :
    Block.textsAt level b = b.map (Stmt.textAt level) := by
  induction b with
  | nil => rfl
  | cons s rest ih => simp [Block.textsAt, ih]

end SwitchHoist
